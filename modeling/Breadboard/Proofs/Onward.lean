import Breadboard.Proofs.Roster
import Breadboard.Proofs.Sealed
import Breadboard.Proofs.Survey

/-!
# What was placed stays

Laying out goes only forward: the outline of the parts and the scopes stay as they were
(`Netlist.Onward`). So each component that was placed can be found as the part that its
definition makes of it (`made_layout`).
-/

namespace Breadboard

open Netlist

variable {library : Library} {netlist next : Netlist} {scope index depth : Nat}
  {placements : Placements} {schematic : Schematic} {component : Component}

theorem lookup_map_snd {α β : Type} (f : α → β) (id : String) : ∀ entries : List (String × α),
    (entries.map fun entry => (entry.1, f entry.2)).lookup id = (entries.lookup id).map f
  | [] => rfl
  | entry :: entries => by
    rw [List.map_cons, List.lookup_cons, List.lookup_cons, lookup_map_snd f id entries]
    split <;> rfl

/-! ## Placing a component -/

theorem place_of_assembly? {expand : Layout} {assembly : Assembly}
    (h : library.assembly? component = some assembly) :
    place library expand scope (netlist, placements) component =
      ((enter expand scope netlist component (library.inside? component)).1.addPart
          (assembly.toPart component scope),
        (component.id,
          ⟨(enter expand scope netlist component (library.inside? component)).1.parts.length,
            (enter expand scope netlist component (library.inside? component)).2⟩) ::
          placements) := by
  obtain ⟨entry, hentry, hassembly⟩ := Option.bind_eq_some_iff.mp h
  rw [place_eq, inside?_eq hentry, hentry]
  dsimp only
  cases hassemble : entry.definition.assemble component.args with
  | error error => rw [hassemble] at hassembly; cases hassembly
  | ok built =>
    rw [hassemble] at hassembly
    cases hassembly
    rfl

/-- Of a component that cannot be built, only what it expands to is placed. -/
theorem place_of_unbuilt (expand : Layout) (scope : Nat) (netlist : Netlist)
    (placements : Placements) (h : library.assembly? component = none) :
    ∃ diagnostic, place library expand scope (netlist, placements) component =
      ((enter expand scope netlist component (library.inside? component)).1.report diagnostic,
        placements) := by
  rw [place_eq]
  cases hentry : library.get? component.definition with
  | none =>
    rw [Library.inside?, hentry]
    exact ⟨_, rfl⟩
  | some entry =>
    rw [inside?_eq hentry]
    dsimp only
    cases hassemble : entry.definition.assemble component.args with
    | error error => exact ⟨_, rfl⟩
    | ok built =>
      rw [Library.assembly?, hentry, Option.bind_some, hassemble] at h
      cases h

/-! ## Going forward -/

/-- What was placed stays as it was, and so do the scopes. -/
structure Netlist.Onward (netlist next : Netlist) : Prop where
  outline : netlist.outline <+: next.outline
  scopes : netlist.scopes <+: next.scopes

theorem onward_of_grows (h : Grows library netlist next) : netlist.Onward next := by
  induction h with
  | refl => exact ⟨List.prefix_rfl, List.prefix_rfl⟩
  | tail _ hstep ih =>
    suffices h : Netlist.Onward _ _ from ⟨ih.outline.trans h.outline, ih.scopes.trans h.scopes⟩
    cases hstep with
    | diagnostics | net => exact ⟨List.prefix_rfl, List.prefix_rfl⟩
    | scope => exact ⟨List.prefix_rfl, List.prefix_append ..⟩
    | part part _ _ => exact ⟨Grown.outline_addPart _ part ▸ List.prefix_append .., List.prefix_rfl⟩
    | bind index ref asSource _ =>
      exact ⟨(outline_bind _ index ref asSource).symm ▸ List.prefix_rfl, (kept_bind ..).scopes⟩

theorem onward_bindEnd (scope : Nat) (placements : Placements) (index : Nat) (netlist : Netlist)
    (wireEnd : String × Endpoint) :
    netlist.Onward (netlist.bindEnd scope placements index wireEnd) :=
  onward_of_grows (show Grows Library.empty _ _ from grows_bindEnd ..)

theorem Netlist.Onward.length_parts (h : netlist.Onward next) :
    netlist.parts.length ≤ next.parts.length := by
  simpa only [length_outline] using h.outline.length_le

theorem Netlist.Onward.report (h : netlist.Onward next) (diagnostic : Diagnostic) :
    netlist.Onward (next.report diagnostic) :=
  ⟨h.outline, h.scopes⟩

theorem Netlist.Onward.addPart (h : netlist.Onward next) (part : Part) :
    netlist.Onward (next.addPart part) :=
  ⟨h.outline.trans (Grown.outline_addPart next part ▸ List.prefix_append ..), h.scopes⟩

theorem getElem?_of_prefix {α : Type} {list more : List α} {a : α} (h : list <+: more)
    (ha : list[index]? = some a) : more[index]? = some a := by
  obtain ⟨rest, rfl⟩ := h
  rw [List.getElem?_append_left (List.getElem?_eq_some_iff.mp ha).1, ha]

theorem grows_enter (library : Library) (depth scope : Nat) (netlist : Netlist)
    (component : Component) (inside : Option Schematic) : Grows library netlist
      (enter (layout library depth) scope netlist component inside).1 := by
  cases inside with
  | none => exact .refl
  | some inside =>
    exact .head (.scope netlist scope component.id) (grows_layout library depth _ _ _)

/-- Each component placed so far has become a part. -/
def Made (library : Library) (schematic : Schematic) (scope : Nat)
    (state : Netlist × Placements) : Prop :=
  ∀ entry ∈ state.2, ∃ component ∈ schematic.components, component.id = entry.1 ∧ ∃ assembly,
    library.assembly? component = some assembly ∧
      state.1.outline[entry.2.part]? = some (assembly.toPart component scope)

theorem Made.grow (h : Made library schematic scope (netlist, placements))
    (hnext : netlist.Onward next) : Made library schematic scope (next, placements) := by
  intro entry hentry
  obtain ⟨component, hmem, hid, assembly, hassembly, hpart⟩ := h entry hentry
  exact ⟨component, hmem, hid, assembly, hassembly, getElem?_of_prefix hnext.outline hpart⟩

theorem Made.place (h : Made library schematic scope (netlist, placements))
    (hmem : component ∈ schematic.components) : Made library schematic scope
      (Breadboard.place library (layout library depth) scope (netlist, placements) component) := by
  have hinside : netlist.Onward (enter (layout library depth) scope netlist component
      (library.inside? component)).1 := onward_of_grows (grows_enter library ..)
  cases hassembly : library.assembly? component with
  | none =>
    obtain ⟨diagnostic, hplace⟩ := place_of_unbuilt (layout library depth) scope netlist
      placements hassembly
    rw [hplace]
    exact h.grow (hinside.report diagnostic)
  | some assembly =>
    rw [place_of_assembly? hassembly]
    intro other hother
    rcases List.mem_cons.mp hother with rfl | hother
    · refine ⟨component, hmem, rfl, assembly, hassembly, ?_⟩
      rw [Grown.outline_addPart, ← length_outline, List.getElem?_concat_length,
        Stage.unbound_toPart]
    · exact h.grow (hinside.addPart _) other hother

theorem made_layout (library : Library) (depth : Nat) (schematic : Schematic) (scope : Nat)
    (netlist : Netlist) :
    Made library schematic scope (layout library depth schematic scope netlist) := by
  cases depth with
  | zero => exact fun _ hmem => nomatch hmem
  | succ depth =>
    have hplaces : Made library schematic scope (schematic.components.foldl
        (Breadboard.place library (layout library depth) scope) (netlist, [])) :=
      List.foldlRecOn schematic.components _ (fun _ hmem => nomatch hmem)
        fun _ hmade _ hmem => hmade.place hmem
    exact hplaces.grow (onward_of_grows (show Grows library _ _ from grows_bindWires ..))

/-! ## Flattening -/

def Netlist.blank : Netlist :=
  { scopes := [⟨none, ""⟩] }

/-- What is laid out of components at the top. -/
def Library.placed (library : Library) (components : List Component) : Netlist × Placements :=
  components.foldl (place library (layout library library.entries.length) 0) (.blank, [])

theorem flatten_eq (library : Library) (schematic : Schematic) : flatten library schematic =
    ((library.placed schematic.components).1.bindWires schematic.wires 0
      (library.placed schematic.components).2).reportDrivers := rfl

end Breadboard
