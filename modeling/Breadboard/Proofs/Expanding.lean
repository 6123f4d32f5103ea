import Breadboard.Proofs.GuardedFlatten
import Breadboard.Proofs.Shift

/-!
# What placing a component adds

Where no definition contains itself, what a component expands to is laid out just as it is
flattened on its own, behind what is there (`behind_enter`). So components take as much of a
netlist as is known beforehand (`extent_placed`), and what they add is in their own scopes
(`appends_place`). What stands behind a placed component are parts at the top of its
schematic, each under the id of a boundary port (`shown_place`).
-/

namespace Breadboard

open Netlist

variable {library : Library} {inside schematic : Schematic} {component : Component}
  {netlist : Netlist} {scope depth : Nat}

/-! ## Levels to spare -/

theorem layout_succ (library : Library) (depth : Nat) (schematic : Schematic) (scope : Nat)
    (netlist : Netlist) : layout library (depth + 1) schematic scope netlist =
      let state := schematic.components.foldl (place library (layout library depth) scope)
        (netlist, [])
      (state.1.bindWires schematic.wires scope state.2, state.2) := rfl

/-- More levels than a schematic unfolds in change nothing. -/
theorem layout_succ_eq : ∀ (depth : Nat) {schematic : Schematic} (scope : Nat) (netlist : Netlist),
    schematic.Unfolds library depth →
      layout library (depth + 1) schematic scope netlist =
        layout library depth schematic scope netlist := by
  intro depth
  induction depth with
  | zero => exact fun _ _ h => h.elim
  | succ depth ih =>
    intro schematic scope netlist hunfolds
    have hplace : ∀ component ∈ schematic.components, ∀ state : Netlist × Placements,
        place library (layout library (depth + 1)) scope state component =
          place library (layout library depth) scope state component := by
      rintro component hmem ⟨netlist, placements⟩
      rw [Netlist.place_eq, Netlist.place_eq]
      cases hentry : library.get? component.definition with
      | none => rfl
      | some entry =>
        have henter : enter (layout library (depth + 1)) scope netlist component entry.inside =
            enter (layout library depth) scope netlist component entry.inside := by
          cases hinside : entry.inside with
          | none => rfl
          | some inside =>
            have hinner := hunfolds component hmem inside ((inside?_eq hentry).trans hinside)
            rw [enter, enter, ih _ _ hinner]
        dsimp only
        rw [henter]
    rw [layout_succ, layout_succ,
      List.foldl_ext _ _ _ fun state component hmem => hplace component hmem state]

theorem Library.Acyclic.unfolds_of_inside? (h : library.Acyclic)
    (hinside : library.inside? component = some inside) :
    inside.Unfolds library library.entries.length :=
  h.unfolds ⟨[component], []⟩ component (List.mem_singleton_self _) inside hinside

/-! ## How much is laid out -/

instance : Add Offset :=
  ⟨fun base more => ⟨base.parts + more.parts, base.nets + more.nets, base.scopes + more.scopes⟩⟩

theorem Offset.add_assoc (base more last : Offset) : base + more + last = base + (more + last) :=
  Offset.mk.injEq .. ▸ ⟨Nat.add_assoc .., Nat.add_assoc .., Nat.add_assoc ..⟩

def Netlist.extent (netlist : Netlist) : Offset :=
  ⟨netlist.parts.length, netlist.nets.length, netlist.scopes.length⟩

theorem extent_addPart (netlist : Netlist) (part : Part) :
    (netlist.addPart part).extent = netlist.extent + ⟨1, 0, 0⟩ := by
  rw [extent, addPart, List.length_append]
  rfl

/-- How much of a netlist a component takes: what the schematic of its definition flattens
to, and a part if it can be built. -/
def Library.extent (library : Library) (component : Component) : Offset :=
  ((library.inside? component).elim {} fun inside => (flatten library inside).extent) +
    ⟨if (library.assembly? component).isSome then 1 else 0, 0, 0⟩

/-- How much of a netlist is taken by components at the top, and by the top scope. -/
def Library.taken (library : Library) (components : List Component) : Offset :=
  components.foldl (fun taken component => taken + library.extent component) ⟨0, 0, 1⟩

theorem behind_blank (netlist : Netlist) (scope : Nat) (name : String) :
    Behind netlist.extent (netlist.addScope scope name) .blank (netlist.addScope scope name) where
  parts := (List.append_nil _).symm
  nets := (List.append_nil _).symm
  scopes := (List.append_nil _).symm
  length_parts := rfl
  length_nets := rfl
  length_scopes := List.length_append
  top := Nat.one_pos

/-- What a component expands to is laid out behind what is there, as when it is flattened
on its own. -/
theorem behind_enter (hacyclic : library.Acyclic)
    (hinside : library.inside? component = some inside) (scope : Nat) (netlist : Netlist) :
    Behind netlist.extent (netlist.addScope scope component.id) (flatten library inside)
      (enter (layout library library.entries.length) scope netlist component (some inside)).1 := by
  have hbehind := (steady_layout library library.entries.length inside 0
    (behind_blank netlist scope component.id)).behind
  rw [← layout_succ_eq _ _ .blank (hacyclic.unfolds_of_inside? hinside)] at hbehind
  exact { hbehind with }

theorem extent_enter (hacyclic : library.Acyclic) (scope : Nat) (netlist : Netlist)
    (component : Component) :
    (enter (layout library library.entries.length) scope netlist component
      (library.inside? component)).1.extent = netlist.extent +
        (library.inside? component).elim {} fun inside => (flatten library inside).extent := by
  cases hinside : library.inside? component with
  | none => rfl
  | some inside =>
    have h := behind_enter hacyclic hinside scope netlist
    rw [extent, h.size_parts, h.size_nets, h.size_scopes]
    rfl

theorem extent_place (hacyclic : library.Acyclic) (scope : Nat) (state : Netlist × Placements)
    (component : Component) :
    (place library (layout library library.entries.length) scope state component).1.extent =
      state.1.extent + library.extent component := by
  obtain ⟨netlist, placements⟩ := state
  have henter := extent_enter hacyclic scope netlist component
  cases hassembly : library.assembly? component with
  | none =>
    obtain ⟨diagnostic, hplace⟩ := place_of_unbuilt
      (layout library library.entries.length) scope netlist placements hassembly
    rw [hplace, Library.extent, hassembly]
    exact henter
  | some assembly =>
    rw [place_of_assembly? hassembly, Library.extent, hassembly, extent_addPart, henter]
    exact Offset.add_assoc ..

theorem extent_placed (hacyclic : library.Acyclic) (components : List Component) :
    (library.placed components).1.extent = library.taken components :=
  List.foldl_rel (r := fun (state : Netlist × Placements) taken => state.1.extent = taken) rfl
    fun component _ state _ h => (extent_place hacyclic 0 state component).trans
      (congrArg (· + library.extent component) h)

/-! ## What is laid out behind -/

/-- Something was laid out in a scope: what came is in the scope itself, or in scopes that
came as well. -/
structure Appends (scope : Nat) (state next : Netlist × Placements) : Prop where
  parts : ∃ more, next.1.parts = state.1.parts ++ more ∧
    ∀ part ∈ more, part.scope = scope ∨ state.1.scopes.length ≤ part.scope
  nets : ∃ more, next.1.nets = state.1.nets ++ more ∧
    ∀ net ∈ more, state.1.scopes.length ≤ net.scope
  scopes : ∃ more, next.1.scopes = state.1.scopes ++ more ∧ ∀ inner ∈ more,
    ∃ parent, inner.parent = some parent ∧ (parent = scope ∨ state.1.scopes.length ≤ parent)
  placements : ∀ id placed, next.2.lookup id = some placed → state.2.lookup id = some placed ∨
    ∀ inner ∈ placed.boundary, state.1.parts.length ≤ inner.2

/-- The first scope is the top, and the others have parents. -/
def Netlist.Rooted (netlist : Netlist) : Prop :=
  ∃ rest, netlist.scopes = ⟨none, ""⟩ :: rest ∧
    ∀ scope ∈ rest, ∃ parent, scope.parent = some parent

theorem rooted_flatten (library : Library) (schematic : Schematic) :
    (flatten library schematic).Rooted := by
  have hgrows : ∀ {next : Netlist}, Grows library .blank next → next.Rooted := by
    intro next hgrows
    induction hgrows with
    | refl => exact ⟨[], rfl, fun scope hscope => nomatch hscope⟩
    | tail _ hstep ih =>
      cases hstep with
      | diagnostics | part | net => exact ih
      | scope parent name =>
        obtain ⟨rest, hscopes, hrooted⟩ := ih
        refine ⟨rest ++ [⟨some parent, name⟩], congrArg (· ++ _) hscopes, fun scope hscope => ?_⟩
        rcases List.mem_append.mp hscope with hscope | hscope
        · exact hrooted scope hscope
        · rw [List.mem_singleton.mp hscope]
          exact ⟨parent, rfl⟩
      | bind =>
        rw [Rooted, scopes_bind]
        exact ih
  exact hgrows (grows_flatten library schematic)

theorem Netlist.Rooted.parent (h : netlist.Rooted) : ∀ scope ∈ netlist.scopes.tail,
    ∃ parent, scope.parent = some parent := by
  obtain ⟨rest, hscopes, hrooted⟩ := h
  rw [hscopes]
  exact hrooted

namespace Appends

variable {state next last : Netlist × Placements}

theorem refl (scope : Nat) (state : Netlist × Placements) : Appends scope state state :=
  ⟨⟨[], (List.append_nil _).symm, fun _ hmem => nomatch hmem⟩,
    ⟨[], (List.append_nil _).symm, fun _ hmem => nomatch hmem⟩,
    ⟨[], (List.append_nil _).symm, fun _ hmem => nomatch hmem⟩, fun _ _ => .inl⟩

theorem length_scopes (h : Appends scope state next) :
    state.1.scopes.length ≤ next.1.scopes.length := by
  obtain ⟨more, hscopes, -⟩ := h.scopes
  rw [hscopes, List.length_append]
  exact Nat.le_add_right ..

theorem length_parts (h : Appends scope state next) :
    state.1.parts.length ≤ next.1.parts.length := by
  obtain ⟨more, hparts, -⟩ := h.parts
  rw [hparts, List.length_append]
  exact Nat.le_add_right ..

theorem trans (h : Appends scope state next) (h' : Appends scope next last) :
    Appends scope state last := by
  have hlater : ∀ {index : Nat}, next.1.scopes.length ≤ index → state.1.scopes.length ≤ index :=
    fun hle => Nat.le_trans h.length_scopes hle
  obtain ⟨parts, hparts, hpart⟩ := h.parts
  obtain ⟨parts', hparts', hpart'⟩ := h'.parts
  obtain ⟨nets, hnets, hnet⟩ := h.nets
  obtain ⟨nets', hnets', hnet'⟩ := h'.nets
  obtain ⟨scopes, hscopes, hscope⟩ := h.scopes
  obtain ⟨scopes', hscopes', hscope'⟩ := h'.scopes
  refine ⟨⟨parts ++ parts', ?_, fun part hmem => ?_⟩, ⟨nets ++ nets', ?_, fun net hmem => ?_⟩,
    ⟨scopes ++ scopes', ?_, fun inner hmem => ?_⟩, fun id placed hlookup => ?_⟩
  · rw [hparts', hparts, List.append_assoc]
  · exact (List.mem_append.mp hmem).elim (hpart part) fun hmem =>
      (hpart' part hmem).imp_right hlater
  · rw [hnets', hnets, List.append_assoc]
  · exact (List.mem_append.mp hmem).elim (hnet net) fun hmem => hlater (hnet' net hmem)
  · rw [hscopes', hscopes, List.append_assoc]
  · refine (List.mem_append.mp hmem).elim (hscope inner) fun hmem => ?_
    obtain ⟨parent, hparent, hplace⟩ := hscope' inner hmem
    exact ⟨parent, hparent, hplace.imp_right hlater⟩
  · rcases h'.placements id placed hlookup with hlookup | hlater
    · exact h.placements id placed hlookup
    · exact .inr fun inner hinner => Nat.le_trans h.length_parts (hlater inner hinner)

end Appends

/-! ## What stands behind a placed component -/

/-- The schematic has a boundary port with the id. -/
def Schematic.Shows (schematic : Schematic) (id : String) : Prop :=
  ∃ component ∈ schematic.components,
    component.definition = Boundary.definition ∧ component.id = id

instance (schematic : Schematic) (id : String) : Decidable (schematic.Shows id) :=
  inferInstanceAs (Decidable (∃ component ∈ schematic.components, _ ∧ _))

/-- What stands behind an expanded component is at the top of its schematic, under the id of
a boundary port. -/
theorem shown_enter (hacyclic : library.Acyclic) (hinside : library.inside? component = some inside)
    {inner : String × Nat} (hinner : inner ∈ (enter (layout library library.entries.length) scope
      netlist component (some inside)).2) : ∃ n part, inner.2 = netlist.parts.length + n ∧
        (flatten library inside).parts[n]? = some part ∧ part.scope = 0 ∧ inside.Shows part.id := by
  have habreast := steady_layout library library.entries.length inside 0
    (behind_blank netlist scope component.id)
  have hshown : (enter (layout library library.entries.length) scope netlist component
      (some inside)).2 = _ := (congrArg (boundaryParts inside) habreast.placements).trans
        (netlist.extent.boundaryParts inside _)
  rw [hshown] at hinner
  obtain ⟨shown, hshown, rfl⟩ := List.mem_map.mp hinner
  obtain ⟨port, hport, placed, hdefinition, hlookup, rfl⟩ := mem_boundaryParts hshown
  obtain ⟨other, -, hid, assembly, -, hpart⟩ :=
    made_layout library _ inside 0 .blank _ (mem_of_lookup hlookup)
  rw [← layout_succ_eq _ _ .blank (hacyclic.unfolds_of_inside? hinside), outline_getElem?] at hpart
  obtain ⟨part, hpart, hunbound⟩ := Option.map_eq_some_iff.mp hpart
  refine ⟨placed.part, part, rfl, hpart, congrArg Part.scope hunbound, port, hport, hdefinition, ?_⟩
  exact hid.symm.trans (congrArg Part.id hunbound).symm

theorem appends_enter (hacyclic : library.Acyclic) (scope : Nat) (netlist : Netlist)
    (placements : Placements) (component : Component) :
    Appends scope (netlist, placements)
      ((enter (layout library library.entries.length) scope netlist component
        (library.inside? component)).1, placements) := by
  cases hinside : library.inside? component with
  | none => exact .refl ..
  | some inside =>
    have h := behind_enter hacyclic hinside scope netlist
    refine ⟨⟨_, h.parts, fun part hmem => ?_⟩, ⟨_, h.nets, fun net hmem => ?_⟩,
      ⟨_, h.scopes.trans (List.append_assoc ..), fun other hmem => ?_⟩, fun _ _ => .inl⟩
    · obtain ⟨part, -, rfl⟩ := List.mem_map.mp hmem
      exact .inr (Nat.le_add_right ..)
    · obtain ⟨net, -, rfl⟩ := List.mem_map.mp hmem
      exact Nat.le_add_right ..
    · rcases List.mem_append.mp hmem with hmem | hmem
      · rw [List.mem_singleton.mp hmem]
        exact ⟨scope, rfl, .inl rfl⟩
      · obtain ⟨inner, hinner, rfl⟩ := List.mem_map.mp hmem
        obtain ⟨parent, hparent⟩ := (rooted_flatten library inside).parent inner hinner
        exact ⟨_, congrArg (Option.map _) hparent, .inr (Nat.le_add_right ..)⟩

theorem appends_addPart (netlist : Netlist) (placements : Placements) {part : Part}
    (h : part.scope = scope) :
    Appends scope (netlist, placements) (netlist.addPart part, placements) :=
  { Appends.refl scope (netlist, placements) with
    parts := ⟨[part], rfl, fun _ hmem => .inl (List.mem_singleton.mp hmem ▸ h)⟩ }

/-- What is placed under an id was placed before, or there is behind it only what the
component expands to. -/
theorem shown_place (hacyclic : library.Acyclic) {state : Netlist × Placements} {id : String}
    {placed : Placed} (hlookup : (place library (layout library library.entries.length) scope state
      component).2.lookup id = some placed) : state.2.lookup id = some placed ∨
        ∀ inner ∈ placed.boundary, ∃ inside n part, library.inside? component = some inside ∧
          inner.2 = state.1.parts.length + n ∧ (flatten library inside).parts[n]? = some part ∧
          part.scope = 0 ∧ inside.Shows part.id := by
  obtain ⟨netlist, placements⟩ := state
  cases hassembly : library.assembly? component with
  | none =>
    obtain ⟨diagnostic, hplace⟩ := place_of_unbuilt
      (layout library library.entries.length) scope netlist placements hassembly
    rw [hplace] at hlookup
    exact .inl hlookup
  | some assembly =>
    rw [place_of_assembly? hassembly, List.lookup_cons] at hlookup
    split at hlookup
    · rw [← Option.some.inj hlookup]
      refine .inr fun inner hinner => ?_
      dsimp only at hinner
      cases hinside : library.inside? component with
      | none =>
        rw [hinside] at hinner
        cases hinner
      | some inside =>
        rw [hinside] at hinner
        obtain ⟨n, part, hshown⟩ := shown_enter hacyclic hinside hinner
        exact ⟨inside, n, part, rfl, hshown⟩
    · exact .inl hlookup

/-- The part of a component itself comes last. -/
theorem appends_own (library : Library) (expand : Layout) (scope : Nat) (netlist : Netlist)
    (placements : Placements) (component : Component) :
    Appends scope
      ((enter expand scope netlist component (library.inside? component)).1,
        (place library expand scope (netlist, placements) component).2)
      (place library expand scope (netlist, placements) component) := by
  cases hassembly : library.assembly? component with
  | none =>
    obtain ⟨diagnostic, hplace⟩ := place_of_unbuilt expand scope netlist placements
      hassembly
    rw [hplace]
    exact { Appends.refl scope (_, placements) with }
  | some assembly =>
    rw [place_of_assembly? hassembly]
    exact appends_addPart _ _ rfl

/-- Whatever a component adds is behind what was there. -/
theorem appends_place (hacyclic : library.Acyclic) (scope : Nat) (state : Netlist × Placements)
    (component : Component) : Appends scope state
      (place library (layout library library.entries.length) scope state component) := by
  obtain ⟨netlist, placements⟩ := state
  refine { (appends_enter hacyclic scope netlist _ component).trans (appends_own ..) with
    placements := fun id placed hlookup => ?_ }
  refine (shown_place hacyclic hlookup).imp_right fun hshown inner hinner => ?_
  obtain ⟨_, n, _, -, hplace, -⟩ := hshown inner hinner
  exact hplace ▸ Nat.le_add_right ..

theorem appends_places (hacyclic : library.Acyclic) (components : List Component)
    (state : Netlist × Placements) : Appends scope state
      (components.foldl (place library (layout library library.entries.length) scope) state) :=
  List.foldlRecOn components _ (Appends.refl scope state) fun next h component _ =>
    h.trans (appends_place hacyclic scope next component)

theorem roomy_placed (hacyclic : library.Acyclic) (components : List Component) :
    Guarded.Roomy (library.placed components).1 0 (library.placed components).2 :=
  List.foldlRecOn (motive := fun state : Netlist × Placements => Guarded.Roomy state.1 0 state.2)
    components _ ⟨Guarded.housed_top, Nat.one_pos, fun _ _ hlookup => nomatch hlookup⟩
    fun _ h _ _ => (Guarded.Untrapped.place (Guarded.untrapped_layout library _)
      (fun _ => hacyclic.unfolds_of_inside?) h).2

/-- The part of a component is in the scope that the component was placed in. -/
theorem part_of_lookup {components : List Component} {id : String} {placed : Placed}
    (h : (library.placed components).2.lookup id = some placed) : ∃ part,
      (library.placed components).1.parts[placed.part]? = some part ∧ part.scope = 0 := by
  obtain ⟨_, -, -, assembly, -, hpart⟩ := made_layout library (library.entries.length + 1)
    ⟨components, []⟩ 0 .blank _ (mem_of_lookup h)
  rw [layout_succ, outline_bindWires, outline_getElem?] at hpart
  obtain ⟨part, hpart, hunbound⟩ := Option.map_eq_some_iff.mp hpart
  exact ⟨part, hpart, congrArg Part.scope hunbound⟩

end Breadboard
