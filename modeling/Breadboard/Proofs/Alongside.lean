import Breadboard.Proofs.Onward
import Breadboard.Proofs.Overlay

/-!
# Laying out a circuit with and without an expansion

A circuit is laid out twice, from two libraries that differ in one definition: in the
second library it has a schematic. Step by step both netlists stay overlaid, and the
components placed so far stand for the same ports (`PlacedOver`), except that behind a
port of that definition there is the outer side of a boundary port in the second one. So
the flat circuits are overlaid if nothing is reported (`overlaid_flatten`).
-/

namespace Breadboard

open Netlist

variable {library : Library} {m : Marking} {plain nested plain' nested' netlist next : Netlist}
  {n index position scope scope' depth : Nat} {id : String} {placed placed' : Breadboard.Placed}
  {placements placements' : Placements} {wires : List Wire} {schematic inside : Schematic}
  {component : Component} {definition : Definition}

/-! ## What was placed on both sides -/

/-- The parts behind which there is only the outer side of a boundary port that is not
tri-state. -/
structure Listens (m : Marking) (nested : Netlist) (boundary : List (String × Nat)) : Prop where
  dark : ∀ inner ∈ boundary, ¬ Lit m.parts inner.2
  through : ∀ inner ∈ boundary, ∃ part, nested.outline[inner.2]? = some part ∧
    ∀ port ∈ part.ports, port.id = Boundary.externalPin → port.type.tristate = false

/-- A placed component and where it stands in the circuit with the schematic: behind it
there is the same, or nothing and what only listens. -/
structure PlacedOver (m : Marking) (plain nested : Netlist) (placed placed' : Placed) : Prop where
  lt : placed.part < plain.parts.length
  part : placed'.part = m.onto.part placed.part
  boundary : placed'.boundary = placed.boundary.map (fun inner => (inner.1, m.onto.part inner.2)) ∨
    placed.boundary = [] ∧ Listens m nested placed'.boundary ∧
      ∃ part, nested.outline[placed'.part]? = some part ∧ part.valid = true

/-- The components placed so far, one by one. -/
def PlacementsOver (m : Marking) (plain nested : Netlist) : Placements → Placements → Prop :=
  List.Forall₂ fun entry entry' => entry'.1 = entry.1 ∧ PlacedOver m plain nested entry.2 entry'.2

theorem Listens.grow {boundary : List (String × Nat)} (h : Listens m nested boundary)
    (hnested : nested.outline <+: nested'.outline) : Listens m nested' boundary :=
  ⟨h.dark, fun inner hinner => by
    obtain ⟨part, hpart, hthrough⟩ := h.through inner hinner
    exact ⟨part, getElem?_of_prefix hnested hpart, hthrough⟩⟩

theorem PlacedOver.grow (h : PlacedOver m plain nested placed placed')
    (hplain : plain.parts.length ≤ plain'.parts.length)
    (hnested : nested.outline <+: nested'.outline) :
    PlacedOver m plain' nested' placed placed' where
  lt := Nat.lt_of_lt_of_le h.lt hplain
  part := h.part
  boundary := h.boundary.imp id fun ⟨hnone, hlistens, part, hpart, hvalid⟩ =>
    ⟨hnone, hlistens.grow hnested, part, getElem?_of_prefix hnested hpart, hvalid⟩

theorem PlacementsOver.grow (h : PlacementsOver m plain nested placements placements')
    (hplain : plain.parts.length ≤ plain'.parts.length)
    (hnested : nested.outline <+: nested'.outline) :
    PlacementsOver m plain' nested' placements placements' :=
  h.imp fun _ _ hentry => ⟨hentry.1, hentry.2.grow hplain hnested⟩

theorem PlacementsOver.lookup (h : PlacementsOver m plain nested placements placements')
    (id : String) : placements.lookup id = none ∧ placements'.lookup id = none ∨
      ∃ placed placed', placements.lookup id = some placed ∧
        placements'.lookup id = some placed' ∧ PlacedOver m plain nested placed placed' := by
  induction h with
  | nil => exact .inl ⟨rfl, rfl⟩
  | @cons entry entry' placements placements' hentry _ ih =>
    obtain ⟨name, placed⟩ := entry
    obtain ⟨name', placed'⟩ := entry'
    obtain ⟨rfl, hover⟩ := hentry
    rw [List.lookup_cons, List.lookup_cons]
    cases id == name' with
    | true => exact .inr ⟨placed, placed', rfl, rfl, hover⟩
    | false => exact ih

/-! ## Binding wires -/

namespace Overlaid

section

variable (h : Overlaid m plain nested)

include h

theorem behind?_same
    (hboundary : placed'.boundary = placed.boundary.map fun inner => (inner.1, m.onto.part inner.2))
    (id : String) : nested.behind? placed' id = (plain.behind? placed id).map m.onto.ref := by
  rw [behind?, behind?, hboundary, lookup_map_snd]
  cases placed.boundary.lookup id with
  | none => rfl
  | some part =>
    simp only [Option.map_some, Option.bind_some, h.position?, Option.map_map]
    rfl

theorem bindPlaced (hn : n < plain.nets.length) (hplaced : PlacedOver m plain nested placed placed')
    (position : Nat) (id : String)
    (hsilent : (nested.bindPlaced (m.onto.net n) placed' position id).diagnostics = []) :
    Overlaid m (plain.bindPlaced n placed position id)
      (nested.bindPlaced (m.onto.net n) placed' position id) := by
  have href : (⟨placed'.part, position⟩ : PortRef) = m.onto.ref ⟨placed.part, position⟩ :=
    congrArg (PortRef.mk · position) hplaced.part
  have hfirst : ∀ {own : Bool} {ref : PortRef} {asSource : Bool},
      ((nested.bind (m.onto.net n) ⟨placed'.part, position⟩ own).bind (m.onto.net n) ref
        asSource).diagnostics = [] →
      Overlaid m (plain.bind n ⟨placed.part, position⟩ own)
        (nested.bind (m.onto.net n) ⟨placed'.part, position⟩ own) := by
    intro own ref asSource hsilent
    rw [href] at hsilent ⊢
    exact h.bind hn (List.prefix_nil.mp (hsilent ▸ diagnostics_bind ..))
  rw [bindPlaced_eq] at hsilent ⊢
  rw [bindPlaced_eq]
  rcases hplaced.boundary with hsame | ⟨hnone, hlistens, part, hpart, hvalid⟩
  · rw [h.behind?_same hsame] at hsilent ⊢
    have hown : nested.parts[placed'.part]?.any (·.valid) =
        plain.parts[placed.part]?.any (·.valid) := by
      rw [hplaced.part, h.any_valid]
    cases hbehind : plain.behind? placed id with
    | none =>
      simp only [hbehind, Option.map_none, href] at hsilent ⊢
      exact h.bind hn hsilent
    | some inner =>
      simp only [hbehind, Option.map_some, hown] at hsilent ⊢
      refine (hfirst hsilent).bind ?_ hsilent
      rwa [(length_bind ..).2]
  · have hown : nested.parts[placed'.part]?.any (·.valid) = true := by
      rw [any_valid_eq, hpart]
      exact hvalid
    have hplain : plain.behind? placed id = none := by rw [behind?, hnone]; rfl
    rw [hplain]
    cases hbehind : nested.behind? placed' id with
    | none =>
      simp only [hbehind, href] at hsilent ⊢
      exact h.bind hn hsilent
    | some inner =>
      simp only [hbehind, hown] at hsilent ⊢
      obtain ⟨q, hlookup, hposition⟩ := Option.bind_eq_some_iff.mp hbehind
      obtain ⟨pin, hpin, rfl⟩ := Option.map_eq_some_iff.mp hposition
      have hmem := mem_of_lookup hlookup
      refine (hfirst hsilent).listen (hlistens.dark _ hmem) fun decl hdecl => ?_
      rw [decl?_congr (outline_bind ..), decl?_eq] at hdecl
      obtain ⟨found, hfound, hthrough⟩ := hlistens.through _ hmem
      rw [position?_eq, hfound, Option.bind_some] at hpin
      obtain ⟨hlt, hid, -⟩ := List.findIdx?_eq_some_iff_getElem.mp hpin
      rw [hfound, Option.bind_some, List.getElem?_eq_getElem hlt, Option.map_some] at hdecl
      rw [← Option.some.inj hdecl]
      exact hthrough _ (List.getElem_mem hlt) (by simpa using hid)

theorem bindEnd (scope scope' : Nat) (hn : n < plain.nets.length)
    (hplacements : PlacementsOver m plain nested placements placements')
    (wireEnd : String × Endpoint)
    (hsilent : (nested.bindEnd scope' placements' (m.onto.net n) wireEnd).diagnostics = []) :
    Overlaid m (plain.bindEnd scope placements n wireEnd)
      (nested.bindEnd scope' placements' (m.onto.net n) wireEnd) := by
  rw [bindEnd_eq] at hsilent ⊢
  rw [bindEnd_eq]
  rcases hplacements.lookup wireEnd.2.component with
    ⟨-, hnone⟩ | ⟨placed, placed', hplaced, hplaced', hover⟩
  · simp only [hnone] at hsilent
    exact absurd hsilent (by simp [report])
  · simp only [hplaced, hplaced', hover.part, h.position?] at hsilent ⊢
    cases hposition : plain.position? placed.part wireEnd.2.port with
    | none =>
      simp only [hposition] at hsilent
      exact absurd hsilent (by simp [report])
    | some position =>
      simp only [hposition] at hsilent ⊢
      exact h.bindPlaced hn hover position wireEnd.2.port hsilent

end

end Overlaid

/-- What two runs over a list have in common, as long as the second one is silent. -/
theorem foldl_over {α β β' : Type} (Over : List α → β → β' → Prop) (silent : β' → Prop)
    {step : β → α → β} {step' : β' → α → β'}
    (hback : ∀ state item, silent (step' state item) → silent state)
    (hstep : ∀ item items state state', Over (item :: items) state state' →
      silent (step' state' item) → Over items (step state item) (step' state' item)) :
    ∀ (items : List α) (state : β) (state' : β'), Over items state state' →
      silent (items.foldl step' state') →
      Over [] (items.foldl step state) (items.foldl step' state') := by
  have hsilent : ∀ (items : List α) (state : β'),
      silent (items.foldl step' state) → silent state := by
    intro items
    induction items with
    | nil => exact fun _ h => h
    | cons item items ih => exact fun state h => hback state item (ih _ h)
  intro items
  induction items with
  | nil => exact fun _ _ hover _ => hover
  | cons item items ih =>
    exact fun state state' hover h =>
      ih _ _ (hstep item items state state' hover (hsilent items _ h)) h

/-- Two netlists in which a schematic is being laid out, in scopes of the same path. -/
structure InStep (m : Marking) (scope scope' : Nat) (state state' : Netlist × Placements) :
    Prop where
  overlaid : Overlaid m state.1 state'.1
  placements : PlacementsOver m state.1 state'.1 state.2 state'.2
  scope : SameScope state.1.scopes state'.1.scopes scope scope'

theorem SameScope.grow {first first' second second' : List Scope}
    (h : SameScope first second scope scope') (hfirst : first <+: first')
    (hsecond : second <+: second') : SameScope first' second' scope scope' := by
  obtain ⟨more, rfl⟩ := hfirst
  obtain ⟨more', rfl⟩ := hsecond
  exact h.append more more'

theorem InStep.grow (h : InStep m scope scope' (plain, placements) (nested, placements'))
    (hover : Overlaid m plain' nested') (hplain : plain.Onward plain')
    (hnested : nested.Onward nested') :
    InStep m scope scope' (plain', placements) (nested', placements') where
  overlaid := hover
  placements := h.placements.grow hplain.length_parts hnested.outline
  scope := h.scope.grow hplain.scopes hnested.scopes

theorem InStep.bindGroup {group : List Nat}
    (h : InStep m scope scope' (plain, placements) (nested, placements'))
    (hlit : Lit m.nets nested.nets.length)
    (hsilent : (nested.bindGroup wires scope' placements' group).diagnostics = []) :
    InStep m scope scope' (plain.bindGroup wires scope placements group, placements)
      (nested.bindGroup wires scope' placements' group, placements') := by
  have hstart : InStep m scope scope' (addNet wires scope plain group, placements)
      (addNet wires scope' nested group, placements') :=
    ⟨h.overlaid.addNet hlit h.scope _, h.placements.grow (Nat.le_refl _) List.prefix_rfl, h.scope⟩
  have hindex : plain.nets.length < (addNet wires scope plain group).nets.length := by
    simp [addNet]
  have hnext : m.onto.net plain.nets.length = nested.nets.length := h.overlaid.net_next hlit
  refine (foldl_over
    (fun (_ : List (String × Endpoint)) state state' => plain.nets.length < state.nets.length ∧
      InStep m scope scope' (state, placements) (state', placements')) (·.diagnostics = [])
    (fun state wireEnd hnone => List.prefix_nil.mp (hnone ▸ diagnostics_bindEnd ..))
    (fun wireEnd _ state state' ⟨hlt, hstep⟩ hnone => ?_) (groupEnds (group.filterMap (wires[·]?)))
    _ _ ⟨hindex, hstart⟩ hsilent).2
  have hkept := show Replay Library.empty _ _ _ from replay_bindEnd scope placements wireEnd hlt
  have hover := hstep.overlaid.bindEnd scope scope' hlt hstep.placements wireEnd
    (hnext.symm ▸ hnone)
  rw [hnext] at hover
  exact ⟨hkept.kept.length_nets hlt, hstep.grow hover (onward_bindEnd ..) (onward_bindEnd ..)⟩

theorem InStep.bindWires (h : InStep m scope scope' (plain, placements) (nested, placements'))
    (hmarked : Marked m.nets nested.nets.length (netMarks wires))
    (hsilent : (nested.bindWires wires scope' placements').diagnostics = []) :
    InStep m scope scope' (plain.bindWires wires scope placements, placements)
      (nested.bindWires wires scope' placements', placements') := by
  refine (foldl_over (fun groups state state' =>
    Marked m.nets state'.nets.length (groups.map fun _ => true) ∧
      InStep m scope scope' (state, placements) (state', placements')) (·.diagnostics = [])
    (fun state group hnone => List.prefix_nil.mp (hnone ▸ diagnostics_bindGroup ..))
    (fun group groups state state' ⟨hmarked, hstep⟩ hnone => ?_) (wireGroups wires)
    _ _ ⟨hmarked, h⟩ hsilent).2
  have hmarked : Marked m.nets state'.nets.length ([true] ++ groups.map fun _ => true) := hmarked
  obtain ⟨hlit, hrest⟩ := marked_append.mp hmarked
  rw [length_bindGroup]
  exact ⟨hrest, hstep.bindGroup (hlit 0 true rfl) hnone⟩

/-! ## Placing components -/

/-- Two libraries that differ in one definition: in the second one it has a schematic. -/
structure Library.Expands (library more : Library) (definition : Definition) (inside : Schematic) :
    Prop where
  plain : library.get? definition.id = some ⟨definition, none⟩
  nested : more.get? definition.id = some ⟨definition, some inside⟩
  other : ∀ id ≠ definition.id, more.get? id = library.get? id
  size : more.entries.length = library.entries.length

/-- A device that is built in, does not stop the clock and has no carry beyond its sum. -/
structure Device.Harmless (device : Device) : Prop where
  native : device.Native
  runs : ∀ reason, device ≠ .halt reason
  carries : device.overshifts = false

instance (device : Device) : Decidable device.Harmless :=
  match device with
  | .halt reason => isFalse fun h => h.runs reason rfl
  | .scripted .. => isFalse fun h => h.native
  | .adder width carryIn carryOut =>
    decidable_of_iff ((Device.adder width carryIn carryOut).overshifts = false)
      ⟨fun h => ⟨trivial, nofun, h⟩, (·.carries)⟩
  | .inert | .constant _ | .input .. | .probe | .mux | .buffer | .register | .ram .. | .bridge
  | .boundary .. => isTrue ⟨trivial, nofun, rfl⟩

/-- A definition that is valid itself, and a schematic for it that is harmless. -/
structure Library.Spare (library : Library) (definition : Definition) (inside : Schematic) :
    Prop where
  valid : ∀ args assembly, definition.assemble args = .ok assembly → assembly.valid = true
  harmless : ∀ listing ∈ inside.roster library, listing.assembly.device.Harmless
  /-- No boundary port is tri-state. -/
  through : ∀ component ∈ inside.components, ∀ assembly,
    library.assembly? component = some assembly → ∀ port ∈ assembly.ports,
      port.id = Boundary.externalPin → port.type.tristate = false

theorem Library.expands_add (library : Library) (definition : Definition) (inside : Schematic) :
    (library.add definition).Expands (library.add definition (some inside)) definition inside where
  plain := get?_add_self ..
  nested := get?_add_self ..
  other _ hne := (get?_add_of_ne _ _ _ hne).trans (get?_add_of_ne _ _ _ hne).symm
  size := by simp [add]

theorem place_built {expand : Layout} {entry : Library.Entry} {assembly : Assembly}
    (hentry : library.get? component.definition = some entry)
    (hassemble : entry.definition.assemble component.args = .ok assembly) (scope : Nat)
    (netlist : Netlist) (placements : Placements) :
    place library expand scope (netlist, placements) component =
      ((enter expand scope netlist component entry.inside).1.addPart
          (assembly.toPart component scope),
        (component.id, ⟨(enter expand scope netlist component entry.inside).1.parts.length,
          (enter expand scope netlist component entry.inside).2⟩) :: placements) := by
  simp only [place, hentry, hassemble]
  rfl

theorem SameScope.addScope (h : SameScope plain.scopes nested.scopes scope scope') (name : String) :
    SameScope (plain.addScope scope name).scopes (nested.addScope scope' name).scopes
      plain.scopes.length nested.scopes.length where
  lt := by simp [Netlist.addScope]
  lt' := by simp [Netlist.addScope]
  path := by
    rw [scopePath_addScope name h.lt, scopePath_addScope name h.lt', h.localPath_eq]

theorem PlacementsOver.boundaryParts (h : PlacementsOver m plain nested placements placements')
    (inside : Schematic) : boundaryParts inside placements' =
      (boundaryParts inside placements).map fun inner => (inner.1, m.onto.part inner.2) := by
  unfold Breadboard.boundaryParts
  rw [List.map_reverse, List.map_filterMap]
  refine congrArg List.reverse (List.filterMap_congr fun component _ => ?_)
  rcases h.lookup component.id with ⟨hnone, hnone'⟩ | ⟨placed, placed', hplaced, hplaced', hover⟩
  · rw [hnone, hnone']
    rfl
  · rw [hplaced, hplaced']
    simp [hover.part]

/-- The part of a component comes next on both sides. -/
theorem InStep.addPart (h : InStep m scope scope' (plain, placements) (nested, placements'))
    (hplain : plain.Onward plain') (hnested : nested.Onward nested')
    (hover : Overlaid m plain' nested') (hlit : Lit m.parts nested'.parts.length)
    (component : Component) (assembly : Assembly) {boundary boundary' : List (String × Nat)}
    (hboundary : boundary' = boundary.map (fun inner => (inner.1, m.onto.part inner.2)) ∨
      boundary = [] ∧ Listens m nested' boundary' ∧ assembly.valid = true) :
    InStep m scope scope'
      (plain'.addPart (assembly.toPart component scope),
        (component.id, ⟨plain'.parts.length, boundary⟩) :: placements)
      (nested'.addPart (assembly.toPart component scope'),
        (component.id, ⟨nested'.parts.length, boundary'⟩) :: placements') := by
  have hlast := h.grow hover hplain hnested
  have hoverline : nested'.outline <+:
      (nested'.addPart (assembly.toPart component scope')).outline :=
    Grown.outline_addPart .. ▸ List.prefix_append ..
  have hlength : (plain'.addPart (assembly.toPart component scope)).parts.length =
      plain'.parts.length + 1 := by
    simp [Netlist.addPart]
  refine ⟨hover.addPart hlit hlast.scope component assembly, .cons ⟨rfl, ?_, ?_, ?_⟩
    (hlast.placements.grow (hlength ▸ Nat.le_succ _) hoverline), hlast.scope⟩
  · exact hlength ▸ Nat.lt_succ_self _
  · exact (hover.part_next hlit).symm
  · refine hboundary.imp id ?_
    rintro ⟨hnone, hlistens, hvalid⟩
    refine ⟨hnone, hlistens.grow hoverline, assembly.toPart component scope', ?_, hvalid⟩
    rw [Grown.outline_addPart, ← length_outline, List.getElem?_concat_length, Stage.unbound_toPart]

section

variable {more : Library} (hexpands : library.Expands more definition inside)
  (hspare : more.Spare definition inside)

/-- What the two layouts have in common at a depth. -/
def Keeps (library more : Library) (m : Marking) (id : String) (depth : Nat) : Prop :=
  ∀ {schematic : Schematic} {scope scope' : Nat} {plain nested : Netlist},
    Overlaid m plain nested → SameScope plain.scopes nested.scopes scope scope' →
    Marked m.parts nested.parts.length (outsideParts more id depth schematic) →
    Marked m.nets nested.nets.length (outsideNets more id depth schematic) →
    (layout more depth schematic scope' nested).1.diagnostics = [] →
    InStep m scope scope' (layout library depth schematic scope plain)
      (layout more depth schematic scope' nested)

include hspare in
/-- What stands behind a definition that is valid itself only listens. -/
theorem enter_spare (hover : Overlaid m plain nested)
    (hmarked : Marked m.parts nested.parts.length
      ((outsideParts more definition.id depth inside).map fun _ => false))
    (hmarked' : Marked m.nets nested.nets.length
      ((outsideNets more definition.id depth inside).map fun _ => false))
    (scope' : Nat) (component : Component) :
    Overlaid m plain (enter (layout more depth) scope' nested component (some inside)).1 ∧
      Listens m (enter (layout more depth) scope' nested component (some inside)).1
        (enter (layout more depth) scope' nested component (some inside)).2 := by
  have hlt : nested.scopes.length < (nested.addScope scope' component.id).scopes.length := by
    simp [Netlist.addScope]
  have hstart : Overlaid m plain (nested.addScope scope' component.id) := by
    have hstart := hover.addScopes [] [⟨some scope', component.id⟩]
    rwa [List.append_nil] at hstart
  have hparts := (counts_parts more).layout definition.id depth inside nested.scopes.length
    (nested.addScope scope' component.id)
  have hnets := (counts_nets more).layout definition.id depth inside nested.scopes.length
    (nested.addScope scope' component.id)
  have hmade := made_layout more depth inside nested.scopes.length
    (nested.addScope scope' component.id)
  have hsorted := (recorded_layout more depth inside nested.scopes.length
    (nested.addScope scope' component.id)).sorted
  have hdark : ∀ q, nested.parts.length ≤ q →
      q < (layout more depth inside nested.scopes.length
        (nested.addScope scope' component.id)).1.parts.length → ¬ Lit m.parts q := fun q hle hlt =>
    hmarked.dark hle (hparts ▸ hlt)
  have hdark' : ∀ index, nested.nets.length ≤ index →
      index < (layout more depth inside nested.scopes.length
        (nested.addScope scope' component.id)).1.nets.length → ¬ Lit m.nets index :=
    fun index hle hlt => hmarked'.dark hle (hnets ▸ hlt)
  refine ⟨hstart.aside (aside_layout depth inside hlt) (hparts ▸ Nat.le_add_right ..)
    (hnets ▸ Nat.le_add_right ..) hdark hdark', fun inner hinner => ?_, fun inner hinner => ?_⟩
  · obtain ⟨other, -, placed, -, hlookup, rfl⟩ := mem_boundaryParts hinner
    obtain ⟨hle, hlt⟩ := hsorted.range _ (mem_of_lookup hlookup)
    exact hdark _ hle hlt
  · obtain ⟨other, -, placed, -, hlookup, rfl⟩ := mem_boundaryParts hinner
    obtain ⟨component', hmem, -, assembly, hassembly, hpart⟩ := hmade _ (mem_of_lookup hlookup)
    refine ⟨_, hpart, fun port hport hid => ?_⟩
    obtain ⟨decl, hdecl, rfl⟩ := List.mem_map.mp hport
    exact hspare.through component' hmem assembly hassembly decl hdecl hid

/-- Any other definition is laid out on both sides. -/
theorem enter_other (hkeeps : Keeps library more m definition.id depth)
    (hover : Overlaid m plain nested) (hscope : SameScope plain.scopes nested.scopes scope scope')
    (other : Option Schematic)
    (hmarked : ∀ schematic, other = some schematic →
      Marked m.parts nested.parts.length (outsideParts more definition.id depth schematic) ∧
      Marked m.nets nested.nets.length (outsideNets more definition.id depth schematic))
    (component : Component)
    (hsilent : (enter (layout more depth) scope' nested component other).1.diagnostics = []) :
    Overlaid m (enter (layout library depth) scope plain component other).1
        (enter (layout more depth) scope' nested component other).1 ∧
      (enter (layout more depth) scope' nested component other).2 =
        (enter (layout library depth) scope plain component other).2.map
          fun inner => (inner.1, m.onto.part inner.2) := by
  cases other with
  | none => exact ⟨hover, rfl⟩
  | some schematic =>
    obtain ⟨hparts, hnets⟩ := hmarked schematic rfl
    have hstep := hkeeps
      (hover.addScopes [⟨some scope, component.id⟩] [⟨some scope', component.id⟩])
      (hscope.addScope component.id) hparts hnets hsilent
    exact ⟨hstep.overlaid, hstep.placements.boundaryParts schematic⟩

/-- The marks of the components that are still to be placed, and then of the wires, come
next. -/
structure Ahead (library : Library) (m : Marking) (id : String) (depth : Nat) (wires : List Wire)
    (components : List Component) (netlist : Netlist) : Prop where
  parts : Marked m.parts netlist.parts.length (components.flatMap fun component =>
    childOutside library id (partMarks library) (fun _ => []) depth component ++
      partMarks library component)
  nets : Marked m.nets netlist.nets.length ((components.flatMap fun component =>
    childOutside library id (fun _ => []) netMarks depth component ++ []) ++ netMarks wires)

theorem Ahead.place {components : List Component} (scope : Nat) (state : Netlist × Placements)
    (h : Ahead library m id depth wires (component :: components) state.1) :
    (Marked m.parts state.1.parts.length
        (childOutside library id (partMarks library) (fun _ => []) depth component ++
          partMarks library component) ∧
      Marked m.nets state.1.nets.length
        (childOutside library id (fun _ => []) netMarks depth component)) ∧
    Ahead library m id depth wires components
      (Breadboard.place library (layout library depth) scope state component).1 := by
  obtain ⟨hparts, hnets⟩ := h
  rw [List.flatMap_cons, marked_append] at hparts
  rw [List.flatMap_cons, List.append_assoc, marked_append, List.append_nil] at hnets
  refine ⟨⟨hparts.1, hnets.1⟩, ?_, ?_⟩
  · rw [(counts_parts library).place id ((counts_parts library).layout id depth)]
    exact hparts.2
  · rw [(counts_nets library).place id ((counts_nets library).layout id depth), List.append_nil]
    exact hnets.2

include hexpands hspare

/-- A component that is placed in the circuit with the schematic is placed without it. -/
theorem InStep.place (hkeeps : Keeps library more m definition.id depth)
    (h : InStep m scope scope' (plain, placements) (nested, placements'))
    (hparts : Marked m.parts nested.parts.length (childOutside more definition.id (partMarks more)
      (fun _ => []) depth component ++ partMarks more component))
    (hnets : Marked m.nets nested.nets.length (childOutside more definition.id (fun _ => [])
      netMarks depth component))
    (hsilent : (Breadboard.place more (layout more depth) scope' (nested, placements')
      component).1.diagnostics = []) :
    InStep m scope scope'
      (Breadboard.place library (layout library depth) scope (plain, placements) component)
      (Breadboard.place more (layout more depth) scope' (nested, placements') component) := by
  cases hentry' : more.get? component.definition with
  | none =>
    simp only [Breadboard.place, hentry'] at hsilent
    exact absurd hsilent (by simp [report])
  | some entry' =>
    cases hassemble' : entry'.definition.assemble component.args with
    | error error =>
      simp only [Breadboard.place, hentry', hassemble'] at hsilent
      exact absurd hsilent (by simp [report])
    | ok assembly =>
      rw [place_built hentry' hassemble'] at hsilent ⊢
      have hbuilt : more.assembly? component = some assembly := by
        rw [Library.assembly?, hentry', Option.bind_some, hassemble']
        rfl
      have hlength := (counts_parts more).enter definition.id
        ((counts_parts more).layout definition.id depth) hentry' scope' nested
      obtain ⟨hchild, hown⟩ := marked_append.mp hparts
      have hlit : Lit m.parts (enter (layout more depth) scope' nested component
          entry'.inside).1.parts.length := by
        rw [hlength]
        exact hown 0 true (by simp [partMarks, hbuilt])
      have hinside := inside?_eq hentry'
      have honward := onward_of_grows
        (grows_enter more depth scope' nested component entry'.inside)
      by_cases hid : component.definition = definition.id
      · obtain rfl : entry' = ⟨definition, some inside⟩ :=
          Option.some.inj (hentry'.symm.trans (hid ▸ hexpands.nested))
        have hentry : library.get? component.definition = some ⟨definition, none⟩ :=
          hid ▸ hexpands.plain
        simp only [childOutside, hinside, if_pos hid] at hchild hnets
        obtain ⟨hover, hlistens⟩ := enter_spare hspare h.overlaid hchild hnets scope' component
        rw [place_built hentry hassemble']
        exact h.addPart ⟨List.prefix_rfl, List.prefix_rfl⟩ honward hover hlit component assembly
          (.inr ⟨rfl, hlistens, hspare.valid _ _ hassemble'⟩)
      · have hentry := (hexpands.other _ hid).symm.trans hentry'
        rw [place_built hentry hassemble']
        have hmarked : ∀ schematic, entry'.inside = some schematic →
            Marked m.parts nested.parts.length (outsideParts more definition.id depth schematic) ∧
            Marked m.nets nested.nets.length (outsideNets more definition.id depth schematic) := by
          intro schematic hschematic
          simp only [childOutside, hinside, hschematic, if_neg hid] at hchild hnets
          exact ⟨hchild, hnets⟩
        obtain ⟨hover, hboundary⟩ := enter_other hkeeps h.overlaid h.scope entry'.inside hmarked
          component hsilent
        exact h.addPart
          (onward_of_grows (grows_enter library depth scope plain component _)) honward hover
          hlit component assembly (.inl hboundary)

theorem keeps (hlayout : Keeps library more m definition.id depth) :
    Keeps library more m definition.id (depth + 1) := by
  intro schematic scope scope' plain nested hover hscope hparts hnets hsilent
  have hahead : Ahead more m definition.id depth schematic.wires schematic.components nested :=
    ⟨by rwa [outsideParts, outside_succ, List.append_nil] at hparts, hnets⟩
  have hplaced : (schematic.components.foldl (place more (layout more depth) scope')
      (nested, [])).1.diagnostics = [] :=
    List.prefix_nil.mp (hsilent ▸ show
      _ <+: (layout more (depth + 1) schematic scope' nested).1.diagnostics from
        diagnostics_bindWires ..)
  have hplaces : Ahead more m definition.id depth schematic.wires []
        (schematic.components.foldl (place more (layout more depth) scope') (nested, [])).1 ∧
      InStep m scope scope'
        (schematic.components.foldl (place library (layout library depth) scope) (plain, []))
        (schematic.components.foldl (place more (layout more depth) scope') (nested, [])) :=
    foldl_over (fun components state state' =>
        Ahead more m definition.id depth schematic.wires components state'.1 ∧
          InStep m scope scope' state state') (·.1.diagnostics = [])
      (fun state component hnone => List.prefix_nil.mp
        (hnone ▸ diagnostics_place (reports_layout more depth) scope' state component))
      (fun component components state state' h hnone =>
        have hplace := h.1.place scope' state'
        ⟨hplace.2, h.2.place hexpands hspare hlayout hplace.1.1 hplace.1.2 hnone⟩)
      schematic.components _ _ ⟨hahead, hover, .nil, hscope⟩ hplaced
  exact hplaces.2.bindWires hplaces.1.nets hsilent

theorem keeps_layout (m : Marking) : ∀ depth, Keeps library more m definition.id depth
  | 0 => fun hover hscope _ _ _ => ⟨hover, .nil, hscope⟩
  | depth + 1 => keeps hexpands hspare (keeps_layout m depth)

omit hexpands hspare in
theorem overlaid_top (m : Marking) :
    Overlaid m { scopes := [⟨none, ""⟩] } { scopes := [⟨none, ""⟩] } where
  parts := rfl
  nets := rfl
  part h := nomatch h
  net h := nomatch h
  dark := fun ⟨_, hnet, _⟩ => nomatch hnet
  bound h := nomatch h
  listed := fun _ _ ⟨_, hnet, _⟩ => nomatch hnet
  silent := rfl

omit hexpands hspare in
/-- A net has as many drivers in both circuits. -/
theorem Overlaid.reportDrivers (h : Overlaid m plain nested)
    (hnone : nested.reportDrivers.diagnostics = []) :
    Overlaid m plain.reportDrivers nested.reportDrivers := by
  have hquiet := List.filterMap_eq_nil_iff.mp (List.append_eq_nil_iff.mp hnone).2
  have hsilent : plain.reportDrivers.diagnostics = [] := by
    refine List.append_eq_nil_iff.mpr ⟨h.silent, List.filterMap_eq_nil_iff.mpr ?_⟩
    rintro ⟨joined, n⟩ hmem
    obtain ⟨host, hhost, hover⟩ := h.net (List.mem_zipIdx_iff_getElem?.mp hmem)
    have hfound := hquiet (host, m.onto.net n) (List.mem_zipIdx_iff_getElem?.mpr hhost)
    dsimp only at hfound ⊢
    rw [hover.tristate, hover.sources, List.length_map] at hfound
    split at hfound
    · cases hfound
    · next hfew => rw [if_neg hfew]
  exact { h with
    part := fun hplaced =>
      have ⟨host, hhost, hover⟩ := h.part hplaced
      ⟨host, hhost, { hover with }⟩
    net := fun hjoined =>
      have ⟨host, hhost, hover⟩ := h.net hjoined
      ⟨host, hhost, { hover with }⟩
    silent := hsilent }

/-- The flat circuits with and without the schematic are overlaid. -/
theorem overlaid_flatten {schematic : Schematic}
    (hnone : (flatten more schematic).diagnostics = []) :
    Overlaid (schematic.marking more definition.id) (flatten library schematic)
      (flatten more schematic) := by
  have hlayout : (layout more (more.entries.length + 1) schematic 0
      { scopes := [⟨none, ""⟩] }).1.diagnostics = [] := (List.append_eq_nil_iff.mp hnone).1
  have hstep := keeps_layout hexpands hspare (schematic.marking more definition.id)
    (more.entries.length + 1) (overlaid_top _) ⟨Nat.one_pos, Nat.one_pos, rfl⟩
    marked_self marked_self hlayout
  rw [flatten, flatten, ← hexpands.size]
  exact hstep.overlaid.reportDrivers hnone

end

end Breadboard
