import Breadboard.Demo
import Breadboard.Proofs.Expanding
import Breadboard.Proofs.Fringe

/-!
# What a component expands to, as an excerpt of the flat circuit

Wherever a schematic is expanded in the course of flattening another one, what becomes of
it stands together in the flat circuit, and is what the schematic flattens to on its own
(`flatten_excerpts`): its parts, nets and scopes are shifted by as much as was laid out
before. Only its top scope has a name and a parent, and an external pin that the schematic
shows may know a net of the scope around it (`Schematic.detached`).

The part with the pin is looked up by the id of the boundary port, and so it can be another
one with the same id (`flatten_reaches_namesake`).
-/

namespace Breadboard

open Netlist

variable {library : Library} {schematic outer inside : Schematic} {component : Component}
  {before after : List Component} {base : Offset} {home : Scope} {small mid big netlist : Netlist}
  {placements : Placements} {scope : Nat}

/-! ## Excerpts -/

/-- The index is one of `count`, from `first` on. -/
def Lies (first count index : Nat) : Prop :=
  first ≤ index ∧ index < first + count

/-- A list stands in another one from `first` on, as far as can be viewed, and what stands
there is told from the rest by a property. -/
structure Occupies {α β : Type} (view : α → β) (p : α → Prop) (first : Nat) (list more : List α) :
    Prop where
  entry : ∀ n a, list[n]? = some a → more[first + n]?.map view = some (view a)
  iff : ∀ n a, more[n]? = some a → (p a ↔ Lies first list.length n)

namespace Occupies

variable {α β γ δ : Type} {view : α → β} {view' : α → γ} {p p' q : α → Prop} {first first' : Nat}
  {list mid more low high : List α}

theorem of_append (hlow : ∀ a ∈ low, ¬ p a) (hlist : ∀ a ∈ list, p a) :
    Occupies view p low.length list (low ++ list) := by
  refine ⟨fun n a ha => ?_, fun n a ha => ?_⟩
  · rw [List.getElem?_append_right (Nat.le_add_right ..), Nat.add_sub_cancel_left, ha]
    rfl
  · rcases Nat.lt_or_ge n low.length with hn | hn
    · rw [List.getElem?_append_left hn] at ha
      exact iff_of_false (hlow a (List.mem_of_getElem? ha)) fun h => Nat.not_le_of_lt hn h.1
    · obtain ⟨k, rfl⟩ := Nat.exists_eq_add_of_le hn
      rw [List.getElem?_append_right hn, Nat.add_sub_cancel_left] at ha
      exact iff_of_true (hlist a (List.mem_of_getElem? ha))
        ⟨hn, Nat.add_lt_add_left (List.getElem?_eq_some_iff.mp ha).1 _⟩

theorem whole (h : ∀ a ∈ list, p a) : Occupies view p 0 list list :=
  of_append (fun _ hmem => absurd hmem List.not_mem_nil) h

/-- Entries may change where this is not to be seen. -/
theorem change {next : List α} (h : Occupies id p first list more)
    (hview : ∀ n : Nat, Lies first list.length n → next[n]?.map view = more[n]?.map view)
    (hp : ∀ (n : Nat) (b : α), next[n]? = some b → ∃ a, more[n]? = some a ∧ (p b ↔ p a)) :
    Occupies view p first list next := by
  refine ⟨fun n a ha => ?_, fun n b hb => ?_⟩
  · have hentry := h.entry n a ha
    rw [Option.map_id] at hentry
    rw [hview _ ⟨Nat.le_add_right .., Nat.add_lt_add_left (List.getElem?_eq_some_iff.mp ha).1 _⟩,
      show more[first + n]? = some a from hentry]
    rfl
  · obtain ⟨a, ha, hiff⟩ := hp n b hb
    exact hiff.trans (h.iff n a ha)

theorem append {last : List α} (h : Occupies view p first list more)
    (hlast : ∀ a ∈ last, ¬ p a) : Occupies view p first list (more ++ last) := by
  have hlt : ∀ n, Lies first list.length n → n < more.length := by
    intro n hlies
    obtain ⟨k, rfl⟩ := Nat.exists_eq_add_of_le hlies.1
    have hentry := h.entry k _ (List.getElem?_eq_getElem (Nat.lt_of_add_lt_add_left hlies.2))
    obtain ⟨_, hmore, -⟩ := Option.map_eq_some_iff.mp hentry
    exact (List.getElem?_eq_some_iff.mp hmore).1
  refine ⟨fun n a ha => ?_, fun n a ha => ?_⟩
  · have hlies : Lies first list.length (first + n) :=
      ⟨Nat.le_add_right .., Nat.add_lt_add_left (List.getElem?_eq_some_iff.mp ha).1 _⟩
    rw [List.getElem?_append_left (hlt _ hlies)]
    exact h.entry n a ha
  · rcases Nat.lt_or_ge n more.length with hn | hn
    · rw [List.getElem?_append_left hn] at ha
      exact h.iff n a ha
    · rw [List.getElem?_append_right hn] at ha
      exact iff_of_false (hlast a (List.mem_of_getElem? ha)) fun hlies =>
        Nat.not_le_of_lt (hlt n hlies) hn

theorem tail (h : Occupies view p (first + 1) list more) :
    Occupies view p first list more.tail := by
  refine ⟨fun n a ha => ?_, fun n a ha => ?_⟩
  · rw [List.getElem?_tail, Nat.add_right_comm]
    exact h.entry n a ha
  · rw [List.getElem?_tail] at ha
    refine (h.iff _ a ha).trans ?_
    unfold Lies
    omega

/-- What stands in a list that stands in another one. -/
theorem trans {view'' : α → δ} {g : α → α} (h : Occupies view p first (mid.map g) more)
    (h' : Occupies view' p' first' list mid) (hq : ∀ a, q a → p a)
    (hp : ∀ a b, view b = view (g a) → (q b ↔ p' a))
    (hview : ∀ a b c, p' a → view b = view (g a) → view' a = view' c → view'' b = view'' (g c)) :
    Occupies view'' q (first + first') (list.map g) more := by
  -- an entry of the inner list, seen in the middle one and in the outer one
  have hthrough : ∀ n c, list[n]? = some c → ∃ a b, p' a ∧ view' a = view' c ∧
      more[first + first' + n]? = some b ∧ view b = view (g a) := by
    intro n c hc
    obtain ⟨a, ha, hac⟩ := Option.map_eq_some_iff.mp (h'.entry n c hc)
    have hlies : Lies first' list.length (first' + n) :=
      ⟨Nat.le_add_right .., Nat.add_lt_add_left (List.getElem?_eq_some_iff.mp hc).1 _⟩
    have hmid : (mid.map g)[first' + n]? = some (g a) := by rw [List.getElem?_map, ha]; rfl
    obtain ⟨b, hb, hba⟩ := Option.map_eq_some_iff.mp (h.entry _ _ hmid)
    rw [← Nat.add_assoc] at hb
    exact ⟨a, b, (h'.iff _ a ha).mpr hlies, hac, hb, hba⟩
  refine ⟨fun n x hx => ?_, fun n b hb => ⟨fun hqb => ?_, fun hlies => ?_⟩⟩
  · rw [List.getElem?_map] at hx
    obtain ⟨c, hc, rfl⟩ := Option.map_eq_some_iff.mp hx
    obtain ⟨a, b, hpa, hac, hb, hba⟩ := hthrough n c hc
    rw [hb]
    exact congrArg some (hview a b c hpa hba hac)
  · obtain ⟨hle, hlt⟩ := (h.iff n b hb).mp (hq b hqb)
    obtain ⟨k, rfl⟩ := Nat.exists_eq_add_of_le hle
    rw [List.length_map] at hlt
    have ha := List.getElem?_eq_getElem (Nat.lt_of_add_lt_add_left hlt)
    have hmid : (mid.map g)[k]? = some (g mid[k]) := by rw [List.getElem?_map, ha]; rfl
    have hba := h.entry _ _ hmid
    rw [hb] at hba
    obtain ⟨hle', hlt'⟩ := (h'.iff k _ ha).mp ((hp _ _ (Option.some.inj hba)).mp hqb)
    rw [List.length_map]
    exact ⟨by omega, by omega⟩
  · rw [List.length_map] at hlies
    obtain ⟨k, rfl⟩ := Nat.exists_eq_add_of_le hlies.1
    have hc := List.getElem?_eq_getElem (Nat.lt_of_add_lt_add_left hlies.2)
    obtain ⟨a, b', hpa, -, hb', hba⟩ := hthrough k _ hc
    obtain rfl := Option.some.inj (hb.symm.trans hb')
    exact (hp a b hba).mpr hpa

end Occupies

/-- A flat circuit stands in another one, with its top scope at home there: its parts, nets
and scopes are together, and nothing else is in its scopes. -/
structure Excerpt (view : Part → Part) (base : Offset) (home : Scope) (small big : Netlist) :
    Prop where
  parts : Occupies view (fun part => Lies base.scopes small.scopes.length part.scope) base.parts
    (small.parts.map base.part) big.parts
  nets : Occupies id (fun net => Lies base.scopes small.scopes.length net.scope) base.nets
    (small.nets.map base.net) big.nets
  scopes : Occupies id (fun scope => ∃ parent, scope.parent = some parent ∧
    Lies base.scopes small.scopes.length parent) (base.scopes + 1)
    (small.scopes.tail.map base.scope) big.scopes
  home : big.scopes[base.scopes]? = some home

/-- The part, without the net of its external pin if it is at the top of the schematic under
the id of a boundary port. -/
def Schematic.detached (schematic : Schematic) (scope : Nat) (part : Part) : Part :=
  if part.scope = scope ∧ schematic.Shows part.id then part.released else part

/-- The schematics that are laid out in the course of flattening one, each with where it
comes to stand and the scope that it is laid out in. -/
inductive Expansion (library : Library) (schematic : Schematic) :
    Schematic → Offset → Scope → Prop where
  | top : Expansion library schematic schematic {} ⟨none, ""⟩
  | inside {outer inside : Schematic} {base : Offset} {home : Scope} {component : Component}
      {before after : List Component} : Expansion library schematic outer base home →
      outer.components = before ++ component :: after →
      library.inside? component = some inside →
      Expansion library schematic inside (base + library.taken before)
        ⟨some base.scopes, component.id⟩

/-! ## One level -/

theorem placed_append (library : Library) (before after : List Component) (component : Component) :
    library.placed (before ++ component :: after) =
      after.foldl (place library (layout library library.entries.length) 0)
        (place library (layout library library.entries.length) 0 (library.placed before)
          component) := by
  rw [Library.placed, List.foldl_append, List.foldl_cons, Library.placed]

theorem scopes_taken (hacyclic : library.Acyclic) (components : List Component) :
    0 < (library.taken components).scopes := by
  rw [← extent_placed hacyclic]
  exact (roomy_placed hacyclic components).scope

theorem Netlist.Housed.parent_lt (h : netlist.Housed) {inner : Scope} {parent : Nat}
    (hmem : inner ∈ netlist.scopes) (hparent : inner.parent = some parent) :
    parent < netlist.scopes.length := by
  obtain ⟨index, hindex⟩ := List.mem_iff_getElem?.mp hmem
  obtain ⟨_, name⟩ := inner
  obtain rfl : _ = some parent := hparent
  exact Nat.lt_trans (h.nested hindex) (List.getElem?_eq_some_iff.mp hindex).1

/-- Right behind what was there, an expansion stands just as it was laid out. -/
theorem excerpt_enter (hacyclic : library.Acyclic)
    (hinside : library.inside? component = some inside) (components : List Component) :
    Excerpt id (library.taken components) ⟨some 0, component.id⟩ (flatten library inside)
      (enter (layout library library.entries.length) 0 (library.placed components).1 component
        (some inside)).1 := by
  have htop := scopes_taken hacyclic components
  have hhost := (roomy_placed hacyclic components).housed
  have hinner := (Guarded.flatten_eq hacyclic inside).2
  have h := behind_enter hacyclic hinside 0 (library.placed components).1
  rw [extent_placed hacyclic] at h
  have hlength : (library.placed components).1.scopes.length = (library.taken components).scopes :=
    congrArg Offset.scopes (extent_placed hacyclic components)
  have hscopes : ((library.placed components).1.addScope 0 component.id).scopes =
      (library.placed components).1.scopes ++ [⟨some 0, component.id⟩] := rfl
  have hout : ∀ {index : Nat}, index < (library.placed components).1.scopes.length →
      ¬ Lies (library.taken components).scopes (flatten library inside).scopes.length index :=
    fun hlt hlies => Nat.not_le_of_lt (hlength ▸ hlt) hlies.1
  have hin : ∀ {index : Nat}, index < (flatten library inside).scopes.length →
      Lies (library.taken components).scopes (flatten library inside).scopes.length
        ((library.taken components).scopes + index) :=
    fun hlt => ⟨Nat.le_add_right .., Nat.add_lt_add_left hlt _⟩
  refine ⟨?_, ?_, ?_, ?_⟩
  · rw [h.parts, ← h.length_parts]
    refine .of_append (fun part hmem => hout (hhost.part part hmem)) fun part hmem => ?_
    obtain ⟨inner, hmem', rfl⟩ := List.mem_map.mp hmem
    exact hin (hinner.part inner hmem')
  · rw [h.nets, ← h.length_nets]
    refine .of_append (fun net hmem => hout (hhost.net net hmem)) fun net hmem => ?_
    obtain ⟨inner, hmem', rfl⟩ := List.mem_map.mp hmem
    exact hin (hinner.net inner hmem')
  · rw [h.scopes, ← h.length_scopes]
    refine .of_append ?_ fun scope hmem => ?_
    · rintro scope hmem ⟨parent, hparent, hlies⟩
      refine hout ?_ hlies
      rw [hscopes] at hmem
      rcases List.mem_append.mp hmem with hmem | hmem
      · exact hhost.parent_lt hmem hparent
      · rw [List.mem_singleton.mp hmem] at hparent
        exact Option.some.inj hparent ▸ hlength ▸ htop
    · obtain ⟨inner, hmem', rfl⟩ := List.mem_map.mp hmem
      obtain ⟨parent, hparent⟩ := (rooted_flatten library inside).parent inner hmem'
      exact ⟨_, congrArg (Option.map _) hparent,
        hin (hinner.parent_lt (List.mem_of_mem_tail hmem') hparent)⟩
  · rw [h.scopes, hscopes, List.append_assoc, ← hlength,
      List.getElem?_append_right (Nat.le_refl _), Nat.sub_self]
    rfl

/-- There is room for the scopes of an excerpt. -/
theorem Excerpt.room {view : Part → Part} (h : Excerpt view base home small big) :
    base.scopes + small.scopes.length ≤ big.scopes.length := by
  have htop := (List.getElem?_eq_some_iff.mp h.home).1
  rcases Nat.lt_or_ge 1 small.scopes.length with hlt | hle
  · have hlast : small.scopes.length - 2 < (small.scopes.tail.map base.scope).length := by
      rw [List.length_map, List.length_tail]
      omega
    obtain ⟨_, hbig, -⟩ := Option.map_eq_some_iff.mp
      (h.scopes.entry _ _ (List.getElem?_eq_getElem hlast))
    have := (List.getElem?_eq_some_iff.mp hbig).1
    omega
  · omega

/-- What is laid out later, in a scope around it, leaves an excerpt alone. -/
theorem Excerpt.appends {view : Part → Part} {next : Netlist × Placements}
    (h : Excerpt view base home small mid) (hnext : Appends scope (mid, placements) next)
    (hscope : scope < base.scopes) : Excerpt view base home small next.1 := by
  have hroom := h.room
  have hout : ∀ {index : Nat}, index = scope ∨ mid.scopes.length ≤ index →
      ¬ Lies base.scopes small.scopes.length index := by
    rintro index hcases ⟨hle, hlt⟩
    omega
  obtain ⟨parts, hparts, hpart⟩ := hnext.parts
  obtain ⟨nets, hnets, hnet⟩ := hnext.nets
  obtain ⟨scopes, hscopes, hparent⟩ := hnext.scopes
  refine ⟨?_, ?_, ?_, ?_⟩
  · rw [hparts]
    exact h.parts.append fun part hmem => hout (hpart part hmem)
  · rw [hnets]
    exact h.nets.append fun net hmem => hout (.inr (hnet net hmem))
  · rw [hscopes]
    refine h.scopes.append ?_
    rintro inner hmem ⟨parent, hsome, hlies⟩
    obtain ⟨parent', hsome', hplace⟩ := hparent inner hmem
    obtain rfl := Option.some.inj (hsome.symm.trans hsome')
    exact hout hplace hlies
  · rw [hscopes]
    exact getElem?_of_prefix (List.prefix_append ..) h.home

/-- Before wires are bound, an expansion stands in the netlist just as it was laid out. -/
theorem excerpt_placed (hacyclic : library.Acyclic)
    (hinside : library.inside? component = some inside) (before after : List Component) :
    Excerpt id (library.taken before) ⟨some 0, component.id⟩ (flatten library inside)
      (library.placed (before ++ component :: after)).1 := by
  have hlater := (appends_own library (layout library library.entries.length) 0
    (library.placed before).1 (library.placed before).2 component).trans
      (appends_places hacyclic after _)
  rw [hinside] at hlater
  rw [placed_append]
  exact (excerpt_enter hacyclic hinside before).appends hlater (scopes_taken hacyclic before)

theorem Schematic.detached_of_released {part other : Part}
    (h : other.released = part.released) (hscope : part.scope = scope)
    (hshows : schematic.Shows part.id) :
    schematic.detached scope other = schematic.detached scope part := by
  have hscope' : other.scope = part.scope :=
    show other.released.scope = part.released.scope from congrArg Part.scope h
  have hid : other.id = part.id :=
    show other.released.id = part.released.id from congrArg Part.id h
  rw [detached, detached, if_pos ⟨hscope'.trans hscope, hid.symm ▸ hshows⟩,
    if_pos ⟨hscope, hshows⟩, h]

/-- What is behind a placed component and in an expansion is at the top of it, under the id
of a boundary port. -/
theorem shown_placed (hacyclic : library.Acyclic)
    (hinside : library.inside? component = some inside) {id : String} {placed : Placed}
    (hlookup : (library.placed (before ++ component :: after)).2.lookup id = some placed)
    {inner : String × Nat} (hinner : inner ∈ placed.boundary)
    (hlies : Lies (library.taken before).parts (flatten library inside).parts.length inner.2) :
    ∃ part, (library.placed (before ++ component :: after)).1.parts[inner.2]? = some part ∧
      part.scope = (library.taken before).scopes ∧ inside.Shows part.id := by
  have hlength : (library.placed before).1.parts.length = (library.taken before).parts :=
    congrArg Offset.parts (extent_placed hacyclic before)
  have hexcerpt := excerpt_placed hacyclic hinside before after
  rw [placed_append] at hlookup
  rcases (appends_places hacyclic after _).placements id placed hlookup with hlookup | hlater
  · rcases shown_place hacyclic hlookup with hlookup | hshown
    · have hlt := ((roomy_placed hacyclic before).placed id placed hlookup).2 inner hinner
      have := hlies.1
      omega
    · obtain ⟨_, n, part, hinside', hplace, hpart, hscope, hshows⟩ := hshown inner hinner
      obtain rfl := Option.some.inj (hinside.symm.trans hinside')
      have hentry := hexcerpt.parts.entry n _ (by rw [List.getElem?_map, hpart]; rfl)
      rw [Option.map_id] at hentry
      rw [hplace, hlength]
      exact ⟨_, hentry, congrArg (_ + ·) hscope, hshows⟩
  · have hextent := congrArg Offset.parts
      (extent_place hacyclic 0 (library.placed before) component)
    rw [extent_placed hacyclic, Library.extent, hinside] at hextent
    have hsize : (place library (layout library library.entries.length) 0 (library.placed before)
        component).1.parts.length = (library.taken before).parts +
          ((flatten library inside).parts.length + _) := hextent
    have hle := hlater inner hinner
    have hlt := hlies.2
    omega

/-- Binding the wires around an expansion reaches no part of it but boundary ports, and of
these only the external pins. -/
theorem detached_bindWires (hacyclic : library.Acyclic)
    (hinside : library.inside? component = some inside) (wires : List Wire) {n : Nat}
    (hlies : Lies (library.taken before).parts (flatten library inside).parts.length n) :
    let state := library.placed (before ++ component :: after)
    (state.1.bindWires wires 0 state.2).parts[n]?.map
        (inside.detached (library.taken before).scopes) =
      state.1.parts[n]?.map (inside.detached (library.taken before).scopes) := by
  intro state
  have hfringe := fringed_bindWires state.1 wires 0 state.2
  have hplaced : ∀ id placed, state.2.lookup id = some placed → placed.part ≠ n := by
    rintro id placed hlookup rfl
    obtain ⟨part, hpart, hscope⟩ := part_of_lookup hlookup
    have hle := (((excerpt_placed hacyclic hinside before after).parts.iff _ part hpart).mpr
      (by rwa [List.length_map])).1
    have := scopes_taken hacyclic before
    omega
  by_cases hshown : ∃ id placed, state.2.lookup id = some placed ∧
      ∃ inner ∈ placed.boundary, inner.2 = n
  · obtain ⟨id, placed, hlookup, inner, hinner, rfl⟩ := hshown
    obtain ⟨part, hpart, hscope, hshows⟩ := shown_placed hacyclic hinside hlookup hinner hlies
    have hreleased := hfringe.released _ hplaced
    rw [hpart] at hreleased ⊢
    obtain ⟨other, hother, heq⟩ := Option.map_eq_some_iff.mp hreleased
    rw [hother]
    exact congrArg some (Schematic.detached_of_released heq hscope hshows)
  · refine congrArg (Option.map _) (hfringe.untouched n fun id placed hlookup => ?_)
    exact ⟨hplaced id placed hlookup, fun inner hinner heq =>
      hshown ⟨id, placed, hlookup, inner, hinner, heq⟩⟩

/-- What a component of a schematic expands to is an excerpt of the flat circuit. -/
theorem excerpt_inside (hacyclic : library.Acyclic)
    (hcomponents : outer.components = before ++ component :: after)
    (hinside : library.inside? component = some inside) :
    Excerpt (inside.detached (library.taken before).scopes) (library.taken before)
      ⟨some 0, component.id⟩ (flatten library inside) (flatten library outer) := by
  have h := excerpt_placed hacyclic hinside before after
  have hfringe := fringed_bindWires (library.placed outer.components).1 outer.wires 0
    (library.placed outer.components).2
  rw [← hcomponents] at h
  obtain ⟨more, hnets, hmore⟩ := hfringe.nets
  suffices hbound : Excerpt (inside.detached (library.taken before).scopes) (library.taken before)
      ⟨some 0, component.id⟩ (flatten library inside)
      ((library.placed outer.components).1.bindWires outer.wires 0
        (library.placed outer.components).2) from { hbound with }
  refine ⟨h.parts.change (fun n hlies => ?_) fun n part hpart => ?_, ?_, ?_, ?_⟩
  · rw [List.length_map] at hlies
    rw [hcomponents]
    exact detached_bindWires hacyclic hinside outer.wires hlies
  · have houtline := congrArg (·[n]?) hfringe.outline
    simp only [outline_getElem?, hpart, Option.map_some] at houtline
    obtain ⟨other, hother, hunbound⟩ := Option.map_eq_some_iff.mp houtline.symm
    have hscope : part.scope = other.scope :=
      show part.unbound.scope = other.unbound.scope from congrArg Part.scope hunbound.symm
    exact ⟨other, hother, by rw [hscope]⟩
  · rw [hnets]
    refine h.nets.append fun net hmem hlies => ?_
    exact Nat.not_le_of_lt (scopes_taken hacyclic before) (hmore net hmem ▸ hlies.1)
  · rw [hfringe.scopes]
    exact h.scopes
  · rw [hfringe.scopes]
    exact h.home

/-! ## All levels -/

theorem Offset.part_add (base more : Offset) (part : Part) :
    (base + more).part part = base.part (more.part part) := by
  have hport : (base + more).port = base.port ∘ more.port := by
    funext port
    refine congrArg (Port.mk port.toPortDecl) ((congrArg (port.net.map ·) ?_).trans
      (Option.map_map ..).symm)
    exact funext fun _ => Nat.add_assoc ..
  rw [Offset.part, Offset.part, Offset.part, List.map_map, ← hport]
  exact congrArg (fun scope => { part with scope, ports := part.ports.map (base + more).port })
    (Nat.add_assoc ..)

theorem Offset.ref_add (base more : Offset) : (base + more).ref = base.ref ∘ more.ref :=
  funext fun ref => congrArg (PortRef.mk · ref.port) (Nat.add_assoc ..)

theorem Offset.net_add (base more : Offset) (net : Net) :
    (base + more).net net = base.net (more.net net) := by
  rw [Offset.net, Offset.net, Offset.net, List.map_map, List.map_map, ← Offset.ref_add]
  exact congrArg (fun scope => { net with
    scope
    sources := net.sources.map (base + more).ref
    targets := net.targets.map (base + more).ref }) (Nat.add_assoc ..)

theorem Offset.scope_add (base more : Offset) (scope : Scope) :
    (base + more).scope scope = base.scope (more.scope scope) := by
  rw [Offset.scope, Offset.scope, Offset.scope, Option.map_map]
  exact congrArg (fun shift => { scope with parent := scope.parent.map shift })
    (funext fun _ => Nat.add_assoc ..)

theorem Offset.released_part (base : Offset) (part : Part) :
    (base.part part).released = base.part part.released := by
  rw [Part.released, Offset.part, Offset.part, Part.released, List.map_map, List.map_map]
  refine congrArg (fun shift => { part with
    scope := base.scopes + part.scope
    ports := part.ports.map shift }) (funext fun port => ?_)
  have hid : (base.port port).id = port.id := rfl
  simp only [Function.comp_apply, Port.released, hid]
  split <;> rfl

theorem Schematic.scope_detached (schematic : Schematic) (scope : Nat) (part : Part) :
    (schematic.detached scope part).scope = part.scope := by
  rw [detached]
  split <;> rfl

theorem Schematic.eq_of_detached {part other : Part} (hne : part.scope ≠ scope)
    (h : schematic.detached scope other = schematic.detached scope part) : other = part := by
  have hscope := congrArg Part.scope h
  rw [scope_detached, scope_detached] at hscope
  rwa [detached, if_neg fun htop => hne (hscope ▸ htop.1), detached,
    if_neg fun htop => hne htop.1] at h

theorem Schematic.detached_part (schematic : Schematic) (base : Offset) (scope : Nat)
    (part : Part) :
    schematic.detached (base.scopes + scope) (base.part part) =
      base.part (schematic.detached scope part) := by
  rw [detached, detached]
  by_cases htop : part.scope = scope ∧ schematic.Shows part.id
  · rw [if_pos htop, if_pos ⟨congrArg (base.scopes + ·) htop.1, htop.2⟩, base.released_part]
  · rw [if_neg htop, if_neg fun h => htop ⟨Nat.add_left_cancel h.1, h.2⟩]

/-- An excerpt of an excerpt. -/
theorem Excerpt.trans {more : Offset} {name : String}
    (h : Excerpt (outer.detached base.scopes) base home mid big)
    (h' : Excerpt (inside.detached more.scopes) more ⟨some 0, name⟩ small mid)
    (htop : 0 < more.scopes) : Excerpt (inside.detached (base + more).scopes) (base + more)
      ⟨some base.scopes, name⟩ small big := by
  have hroom := h'.room
  have hwithin : ∀ {index : Nat}, Lies (base + more).scopes small.scopes.length index →
      Lies base.scopes mid.scopes.length index := by
    rintro index ⟨hle, hlt⟩
    have hadd : (base + more).scopes = base.scopes + more.scopes := rfl
    exact ⟨by omega, by omega⟩
  have hshift : ∀ {index : Nat},
      Lies (base + more).scopes small.scopes.length (base.scopes + index) ↔
        Lies more.scopes small.scopes.length index := by
    intro index
    have hadd : (base + more).scopes = base.scopes + more.scopes := rfl
    unfold Lies
    omega
  -- parts below the top of the outer schematic are seen as they are
  have hseen : ∀ {part other : Part}, Lies more.scopes small.scopes.length part.scope →
      outer.detached base.scopes other = outer.detached base.scopes (base.part part) →
      other = base.part part := by
    intro part other hlies heq
    refine Schematic.eq_of_detached (fun hscope => ?_) heq
    have hscope : base.scopes + part.scope = base.scopes := hscope
    have := hlies.1
    omega
  refine ⟨?_, ?_, ?_, ?_⟩
  · rw [show (base + more).part = base.part ∘ more.part from funext (base.part_add more),
      ← List.map_map]
    refine h.parts.trans h'.parts (fun _ => hwithin) (fun part other heq => ?_)
      fun part other inner hlies heq heq' => ?_
    · have hscope : other.scope = base.scopes + part.scope := by
        rw [← outer.scope_detached base.scopes other, heq, outer.scope_detached]
        rfl
      rw [hscope]
      exact hshift
    · rw [hseen hlies heq]
      exact (inside.detached_part ..).trans
        ((congrArg base.part heq').trans (inside.detached_part ..).symm)
  · rw [show (base + more).net = base.net ∘ more.net from funext (base.net_add more),
      ← List.map_map]
    refine h.nets.trans h'.nets (fun _ => hwithin) (fun net other heq => ?_)
      fun net other inner _ heq heq' => heq.trans (congrArg base.net heq')
    obtain rfl : other = base.net net := heq
    exact hshift
  · rw [show (base + more).scope = base.scope ∘ more.scope from funext (base.scope_add more),
      ← List.map_map, show (base + more).scopes + 1 = base.scopes + 1 + more.scopes from
        Nat.add_right_comm ..]
    refine h.scopes.trans h'.scopes.tail (fun scope => ?_) (fun scope other heq => ?_)
      fun scope other inner _ heq heq' => heq.trans (congrArg base.scope heq')
    · exact fun hparent => hparent.imp fun _ => And.imp_right hwithin
    · obtain rfl : other = base.scope scope := heq
      constructor
      · rintro ⟨parent, hparent, hlies⟩
        obtain ⟨inner, hinner, rfl⟩ := Option.map_eq_some_iff.mp hparent
        exact ⟨inner, hinner, hshift.mp hlies⟩
      · rintro ⟨parent, hparent, hlies⟩
        exact ⟨_, congrArg (Option.map _) hparent, hshift.mpr hlies⟩
  · obtain ⟨last, hlast⟩ := Nat.exists_eq_add_of_lt htop
    have hhome : (mid.scopes.tail.map base.scope)[last]? = some (base.scope ⟨some 0, name⟩) := by
      rw [List.getElem?_map, List.getElem?_tail, show last + 1 = more.scopes by omega, h'.home]
      rfl
    have hbig := h.scopes.entry last _ hhome
    rw [Option.map_id, Nat.add_right_comm, Nat.add_assoc,
      show last + 1 = more.scopes by omega] at hbig
    exact hbig

theorem Offset.part_zero : Offset.part {} = id := by
  funext part
  have hport : Offset.port {} = id := funext fun port => by simp [Offset.port]
  simp [Offset.part, hport]

theorem Offset.net_zero : Offset.net {} = id := by
  funext net
  have href : Offset.ref {} = id := funext fun ref => by simp [Offset.ref]
  simp [Offset.net, href]

theorem Offset.scope_zero : Offset.scope {} = id := by
  funext scope
  simp [Offset.scope]

/-- All of a circuit is an excerpt of it. -/
theorem excerpt_self (view : Part → Part) (h : netlist.Housed) (hrooted : netlist.Rooted) :
    Excerpt view {} ⟨none, ""⟩ netlist netlist := by
  obtain ⟨rest, hscopes, hparent⟩ := hrooted
  have hlies : ∀ {count index : Nat}, index < count → Lies 0 count index := fun hlt =>
    ⟨Nat.zero_le _, Nat.lt_add_left 0 hlt⟩
  refine ⟨?_, ?_, ?_, by rw [hscopes]; rfl⟩
  · rw [Offset.part_zero, List.map_id]
    exact .whole fun part hmem => hlies (h.part part hmem)
  · rw [Offset.net_zero, List.map_id]
    exact .whole fun net hmem => hlies (h.net net hmem)
  · rw [Offset.scope_zero, List.map_id]
    have hrest : ∀ scope ∈ rest, ∃ parent, scope.parent = some parent ∧
        Lies 0 netlist.scopes.length parent := by
      intro scope hmem
      obtain ⟨parent, heq⟩ := hparent scope hmem
      exact ⟨parent, heq, hlies (h.parent_lt (hscopes ▸ List.mem_cons_of_mem _ hmem) heq)⟩
    have htop : ∀ scope ∈ [(⟨none, ""⟩ : Scope)], ¬ ∃ parent, scope.parent = some parent ∧
        Lies 0 netlist.scopes.length parent := by
      rintro scope hmem ⟨_, hsome, -⟩
      rw [List.mem_singleton.mp hmem] at hsome
      cases hsome
    have hscope : Occupies id _ 1 rest (_ ++ rest) := .of_append htop hrest
    rw [hscopes] at hscope ⊢
    exact hscope

/-- Wherever a schematic is expanded, the flat circuit has what the schematic flattens to as
an excerpt. -/
theorem flatten_excerpts (hacyclic : library.Acyclic)
    (h : Expansion library schematic inside base home) :
    Excerpt (inside.detached base.scopes) base home (flatten library inside)
      (flatten library schematic) := by
  induction h with
  | top =>
    exact excerpt_self _ (Guarded.flatten_eq hacyclic schematic).2
      (rooted_flatten library schematic)
  | inside _ hcomponents hinside ih =>
    exact ih.trans (excerpt_inside hacyclic hcomponents hinside) (scopes_taken hacyclic _)

/-- A schematic with two incrementers in a row. -/
def twice : Schematic where
  components :=
    [Demo.component .boundary "i" (.obj [("dir", .str "in"), ("width", .int 8)]),
      ⟨"first", "demo/inc", .obj []⟩,
      ⟨"second", "demo/inc", .obj []⟩,
      Demo.component .boundary "o" (.obj [("dir", .str "out"), ("width", .int 8)])]
  wires :=
    [.ofTexts "wi" ["i.a", "first.i"],
      .ofTexts "wm" ["first.o", "second.i"],
      .ofTexts "wo" ["second.o", "o.a"]]

def addingTwo : Schematic where
  components :=
    [Demo.component .input "x" (Demo.wideValue 8 41), ⟨"t", "twice", .obj []⟩]
  wires := [.ofTexts "w" ["x.out", "t.i"]]

theorem flatten_excerpts_twice :
    let library := Demo.library.addSchematic "twice" twice
    library.Acyclic ∧
      Expansion library addingTwo Demo.incrementer ⟨7, 3, 3⟩ ⟨some 1, "second"⟩ ∧
      Excerpt (Demo.incrementer.detached 3) ⟨7, 3, 3⟩ ⟨some 1, "second"⟩
        (flatten library Demo.incrementer) (flatten library addingTwo) := by
  intro library
  have hacyclic : library.Acyclic := Library.acyclic_of_rank
    (fun id => if id = "twice" then 2 else if id = "demo/inc" then 1 else 0) (by decide +kernel)
  have htwice : Expansion library addingTwo twice
      ({} + library.taken (addingTwo.components.take 1))
      ⟨some 0, Component.id ⟨"t", "twice", .obj []⟩⟩ :=
    .inside .top rfl rfl
  rw [show {} + library.taken _ = (⟨1, 0, 1⟩ : Offset) by decide +kernel] at htwice
  have hsecond : Expansion library addingTwo Demo.incrementer
      (⟨1, 0, 1⟩ + library.taken (twice.components.take 2))
      ⟨some 1, Component.id ⟨"second", "demo/inc", .obj []⟩⟩ :=
    htwice.inside rfl rfl
  rw [show ⟨1, 0, 1⟩ + library.taken _ = (⟨7, 3, 3⟩ : Offset) by decide +kernel] at hsecond
  exact ⟨hacyclic, hsecond, flatten_excerpts hacyclic hsecond⟩

/-- A definition with a port that is named like the external pin of a boundary port. -/
def pinned : Definition where
  id := "pinned"
  behaviour := .scripted { ports := [⟨Boundary.externalPin, { input := true }, 8⟩] }

/-- A boundary port, and another component with its id. -/
def namesakes : Schematic where
  components :=
    [Demo.component .boundary "x" (.obj [("dir", .str "in"), ("width", .int 8)]),
      ⟨"x", "pinned", .null⟩]
  wires := []

def aroundNamesakes : Schematic where
  components := [Demo.component .constant "k" (Demo.wideValue 8 1), ⟨"c", "namesakes", .null⟩]
  wires := [.ofTexts "w" ["k.out", "c.x"]]

/-- A part that is no boundary port can be wired from outside. -/
theorem flatten_reaches_namesake :
    let library := (Library.builtin.add pinned).addSchematic "namesakes" namesakes
    let seen (part : Part) := (part.id, part.definition, part.ports.map (·.net))
    (flatten library namesakes).parts.map seen =
        [("x", Boundary.definition, [none, none]), ("x", "pinned", [none])] ∧
      (((flatten library aroundNamesakes).parts.drop 1).take 2).map seen =
        [("x", Boundary.definition, [none, none]), ("x", "pinned", [some 0])] := by
  decide +kernel

end Breadboard
