import Breadboard.Proofs.Clean

/-!
# Drawing a circuit in another order

A circuit is drawn again with its components, its wires and the ends of its
wires in some other order (`Schematic.Rearranged`). Ends name the same ports
then, and the same wires are connected: the groups of wires of both drawings
correspond one to one (`Reorders.exists_groups`) and have the same ends
(`Reorders.Matches.groupEnd_iff`). So the other drawing is as sensible as the
first one (`Schematic.Rearranged.sensible`).
-/

namespace Breadboard

/-- The same wire, with its ends in some order. -/
structure Wire.Rearranged (wire other : Wire) : Prop where
  id : wire.id = other.id
  endpoints : wire.endpoints.Perm other.endpoints

/-- The same circuit, with its components, its wires and the ends of its wires in
some order. -/
structure Schematic.Rearranged (schematic other : Schematic) : Prop where
  components : schematic.components.Perm other.components
  wires : ∃ wires, schematic.wires.Perm wires ∧ List.Forall₂ Wire.Rearranged wires other.wires

/-- Where the wires of the second list stand in the first. -/
structure Reorders (wires others : List Wire) (place : Nat → Nat) : Prop where
  wire : ∀ {b : Nat} {other : Wire}, others[b]? = some other →
    ∃ wire, wires[place b]? = some wire ∧ wire.Rearranged other
  inj : ∀ {a b : Nat}, a < others.length → b < others.length → place a = place b → a = b
  onto : ∀ {a : Nat}, a < wires.length → ∃ b < others.length, place b = a

/-- A list in another order is read off the first one at positions in that order. -/
theorem exists_positions {α : Type} {first second : List α} (h : first.Perm second) :
    ∃ positions : List Nat, positions.Perm (List.range first.length) ∧
      second.map some = positions.map (first[·]?) := by
  have hread : first.map some = (List.range first.length).map (first[·]?) := by
    refine List.ext_getElem? fun index => ?_
    by_cases hlt : index < first.length
    · simp [hlt]
    · simp [hlt]
  have hperm : (second.map some).Perm ((List.range first.length).map (first[·]?)) :=
    hread ▸ (h.map some).symm
  have hcomp := congrFun (congrFun (List.eq_map_comp_perm (first[·]?)) (second.map some))
    (List.range first.length)
  obtain ⟨positions, hmap, hpositions⟩ := hcomp.mpr hperm
  exact ⟨positions, hpositions, hmap⟩

theorem Schematic.Rearranged.exists_reorders {schematic other : Schematic}
    (h : schematic.Rearranged other) :
    ∃ place, Reorders schematic.wires other.wires place := by
  obtain ⟨wires, hperm, hforall⟩ := h.wires
  obtain ⟨positions, hpositions, hmap⟩ := exists_positions hperm
  have hlength : positions.length = other.wires.length := by
    simpa [hforall.length_eq] using (congrArg List.length hmap).symm
  have hread : ∀ {b : Nat} (hb : b < positions.length), wires[b]? = schematic.wires[positions[b]]? := by
    intro b hb
    have hat := congrArg (·[b]?) hmap
    simp only [List.getElem?_map, List.getElem?_eq_getElem hb, Option.map_some] at hat
    cases hwire : wires[b]? with
    | none => simp [hwire] at hat
    | some wire => simpa [hwire] using hat
  refine ⟨fun b => positions.getD b 0, fun {b wire'} hwire' => ?_, fun {a b} ha hb heq => ?_,
    fun {a} ha => ?_⟩
  · have hb : b < positions.length := hlength ▸ (List.getElem?_eq_some_iff.mp hwire').1
    obtain ⟨hlt, rfl⟩ := List.getElem?_eq_some_iff.mp hwire'
    have hlt' : b < wires.length := hforall.length_eq ▸ hlt
    refine ⟨wires[b], ?_, ?_⟩
    · rw [List.getD_eq_getElem?_getD, List.getElem?_eq_getElem hb, Option.getD_some, ← hread hb,
        List.getElem?_eq_getElem hlt']
    · exact hforall.get hlt' hlt
  · have ha : a < positions.length := hlength ▸ ha
    have hb : b < positions.length := hlength ▸ hb
    simp only [List.getD_eq_getElem?_getD, List.getElem?_eq_getElem ha, List.getElem?_eq_getElem hb,
      Option.getD_some] at heq
    exact (List.Nodup.getElem_inj_iff (hpositions.nodup_iff.mpr List.nodup_range)).mp heq
  · have hmem : a ∈ positions := hpositions.mem_iff.mpr (List.mem_range.mpr ha)
    obtain ⟨b, hb, rfl⟩ := List.getElem_of_mem hmem
    exact ⟨b, hlength ▸ hb, by simp [hb]⟩

namespace Reorders

variable {wires others : List Wire} {place : Nat → Nat} {a b c : Nat} {group group' : List Nat}
  {endpoint : Endpoint}

section

variable (h : Reorders wires others place)

include h

theorem touching_iff (ha : a < others.length) (hb : b < others.length) :
    place b ∈ (touching wires).getD (place a) [] ↔ b ∈ (touching others).getD a [] := by
  obtain ⟨near, hnear, hnear'⟩ := h.wire (List.getElem?_eq_getElem ha)
  obtain ⟨far, hfar, hfar'⟩ := h.wire (List.getElem?_eq_getElem hb)
  rw [mem_touching, mem_touching]
  simp only [hnear, hfar, List.getElem?_eq_getElem ha, List.getElem?_eq_getElem hb, Option.some.injEq,
    exists_and_left, exists_eq_left', Wire.touches_iff, hnear'.endpoints.mem_iff,
    hfar'.endpoints.mem_iff]

theorem linked (ha : a < others.length) (hlinked : Linked others a b) :
    Linked wires (place a) (place b) := by
  induction hlinked with
  | refl => exact .refl _
  | @head a next b hnext _ ih =>
    obtain ⟨_, far, -, hfar, -⟩ := mem_touching.mp hnext
    have hlt := (List.getElem?_eq_some_iff.mp hfar).1
    exact .head ((h.touching_iff ha hlt).mpr hnext) (ih hlt)

theorem linked_back (hlinked : Linked wires a c) : ∀ {b : Nat}, b < others.length → place b = a →
    ∃ d < others.length, place d = c ∧ Linked others b d := by
  induction hlinked with
  | refl => exact fun {b} hb hplace => ⟨b, hb, hplace, .refl b⟩
  | @head a next c hnext _ ih =>
    intro b hb hplace
    obtain ⟨_, far, -, hfar, -⟩ := mem_touching.mp hnext
    obtain ⟨d, hd, rfl⟩ := h.onto (List.getElem?_eq_some_iff.mp hfar).1
    subst hplace
    obtain ⟨last, hlast, heq, hlinked⟩ := ih hd rfl
    exact ⟨last, hlast, heq, .head ((h.touching_iff hb hd).mp hnext) hlinked⟩

end

/-- A group of one list is a group of the other. -/
structure Matches (place : Nat → Nat) (group' group : List Nat) : Prop where
  mem : ∀ b ∈ group', place b ∈ group
  back : ∀ a ∈ group, ∃ b ∈ group', place b = a

theorem Matches.groupEnd_iff (h : Reorders wires others place) (hgroup : group' ∈ wireGroups others)
    (hmatches : Matches place group' group) :
    Netlist.GroupEnd others group' endpoint ↔ Netlist.GroupEnd wires group endpoint := by
  constructor
  · rintro ⟨b, hb, other, hother, hend⟩
    obtain ⟨wire, hwire, hsame⟩ := h.wire hother
    exact ⟨place b, hmatches.mem b hb, wire, hwire, hsame.endpoints.mem_iff.mpr hend⟩
  · rintro ⟨_, ha, wire, hwire, hend⟩
    obtain ⟨b, hb, rfl⟩ := hmatches.back _ ha
    have hlt := lt_of_mem_wireGroups hgroup hb
    obtain ⟨wire', hwire', hsame⟩ := h.wire (List.getElem?_eq_getElem hlt)
    obtain rfl := Option.some.inj (hwire.symm.trans hwire')
    exact ⟨b, hb, others[b], List.getElem?_eq_getElem hlt, hsame.endpoints.mem_iff.mp hend⟩

theorem exists_matches (h : Reorders wires others place) (hgroup : group' ∈ wireGroups others) :
    ∃ group ∈ wireGroups wires, Matches place group' group := by
  obtain ⟨first, hfirst, hmem⟩ := mem_wireGroups hgroup
  obtain ⟨wire, hwire, -⟩ := h.wire (List.getElem?_eq_getElem hfirst)
  obtain ⟨group, hgroup', hplaced⟩ := exists_group (List.getElem?_eq_some_iff.mp hwire).1
  have hlinked : ∀ a, a ∈ group ↔ Linked wires (place first) a := fun a => by
    refine ⟨linked_of_group hgroup' hplaced, fun hlinked => ?_⟩
    obtain ⟨start, -, hstart⟩ := mem_wireGroups hgroup'
    exact (hstart a).mpr (((hstart _).mp hplaced).trans hlinked)
  refine ⟨group, hgroup', fun b hb => ?_, fun a ha => ?_⟩
  · exact (hlinked _).mpr (h.linked hfirst ((hmem b).mp hb))
  · obtain ⟨b, -, heq, hback⟩ := h.linked_back ((hlinked a).mp ha) hfirst rfl
    exact ⟨b, (hmem b).mpr hback, heq⟩

/-- The groups of both lists correspond one to one. -/
theorem exists_groups (h : Reorders wires others place) : ∃ net : Nat → Nat,
    (∀ {k : Nat} {group' : List Nat}, (wireGroups others)[k]? = some group' →
      ∃ group, (wireGroups wires)[net k]? = some group ∧ Matches place group' group) ∧
    (∀ k < (wireGroups others).length, ∀ l < (wireGroups others).length, net k = net l → k = l) ∧
    ∀ l < (wireGroups wires).length, ∃ k < (wireGroups others).length, net k = l := by
  have hexists : ∀ k : Nat, ∃ l : Nat, ∀ group', (wireGroups others)[k]? = some group' →
      ∃ group, (wireGroups wires)[l]? = some group ∧ Matches place group' group := by
    intro k
    cases hk : (wireGroups others)[k]? with
    | none => exact ⟨0, fun _ h => by cases h⟩
    | some group' =>
      obtain ⟨group, hgroup, hmatches⟩ := h.exists_matches (List.mem_of_getElem? hk)
      obtain ⟨l, hl⟩ := List.getElem?_of_mem hgroup
      exact ⟨l, fun _ heq => Option.some.inj heq ▸ ⟨group, hl, hmatches⟩⟩
  choose net hnet using hexists
  refine ⟨net, fun hk => hnet _ _ hk, fun k hk l hl heq => ?_, fun l hl => ?_⟩
  · obtain ⟨group, hgroup, hmatches⟩ := hnet k _ (List.getElem?_eq_getElem hk)
    obtain ⟨other, hother, hmatches'⟩ := hnet l _ (List.getElem?_eq_getElem hl)
    rw [heq] at hgroup
    obtain rfl := Option.some.inj (hgroup.symm.trans hother)
    obtain ⟨first, hfirst, hmem⟩ := mem_wireGroups (List.getElem_mem hk)
    have hown := (hmem first).mpr (.refl first)
    obtain ⟨b, hb, hplace⟩ := hmatches'.back _ (hmatches.mem first hown)
    obtain rfl := h.inj (lt_of_mem_wireGroups (List.getElem_mem hl) hb) hfirst hplace
    exact group_eq_of_linked (List.getElem?_eq_getElem hk) (List.getElem?_eq_getElem hl) hown hb
      (.refl _)
  · obtain ⟨first, hfirst, hmem⟩ := mem_wireGroups (List.getElem_mem hl)
    obtain ⟨b, hb, rfl⟩ := h.onto hfirst
    obtain ⟨group', hgroup', hmem'⟩ := exists_group hb
    obtain ⟨k, hk⟩ := List.getElem?_of_mem hgroup'
    obtain ⟨group, hgroup, hmatches⟩ := hnet k _ hk
    exact ⟨k, (List.getElem?_eq_some_iff.mp hk).1, group_eq_of_linked hgroup
      (List.getElem?_eq_getElem hl) (hmatches.mem b hmem') ((hmem _).mpr (.refl _)) (.refl _)⟩

end Reorders

/-! ## Sensible drawings -/

namespace Schematic.Rearranged

variable {library : Library} {schematic other : Schematic} (h : schematic.Rearranged other)

include h

theorem nodup (hnodup : (schematic.components.map (·.id)).Nodup) :
    (other.components.map (·.id)).Nodup :=
  (h.components.map _).nodup_iff.mp hnodup

theorem find?_eq (hnodup : (schematic.components.map (·.id)).Nodup) (id : String) :
    other.find? id = schematic.find? id := by
  cases hother : other.find? id with
  | none =>
    refine (List.find?_eq_none.mpr fun component hmem => ?_).symm
    exact List.find?_eq_none.mp hother component (h.components.mem_iff.mp hmem)
  | some component =>
    obtain rfl : component.id = id := by simpa using List.find?_some hother
    exact (find?_eq_of_mem hnodup
      (h.components.mem_iff.mpr (List.mem_of_find?_eq_some hother))).symm

/-- The other drawing is as sensible. -/
theorem sensible (hsensible : schematic.Sensible library) : other.Sensible library := by
  obtain ⟨place, hreorders⟩ := h.exists_reorders
  refine ⟨h.nodup hsensible.nodup, fun component hmem => ?_, fun component hmem => ?_,
    fun group' hgroup' => ?_⟩
  · exact hsensible.builds component (h.components.mem_iff.mpr hmem)
  · exact hsensible.exposed component (h.components.mem_iff.mpr hmem)
  · obtain ⟨group, hgroup, hmatches⟩ := hreorders.exists_matches hgroup'
    obtain ⟨width, hends⟩ := hsensible.ends group hgroup
    refine ⟨width, fun endpoint hend => ?_⟩
    obtain ⟨decl, hdecl, hwidth⟩ :=
      hends endpoint ((hmatches.groupEnd_iff hreorders hgroup').mp hend)
    refine ⟨decl, ?_, hwidth⟩
    rwa [Schematic.decl?, h.find?_eq hsensible.nodup]

end Schematic.Rearranged

end Breadboard
