import Breadboard.Proofs.Groups
import Mathlib.Data.List.Pairwise
import Mathlib.Data.List.Sort
import Mathlib.Logic.Relation

/-!
# The groups of wires are the connections

Wires are connected by chains of wires that share ports. The connections divide the wires
up, and there is only one way to list them with each one ascending and all in the order of
their first wires (`Connections.eq`). Merging the wires gives that list
(`connections_iff_eq_wireGroups`).
-/

namespace Breadboard

variable {wires : List Wire} {groups others : List (List Nat)} {a b first : Nat}

/-- Two wires share a port. -/
def Meets (wires : List Wire) (a b : Nat) : Prop :=
  ∃ near far endpoint, wires[a]? = some near ∧ wires[b]? = some far ∧
    endpoint ∈ near.endpoints ∧ endpoint ∈ far.endpoints

/-- The connections of some wires, by the positions of the wires. Every wire is in one of
them, and two wires are in the same one if a chain of wires links them. -/
structure Connections (wires : List Wire) (groups : List (List Nat)) : Prop where
  once : groups.flatten.Perm (List.range wires.length)
  nonempty : [] ∉ groups
  ascending : ∀ group ∈ groups, group.Pairwise (· < ·)
  ordered : groups.Pairwise fun group other => group.headD 0 < other.headD 0
  linked : ∀ a < wires.length, ∀ b < wires.length,
    (∃ group ∈ groups, a ∈ group ∧ b ∈ group) ↔ Relation.ReflTransGen (Meets wires) a b

namespace Connections

theorem exists_mem (h : Connections wires groups) (ha : a < wires.length) :
    ∃ group ∈ groups, a ∈ group :=
  List.mem_flatten.mp (h.once.mem_iff.mpr (List.mem_range.mpr ha))

theorem lt (h : Connections wires groups) {group : List Nat} (hgroup : group ∈ groups)
    (ha : a ∈ group) : a < wires.length :=
  List.mem_range.mp (h.once.mem_iff.mp (List.mem_flatten.mpr ⟨group, hgroup, ha⟩))

/-- No wire is in two groups. -/
theorem group_eq (h : Connections wires groups) {group other : List Nat} (hgroup : group ∈ groups)
    (hother : other ∈ groups) (ha : a ∈ group) (ha' : a ∈ other) : group = other := by
  by_contra hne
  have hdisjoint := (List.nodup_flatten.mp (h.once.nodup_iff.mpr List.nodup_range)).2
  have hsymm : Std.Symm (List.Disjoint : List Nat → List Nat → Prop) :=
    ⟨fun _ _ hapart _ hmem hmem' => hapart hmem' hmem⟩
  exact hdisjoint.forall hgroup hother hne ha ha'

theorem mem_iff (h : Connections wires groups) {group : List Nat} (hgroup : group ∈ groups)
    (ha : a ∈ group) : b ∈ group ↔ b < wires.length ∧ Relation.ReflTransGen (Meets wires) a b := by
  have hlt := h.lt hgroup ha
  constructor
  · intro hb
    exact ⟨h.lt hgroup hb, (h.linked a hlt b (h.lt hgroup hb)).mp ⟨group, hgroup, ha, hb⟩⟩
  · rintro ⟨hb, hlinked⟩
    obtain ⟨other, hother, ha', hb'⟩ := (h.linked a hlt b hb).mpr hlinked
    rwa [h.group_eq hgroup hother ha ha']

theorem subset (h : Connections wires groups) (h' : Connections wires others) :
    groups ⊆ others := by
  intro group hgroup
  obtain ⟨a, ha⟩ := List.exists_mem_of_ne_nil group fun heq => h.nonempty (heq ▸ hgroup)
  obtain ⟨other, hother, ha'⟩ := h'.exists_mem (h.lt hgroup ha)
  have hsame : group = other :=
    (h.ascending group hgroup).eq_of_mem_iff (h'.ascending other hother) fun b => by
      rw [h.mem_iff hgroup ha, h'.mem_iff hother ha']
  rwa [hsame]

/-- There is one way to list the connections. -/
theorem eq (h : Connections wires groups) (h' : Connections wires others) : groups = others := by
  have hirrefl : Std.Irrefl fun group other : List Nat => group.headD 0 < other.headD 0 :=
    ⟨fun _ => Nat.lt_irrefl _⟩
  have hantisymm : Std.Antisymm fun group other : List Nat => group.headD 0 < other.headD 0 :=
    ⟨fun _ _ hlt hlt' => absurd hlt (Nat.lt_asymm hlt')⟩
  exact h.ordered.eq_of_mem_iff h'.ordered fun group => ⟨fun hgroup => h.subset h' hgroup,
    fun hgroup => h'.subset h hgroup⟩

end Connections

theorem linked_iff : Linked wires a b ↔ Relation.ReflTransGen (Meets wires) a b := by
  have hstep : ∀ {a b}, b ∈ (touching wires).getD a [] ↔ Meets wires a b := by
    intro a b
    simp only [mem_touching, Wire.touches_iff, Meets, exists_and_left]
  constructor
  · intro h
    induction h with
    | refl => exact .refl
    | head hmem _ ih => exact .head (hstep.mp hmem) ih
  · intro h
    induction h using Relation.ReflTransGen.head_induction_on with
    | refl => exact .refl _
    | head hmeets _ ih => exact .head (hstep.mpr hmeets) ih

/-- The root of a group is its first wire. -/
theorem headD_below (hfirst : first < wires.length)
    (hroot : (mergeWires wires).root first = first) :
    ((mergeWires wires).below wires.length first).headD 0 = first := by
  have hmem := mem_below.mpr ⟨hfirst, hroot⟩
  have hascending := (List.pairwise_lt_range (n := wires.length)).filter
    fun wire => (mergeWires wires).root wire = first
  rw [← Forest.below] at hascending
  cases hgroup : (mergeWires wires).below wires.length first with
  | nil =>
    rw [hgroup] at hmem
    cases hmem
  | cons wire rest =>
    have hle : first ≤ wire := by
      have hwire := (mem_below.mp (hgroup ▸ List.mem_cons_self)).2
      exact hwire ▸ (mergeWires wires).root_le wire
    rw [hgroup] at hmem hascending
    rcases List.mem_cons.mp hmem with rfl | hlater
    · rfl
    · exact absurd (List.rel_of_pairwise_cons hascending hlater) (Nat.not_lt.mpr hle)

theorem connections_wireGroups (wires : List Wire) : Connections wires (wireGroups wires) where
  once := by
    refine (List.perm_ext_iff_of_nodup (List.nodup_flatten.mpr ⟨?_, ?_⟩) List.nodup_range).mpr ?_
    · intro group hgroup
      obtain ⟨first, -, -, rfl⟩ := mem_wireGroups_iff.mp hgroup
      exact List.nodup_range.filter _
    · refine (unlinked_wireGroups wires).imp fun h a ha ha' => ?_
      exact h a ha a ha' (.refl a)
    · intro a
      rw [List.mem_flatten, List.mem_range]
      constructor
      · rintro ⟨group, hgroup, ha⟩
        obtain ⟨first, -, -, rfl⟩ := mem_wireGroups_iff.mp hgroup
        exact (mem_below.mp ha).1
      · exact exists_group
  nonempty h := by
    obtain ⟨first, hfirst, hroot, hnil⟩ := mem_wireGroups_iff.mp h
    exact List.ne_nil_of_mem (mem_below.mpr ⟨hfirst, hroot⟩) hnil.symm
  ascending group hgroup := by
    obtain ⟨first, -, -, rfl⟩ := mem_wireGroups_iff.mp hgroup
    exact List.pairwise_lt_range.filter _
  ordered := by
    rw [wireGroups_eq]
    refine List.Pairwise.filterMap _ ?_ (List.Pairwise.and_mem.mp List.pairwise_lt_range)
    rintro first second ⟨hfirst, hsecond, hlt⟩ group hgroup other hother
    rw [List.mem_range] at hfirst hsecond
    obtain ⟨hne, heq⟩ := Option.ite_none_left_eq_some.mp hgroup
    obtain ⟨hne', heq'⟩ := Option.ite_none_left_eq_some.mp hother
    rw [← Option.some.inj heq, ← Option.some.inj heq', headD_below hfirst (root_of_below hne),
      headD_below hsecond (root_of_below hne')]
    exact hlt
  linked a ha b hb := by
    rw [← linked_iff]
    constructor
    · rintro ⟨group, hgroup, hfirst, hsecond⟩
      exact linked_of_group hgroup hfirst hsecond
    · intro hlinked
      obtain ⟨group, hgroup, hmem⟩ := exists_group ha
      obtain ⟨first, -, hfirst⟩ := mem_wireGroups hgroup
      exact ⟨group, hgroup, hmem, (hfirst b).mpr (((hfirst a).mp hmem).trans hlinked)⟩

/-- Merging the wires gives the connections. -/
theorem connections_iff_eq_wireGroups : Connections wires groups ↔ groups = wireGroups wires := by
  constructor
  · exact fun h => h.eq (connections_wireGroups wires)
  · rintro rfl
    exact connections_wireGroups wires

/-- The first and the last wire meet at a port of `b`. -/
example : wireGroups [⟨"w0", [⟨"a", "out"⟩, ⟨"b", "in"⟩]⟩, ⟨"w1", [⟨"c", "out"⟩, ⟨"d", "in"⟩]⟩,
    ⟨"w2", [⟨"b", "in"⟩, ⟨"e", "in"⟩]⟩] = [[0, 2], [1]] := by decide +kernel

/-! ## Coarser and finer groups -/

/-- There are as many groups as roots. -/
theorem length_wireGroups (wires : List Wire) : (wireGroups wires).length =
    ((List.range wires.length).filter fun wire => (mergeWires wires).root wire = wire).length := by
  rw [wireGroups_eq, List.length_filterMap_eq_countP, ← List.countP_eq_length_filter]
  refine List.countP_congr fun root hroot => ?_
  rw [List.mem_range] at hroot
  rw [decide_eq_true_iff]
  constructor
  · intro hsome
    refine root_of_below fun hnil => ?_
    simp [hnil] at hsome
  · intro hself
    rw [if_neg (List.ne_nil_of_mem (mem_below.mpr ⟨hroot, hself⟩))]
    rfl

/-- Wires that are linked more finely are linked alike if there are as many groups. -/
theorem wireGroups_eq_of_length {others : List Wire} (hlength : others.length = wires.length)
    (hfine : ∀ a b, Linked others a b → Linked wires a b)
    (hcount : (wireGroups others).length = (wireGroups wires).length) :
    wireGroups others = wireGroups wires := by
  -- a wire that is the first one of its group is so in the finer groups
  have hself : ∀ a, (mergeWires wires).root a = a → (mergeWires others).root a = a := by
    intro a ha
    have hlinked := root_mergeWires.mp ((mergeWires others).root_root a)
    have hroot := root_mergeWires.mpr (hfine _ _ hlinked)
    have hle := (mergeWires wires).root_le ((mergeWires others).root a)
    rw [hroot, ha] at hle
    exact Nat.le_antisymm ((mergeWires others).root_le a) hle
  rw [length_wireGroups, length_wireGroups, hlength] at hcount
  have hroots := (List.monotone_filter_right (List.range wires.length) fun a ha =>
    decide_eq_true (hself a (of_decide_eq_true ha))).eq_of_length hcount.symm
  have hagree : ∀ a < wires.length, (mergeWires others).root a = (mergeWires wires).root a := by
    intro a ha
    have hmem : (mergeWires others).root a ∈ (List.range wires.length).filter fun wire =>
        (mergeWires others).root wire = wire :=
      List.mem_filter.mpr
        ⟨List.mem_range.mpr (Nat.lt_of_le_of_lt ((mergeWires others).root_le a) ha),
        decide_eq_true ((mergeWires others).root_root a)⟩
    rw [← hroots] at hmem
    have hfirst := of_decide_eq_true (List.mem_filter.mp hmem).2
    have hlinked := root_mergeWires.mp ((mergeWires others).root_root a)
    rw [← hfirst, root_mergeWires.mpr (hfine _ _ hlinked)]
  rw [wireGroups_eq, wireGroups_eq, hlength]
  refine List.filterMap_congr fun root _ => ?_
  have hbelow : (mergeWires others).below wires.length root =
      (mergeWires wires).below wires.length root :=
    List.filter_congr fun a ha => by rw [hagree a (List.mem_range.mp ha)]
  rw [hbelow]

end Breadboard
