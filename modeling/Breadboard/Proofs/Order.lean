import Mathlib.Data.List.Flatten
import Mathlib.Data.List.Nodup
import Mathlib.Data.List.Perm.Subperm

/-!
# One element before another

`Before list a b` says that `a` stands before `b` in a list. It is stated by
sublists and not by positions, so that filtering, mapping and flattening keep
it. In a list without repetitions it is an order: `Before.mem_left` cuts the
list at an element and puts all that stands before it on the left, which is
how "nothing later touches it" is argued along a run.

Two counting facts about lists of numbers below a bound stand at the end.
-/

namespace Breadboard

variable {α β : Type} {a b : α} {list : List α}

def Before (list : List α) (a b : α) : Prop :=
  [a, b].Sublist list

instance [DecidableEq α] : Decidable (Before list a b) :=
  inferInstanceAs (Decidable ([a, b].Sublist list))

theorem before_iff : Before list a b ↔ ∃ left right, list = left ++ a :: right ∧ b ∈ right := by
  constructor
  · intro h
    obtain ⟨left, right, rfl, ha, hb⟩ := List.cons_sublist_iff.mp h
    obtain ⟨outer, inner, rfl⟩ := List.append_of_mem ha
    refine ⟨outer, inner ++ right, by simp, ?_⟩
    exact List.mem_append_right _ (List.singleton_sublist.mp hb)
  · rintro ⟨left, right, rfl, hb⟩
    exact ((List.singleton_sublist.mpr hb).cons_cons a).trans
      (List.sublist_append_right left (a :: right))

/-! ## In a list without repetitions -/

namespace Before

theorem mem_first (h : Before list a b) : a ∈ list :=
  h.subset (by simp)

theorem mem_second (h : Before list a b) : b ∈ list :=
  h.subset (by simp)

theorem mem_left {left right : List α} (hnodup : (left ++ b :: right).Nodup)
    (h : Before (left ++ b :: right) a b) : a ∈ left := by
  obtain ⟨outer, inner, heq, hb⟩ := before_iff.mp h
  have hnodup' := heq ▸ hnodup
  have houter : b ∉ outer := fun hmem =>
    (List.nodup_append.mp hnodup').2.2 b hmem b (List.mem_cons_of_mem _ hb) rfl
  have hself : b ∉ right := (List.nodup_cons.mp (List.nodup_append.mp hnodup).2.1).1
  rcases List.append_eq_append_iff.mp heq with ⟨middle, rfl, hmiddle⟩ | ⟨middle, rfl, hmiddle⟩
  · cases middle with
    | nil =>
      obtain ⟨rfl, rfl⟩ := List.cons.inj hmiddle
      exact absurd hb hself
    | cons c middle =>
      obtain ⟨rfl, -⟩ := List.cons.inj hmiddle
      exact absurd (List.mem_append_right _ (List.mem_cons_self ..)) houter
  · cases middle with
    | nil =>
      obtain ⟨rfl, rfl⟩ := List.cons.inj hmiddle
      exact absurd hb hself
    | cons c middle =>
      obtain ⟨rfl, -⟩ := List.cons.inj hmiddle
      exact List.mem_append_right _ (List.mem_cons_self ..)

theorem of_mem_left {left right : List α} (ha : a ∈ left) :
    Before (left ++ b :: right) a b := by
  obtain ⟨outer, inner, rfl⟩ := List.append_of_mem ha
  exact before_iff.mpr ⟨outer, inner ++ b :: right, by simp, by simp⟩

theorem of_append {left right : List α} (ha : a ∈ left) (hb : b ∈ right) :
    Before (left ++ right) a b := by
  obtain ⟨outer, inner, rfl⟩ := List.append_of_mem hb
  rw [← List.append_assoc]
  exact of_mem_left (List.mem_append_left _ ha)

theorem asymm (hnodup : list.Nodup) (h : Before list a b) : ¬ Before list b a := by
  intro h'
  obtain ⟨left, right, rfl, hb⟩ := before_iff.mp h
  exact (List.nodup_append.mp hnodup).2.2 b (h'.mem_left hnodup) b
    (List.mem_cons_of_mem _ hb) rfl

theorem ne (hnodup : list.Nodup) (h : Before list a b) : a ≠ b := by
  rintro rfl
  exact h.asymm hnodup h

theorem total (ha : a ∈ list) (hb : b ∈ list) (hne : a ≠ b) :
    Before list a b ∨ Before list b a := by
  obtain ⟨left, right, rfl⟩ := List.append_of_mem hb
  rcases List.mem_append.mp ha with ha | ha
  · exact Or.inl (of_mem_left ha)
  · rcases List.mem_cons.mp ha with rfl | ha
    · exact absurd rfl hne
    · exact Or.inr (before_iff.mpr ⟨left, right, rfl, ha⟩)

theorem of_idxOf_lt [BEq α] [LawfulBEq α] (hb : b ∈ list)
    (h : list.idxOf a < list.idxOf b) : Before list a b := by
  induction list with
  | nil => cases hb
  | cons c rest ih =>
    by_cases hcb : c = b
    · subst hcb
      simp at h
    have hrest : b ∈ rest := (List.mem_cons.mp hb).resolve_left (Ne.symm hcb)
    by_cases hca : c = a
    · subst hca
      exact (List.singleton_sublist.mpr hrest).cons_cons c
    · rw [List.idxOf_cons_ne _ hca, List.idxOf_cons_ne _ hcb] at h
      exact (ih hrest (Nat.lt_of_succ_lt_succ h)).cons c

theorem trans {c : α} (hnodup : list.Nodup) (hab : Before list a b) (hbc : Before list b c) :
    Before list a c := by
  obtain ⟨left, right, rfl, hc⟩ := before_iff.mp hbc
  obtain ⟨outer, inner, rfl⟩ := List.append_of_mem (hab.mem_left hnodup)
  exact before_iff.mpr ⟨outer, inner ++ b :: right, by simp, by simp [hc]⟩

theorem idxOf_lt [BEq α] [LawfulBEq α] (hnodup : list.Nodup) (h : Before list a b) :
    list.idxOf a < list.idxOf b := by
  rcases Nat.lt_or_ge (list.idxOf a) (list.idxOf b) with hlt | hge
  · exact hlt
  rcases Nat.lt_or_eq_of_le hge with hlt | heq
  · exact absurd h ((of_idxOf_lt h.mem_first hlt).asymm hnodup)
  · exact absurd ((List.idxOf_inj h.mem_second).mp heq).symm (h.ne hnodup)

/-! ## Under maps -/

theorem trans_sublist {longer : List α} (h : Before list a b) (hsub : list.Sublist longer) :
    Before longer a b :=
  List.Sublist.trans h hsub

theorem of_map {f : β → α} {source : List β} (h : Before (source.map f) a b) :
    ∃ x y, Before source x y ∧ f x = a ∧ f y = b := by
  obtain ⟨pair, hpair, heq⟩ := List.sublist_map_iff.mp h
  match pair, heq with
  | [x, y], heq =>
    simp only [List.map_cons, List.map_nil, List.cons.injEq, and_true] at heq
    exact ⟨x, y, hpair, heq.1.symm, heq.2.symm⟩

theorem map {source : List β} {x y : β} (f : β → α) (h : Before source x y) :
    Before (source.map f) (f x) (f y) :=
  List.Sublist.map f h

/-- What one element yields stands before what a later one yields. -/
theorem flatMap {f : β → List α} {source : List β} {x y : β} (h : Before source x y)
    (ha : a ∈ f x) (hb : b ∈ f y) : Before (source.flatMap f) a b := by
  have hpair : [a, b].Sublist ([x, y].flatMap f) := by
    simp only [List.flatMap_cons, List.flatMap_nil, List.append_nil]
    exact (List.singleton_sublist.mpr ha).append (List.singleton_sublist.mpr hb)
  exact hpair.trans (List.Sublist.flatMap h f)

theorem flatMap_of_mem {f : β → List α} {source : List β} {x : β} (hx : x ∈ source)
    (h : Before (f x) a b) : Before (source.flatMap f) a b := by
  have hone : ([x].flatMap f).Sublist (source.flatMap f) :=
    List.Sublist.flatMap (List.singleton_sublist.mpr hx) f
  simp only [List.flatMap_cons, List.flatMap_nil, List.append_nil] at hone
  exact h.trans_sublist hone

end Before

/-! ## The numbers below a bound -/

theorem map_range_getD (list : List α) (default : α) :
    (List.range list.length).map (list.getD · default) = list := by
  refine List.ext_getElem (by simp) fun index hleft hright => ?_
  simp [hright]

theorem exists_lt_not_mem {numbers : List Nat} {size : Nat} (h : numbers.length < size) :
    ∃ number, number < size ∧ number ∉ numbers := by
  by_contra hnone
  push Not at hnone
  have hsub : List.range size ⊆ numbers :=
    fun number hnumber => hnone number (List.mem_range.mp hnumber)
  have := List.nodup_range.length_le_of_subset hsub
  rw [List.length_range] at this
  omega

theorem perm_range {numbers : List Nat} {size : Nat} (hnodup : numbers.Nodup)
    (hbound : ∀ number ∈ numbers, number < size) (hlength : numbers.length = size) :
    numbers.Perm (List.range size) := by
  have hsub : numbers ⊆ List.range size :=
    fun number hnumber => List.mem_range.mpr (hbound number hnumber)
  exact (hnodup.subperm hsub).perm_of_length_le (by simp [hlength])

end Breadboard
