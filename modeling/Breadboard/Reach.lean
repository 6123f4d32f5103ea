/-!
# Reachability

A finite graph on the numbers below some bound is given by the successors of
each number. `reach` lists what can be reached from a start, itself
included, by widening a frontier until nothing new is found. `mem_reach_iff`
identifies it with the relation `Reaches`: a round that finds something new
adds to a list without repetitions, and there are as many rounds as numbers.
-/

namespace Breadboard

/-- A chain of successors leads from one number to another. -/
inductive Reaches (succ : Nat → List Nat) : Nat → Nat → Prop where
  | refl (a : Nat) : Reaches succ a a
  | head {a b c : Nat} : b ∈ succ a → Reaches succ b c → Reaches succ a c

/-- Widen `seen` by the successors of its newest members, `frontier`, for at
most `rounds` rounds. -/
def spread (succ : Nat → List Nat) : (rounds : Nat) → (seen frontier : List Nat) → List Nat
  | 0, seen, _ => seen
  | rounds + 1, seen, frontier =>
    match (frontier.flatMap succ).eraseDups.filter (· ∉ seen) with
    | [] => seen
    | found => spread succ rounds (found ++ seen) found

/-- What can be reached from `start` in a graph on the numbers below `size`. -/
def reach (succ : Nat → List Nat) (size start : Nat) : List Nat :=
  spread succ size [start] [start]

namespace Reaches

variable {succ : Nat → List Nat} {a b c : Nat}

theorem trans (hab : Reaches succ a b) (hbc : Reaches succ b c) : Reaches succ a c := by
  induction hab with
  | refl => exact hbc
  | head hmem _ ih => exact .head hmem (ih hbc)

theorem tail (hab : Reaches succ a b) (hmem : c ∈ succ b) : Reaches succ a c :=
  hab.trans (.head hmem (.refl c))

/-- A set of numbers that contains a start and all successors of its members
contains everything that can be reached. -/
theorem mem_of_closed {set : List Nat} (hab : Reaches succ a b) (ha : a ∈ set)
    (hclosed : ∀ x ∈ set, ∀ y ∈ succ x, y ∈ set) : b ∈ set := by
  induction hab with
  | refl => exact ha
  | head hmem _ ih => exact ih (hclosed _ ha _ hmem)

end Reaches

theorem nodup_eraseDups (list : List Nat) : list.eraseDups.Nodup := by
  induction h : list.length using Nat.strongRecOn generalizing list with
  | ind n ih =>
    cases list with
    | nil => simp
    | cons x rest =>
      rw [List.eraseDups_cons]
      refine List.nodup_cons.mpr ⟨?_, ?_⟩
      · simp [List.mem_eraseDups]
      · refine ih _ ?_ _ rfl
        have := List.length_filter_le (fun y => !y == x) rest
        simp only [List.length_cons] at h
        omega

/-! ## Rounds -/

/-- What a round finds: the successors of the frontier that were not seen. -/
theorem mem_found {succ : Nat → List Nat} {seen frontier : List Nat} {x : Nat} :
    x ∈ (frontier.flatMap succ).eraseDups.filter (· ∉ seen) ↔
      (∃ a ∈ frontier, x ∈ succ a) ∧ x ∉ seen := by
  simp [List.mem_filter, List.mem_eraseDups, List.mem_flatMap]

theorem reaches_of_mem_spread {succ : Nat → List Nat} {start x : Nat} :
    ∀ (rounds : Nat) (seen frontier : List Nat),
      (∀ a ∈ seen, Reaches succ start a) → (∀ a ∈ frontier, Reaches succ start a) →
      x ∈ spread succ rounds seen frontier → Reaches succ start x := by
  intro rounds
  induction rounds with
  | zero => intro seen _ hseen _ hx; exact hseen x hx
  | succ rounds ih =>
    intro seen frontier hseen hfrontier hx
    unfold spread at hx
    split at hx
    · exact hseen x hx
    · next found _ =>
      have hfound : ∀ b ∈ (frontier.flatMap succ).eraseDups.filter (· ∉ seen),
          Reaches succ start b := by
        intro b hb
        obtain ⟨⟨a, ha, hba⟩, _⟩ := mem_found.mp hb
        exact (hfrontier a ha).tail hba
      refine ih _ _ ?_ hfound hx
      intro b hb
      rcases List.mem_append.mp hb with hb | hb
      · exact hfound b hb
      · exact hseen b hb

/-- With enough rounds left, the result keeps what was seen and is closed under
successors. -/
theorem closed_spread {succ : Nat → List Nat} {size : Nat}
    (hsucc : ∀ a b, b ∈ succ a → b < size) :
    ∀ (rounds : Nat) (seen frontier : List Nat),
      seen.Nodup → (∀ a ∈ seen, a < size) →
      (∀ a ∈ seen, a ∉ frontier → ∀ b ∈ succ a, b ∈ seen) →
      size < seen.length + rounds →
      (∀ a ∈ seen, a ∈ spread succ rounds seen frontier) ∧
        ∀ a ∈ spread succ rounds seen frontier, ∀ b ∈ succ a,
          b ∈ spread succ rounds seen frontier := by
  intro rounds
  induction rounds with
  | zero =>
    intro seen _ hnodup hlt _ hlen
    have hsub : seen ⊆ List.range size := fun a ha => List.mem_range.mpr (hlt a ha)
    have := hnodup.length_le_of_subset hsub
    simp only [List.length_range, Nat.add_zero] at this hlen
    omega
  | succ rounds ih =>
    intro seen frontier hnodup hlt hclosed hlen
    unfold spread
    split
    · next hnone =>
      refine ⟨fun a ha => ha, fun a ha b hb => ?_⟩
      by_cases hfr : a ∈ frontier
      · by_cases hbs : b ∈ seen
        · exact hbs
        · have : b ∈ (frontier.flatMap succ).eraseDups.filter (· ∉ seen) :=
            mem_found.mpr ⟨⟨a, hfr, hb⟩, hbs⟩
          rw [hnone] at this
          cases this
      · exact hclosed a ha hfr b hb
    · next hsome =>
      generalize hfound : (frontier.flatMap succ).eraseDups.filter (· ∉ seen) = found at hsome
      have hmem : ∀ x, x ∈ found ↔ (∃ a ∈ frontier, x ∈ succ a) ∧ x ∉ seen := by
        intro x
        rw [← hfound, mem_found]
      have hpos : 0 < found.length := by
        cases found with
        | nil => exact absurd rfl hsome
        | cons => simp
      have hnodup' : (found ++ seen).Nodup := by
        refine List.nodup_append.mpr ⟨?_, hnodup, ?_⟩
        · rw [← hfound]
          exact (nodup_eraseDups _).sublist List.filter_sublist
        · intro a ha b hb hab
          exact ((hmem a).mp ha).2 (hab ▸ hb)
      have hlt' : ∀ a ∈ found ++ seen, a < size := by
        intro a ha
        rcases List.mem_append.mp ha with ha | ha
        · obtain ⟨⟨c, _, hc⟩, _⟩ := (hmem a).mp ha
          exact hsucc c a hc
        · exact hlt a ha
      have hclosed' : ∀ a ∈ found ++ seen, a ∉ found → ∀ b ∈ succ a, b ∈ found ++ seen := by
        intro a ha hnot b hb
        have ha : a ∈ seen := (List.mem_append.mp ha).resolve_left hnot
        by_cases hbs : b ∈ seen
        · exact List.mem_append.mpr (.inr hbs)
        · by_cases hfr : a ∈ frontier
          · exact List.mem_append.mpr (.inl ((hmem b).mpr ⟨⟨a, hfr, hb⟩, hbs⟩))
          · exact absurd (hclosed a ha hfr b hb) hbs
      have hlen' : size < (found ++ seen).length + rounds := by
        simp only [List.length_append]
        omega
      obtain ⟨hkeep, hdone⟩ := ih _ found hnodup' hlt' hclosed' hlen'
      exact ⟨fun a ha => hkeep a (List.mem_append.mpr (.inr ha)), hdone⟩

theorem nodup_spread {succ : Nat → List Nat} :
    ∀ (rounds : Nat) (seen frontier : List Nat), seen.Nodup →
      (spread succ rounds seen frontier).Nodup := by
  intro rounds
  induction rounds with
  | zero => intro seen _ hnodup; exact hnodup
  | succ rounds ih =>
    intro seen frontier hnodup
    unfold spread
    split
    · exact hnodup
    · refine ih _ _ (List.nodup_append.mpr ⟨?_, hnodup, ?_⟩)
      · exact (nodup_eraseDups _).sublist List.filter_sublist
      · intro a ha b hb hab
        exact (mem_found.mp ha).2 (hab ▸ hb)

/-! ## The result -/

theorem nodup_reach (succ : Nat → List Nat) (size start : Nat) : (reach succ size start).Nodup :=
  nodup_spread size [start] [start] (by simp)

theorem reaches_of_mem_reach {succ : Nat → List Nat} {size start x : Nat}
    (hx : x ∈ reach succ size start) : Reaches succ start x := by
  refine reaches_of_mem_spread size [start] [start] ?_ ?_ hx <;>
  · intro a ha
    rw [List.mem_singleton.mp ha]
    exact .refl start

/-- `reach` finds exactly what a chain of successors leads to. -/
theorem mem_reach_iff {succ : Nat → List Nat} {size start x : Nat} (hstart : start < size)
    (hsucc : ∀ a b, b ∈ succ a → b < size) :
    x ∈ reach succ size start ↔ Reaches succ start x := by
  refine ⟨reaches_of_mem_reach, fun h => ?_⟩
  obtain ⟨hkeep, hclosed⟩ := closed_spread hsucc size [start] [start] (by simp)
    (by simpa using hstart) (by simp) (by simp)
  exact h.mem_of_closed (hkeep start (by simp)) hclosed

end Breadboard
