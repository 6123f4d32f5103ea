/-!
# Splitting text at a separator

`splitFirst` and `splitLast` cut a list of characters at the first or the
last occurrence of a separator; the separator itself is dropped. Both fail
exactly when the separator does not occur.
-/

namespace Breadboard

/-- What stands before and after the first `separator`. -/
def splitFirst (separator : Char) : List Char → Option (List Char × List Char)
  | [] => none
  | c :: rest =>
    if c = separator then some ([], rest)
    else (splitFirst separator rest).map fun (before, after) => (c :: before, after)

/-- What stands before and after the last `separator`. -/
def splitLast (separator : Char) : List Char → Option (List Char × List Char)
  | [] => none
  | c :: rest =>
    match splitLast separator rest with
    | some (before, after) => some (c :: before, after)
    | none => if c = separator then some ([], rest) else none

theorem splitLast_eq_none_iff {separator : Char} {text : List Char} :
    splitLast separator text = none ↔ separator ∉ text := by
  induction text with
  | nil => simp [splitLast]
  | cons c rest ih =>
    unfold splitLast
    split
    · next h => simp [← ih, h]
    · next h =>
      by_cases hc : c = separator
      · simp [hc]
      · simp [hc, Ne.symm hc, ih.mp h]

/-- The cut is the one whose second half is free of the separator. -/
theorem splitLast_eq_some_iff {separator : Char} {text before after : List Char} :
    splitLast separator text = some (before, after) ↔
      text = before ++ separator :: after ∧ separator ∉ after := by
  induction text generalizing before after with
  | nil => simp [splitLast]
  | cons c rest ih =>
    unfold splitLast
    split
    · next b a h =>
      have hrest := ih.mp h
      constructor
      · rintro ⟨⟩
        exact ⟨by rw [hrest.1]; rfl, hrest.2⟩
      · rintro ⟨hcons, hfree⟩
        cases before with
        | nil =>
          simp only [List.nil_append, List.cons.injEq] at hcons
          rw [← hcons.2, hrest.1] at hfree
          simp at hfree
        | cons b' before =>
          simp only [List.cons_append, List.cons.injEq] at hcons
          have := ih.mpr ⟨hcons.2, hfree⟩
          rw [h] at this
          simp only [Option.some.injEq, Prod.mk.injEq] at this
          simp [hcons.1, this]
    · next h =>
      have hfree := splitLast_eq_none_iff.mp h
      constructor
      · intro hif
        split at hif
        · next hc =>
          simp only [Option.some.injEq, Prod.mk.injEq] at hif
          obtain ⟨rfl, rfl⟩ := hif
          exact ⟨by simp [hc], hfree⟩
        · cases hif
      · rintro ⟨hcons, _⟩
        cases before with
        | nil =>
          simp only [List.nil_append, List.cons.injEq] at hcons
          simp [hcons.1, hcons.2]
        | cons b' before =>
          simp only [List.cons_append, List.cons.injEq] at hcons
          rw [hcons.2] at hfree
          simp at hfree

theorem splitFirst_eq_some {separator : Char} {text before after : List Char}
    (h : splitFirst separator text = some (before, after)) :
    text = before ++ separator :: after ∧ separator ∉ before := by
  induction text generalizing before with
  | nil => cases h
  | cons c rest ih =>
    unfold splitFirst at h
    split at h
    · next hc =>
      cases h
      exact ⟨by simp [hc], by simp⟩
    · next hc =>
      simp only [Option.map_eq_some_iff, Prod.mk.injEq, Prod.exists] at h
      obtain ⟨b, a, hsplit, rfl, rfl⟩ := h
      have := ih hsplit
      exact ⟨by rw [this.1]; rfl, by simp [this.2, Ne.symm hc]⟩

end Breadboard
