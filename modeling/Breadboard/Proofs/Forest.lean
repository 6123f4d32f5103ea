import Breadboard.Netlist.WireGroups

/-!
# Roots of a forest

`root` climbs from a wire to its root and leaves the forest alone. `find` gives the same
root, and the shortcuts that it takes change no root (`root_find`), because a wire and its
grandparent are below the same one. Merging two classes gives the wires of the later root
to the earlier one and keeps all other roots (`root_merge`).
-/

namespace Breadboard

namespace Forest

variable {forest : Forest} {wire other target : Nat}

/-- The root above a wire. -/
def root (forest : Forest) (wire : Nat) : Nat :=
  if h : forest.parent wire = wire then wire
  else
    have := parent_lt h
    forest.root (forest.parent wire)
termination_by wire

theorem root_eq_self (h : forest.parent wire = wire) : forest.root wire = wire := by
  rw [root, dif_pos h]

theorem root_parent (forest : Forest) (wire : Nat) :
    forest.root (forest.parent wire) = forest.root wire := by
  by_cases h : forest.parent wire = wire
  · rw [h]
  · rw [root.eq_1 forest wire, dif_neg h]

/-- Follow the parents of a wire to its root. -/
theorem root_induction {motive : Nat → Prop}
    (base : ∀ wire, forest.parent wire = wire → motive wire)
    (step : ∀ wire, forest.parent wire < wire → motive (forest.parent wire) → motive wire)
    (wire : Nat) : motive wire := by
  induction wire using Nat.strongRecOn with
  | ind wire ih =>
    by_cases h : forest.parent wire = wire
    · exact base wire h
    · exact step wire (parent_lt h) (ih _ (parent_lt h))

theorem parent_root (forest : Forest) (wire : Nat) :
    forest.parent (forest.root wire) = forest.root wire := by
  induction wire using forest.root_induction with
  | base wire h => rw [root_eq_self h, h]
  | step wire _ ih => rwa [root_parent] at ih

theorem root_le (forest : Forest) (wire : Nat) : forest.root wire ≤ wire := by
  induction wire using forest.root_induction with
  | base wire h => exact Nat.le_of_eq (root_eq_self h)
  | step wire hlt ih => exact Nat.le_of_lt (Nat.lt_of_le_of_lt (root_parent forest wire ▸ ih) hlt)

theorem root_root (forest : Forest) (wire : Nat) :
    forest.root (forest.root wire) = forest.root wire :=
  root_eq_self (forest.parent_root wire)

theorem root_apart (count wire : Nat) : (apart count).root wire = wire := by
  refine root_eq_self ?_
  rcases Nat.lt_or_ge wire count with hlt | hge
  · simp [parent, apart, List.getD_eq_getElem?_getD, List.getElem?_range hlt]
  · simp [parent, apart, List.getD_eq_getElem?_getD, hge]

/-! ## Pointing a wire elsewhere -/

theorem lt_of_parent_ne (h : forest.parent wire ≠ wire) : wire < forest.parents.length := by
  refine Nat.lt_of_not_le fun hge => h ?_
  rw [parent, List.getD_eq_getElem?_getD, List.getElem?_eq_none hge, Option.getD_none]

theorem parent_hang (hlt : wire < forest.parents.length) (hle : target ≤ wire) (other : Nat) :
    (forest.hang wire target hle).parent other =
      if other = wire then target else forest.parent other := by
  simp only [parent, hang, List.getD_eq_getElem?_getD, List.getElem?_set]
  split
  · next heq => simp [← heq]
  · next hne => rw [if_neg (Ne.symm hne)]

@[simp]
theorem length_hang (hle : target ≤ wire) :
    (forest.hang wire target hle).parents.length = forest.parents.length :=
  List.length_set

/-- A shortcut to a wire below the same root keeps all roots. -/
theorem root_shortcut (hlt : wire < forest.parents.length) (hbelow : target < wire)
    (hsame : forest.root target = forest.root wire) (other : Nat) :
    (forest.hang wire target (Nat.le_of_lt hbelow)).root other = forest.root other := by
  induction other using Nat.strongRecOn with
  | ind other ih =>
    have hparent := parent_hang hlt (Nat.le_of_lt hbelow) other
    rw [← root_parent (forest.hang wire target _) other, hparent]
    split
    · next heq =>
      subst heq
      rw [ih target hbelow, hsame]
    · next hne =>
      by_cases h : forest.parent other = other
      · rw [if_neg hne, h] at hparent
        rw [h, root_eq_self hparent, root_eq_self h]
      · rw [ih _ (parent_lt h), root_parent]

/-- A root that is pointed at an earlier root gives its class away to it. -/
theorem root_hang (hlt : wire < forest.parents.length) (hle : target ≤ wire)
    (hwire : forest.parent wire = wire) (htarget : forest.parent target = target) (other : Nat) :
    (forest.hang wire target hle).root other =
      if forest.root other = wire then target else forest.root other := by
  have hparent := parent_hang hlt hle
  have hhung : (forest.hang wire target hle).root target = target := by
    refine root_eq_self ?_
    rw [hparent, htarget, ite_self]
  induction other using forest.root_induction with
  | base other h =>
    rw [root_eq_self h]
    split
    · next heq =>
      rw [heq, ← root_parent, hparent, if_pos rfl, hhung]
    · next hne =>
      exact root_eq_self (by rw [hparent, if_neg hne, h])
  | step other hlt' ih =>
    have hne : other ≠ wire := by
      rintro rfl
      omega
    rwa [← root_parent (forest.hang wire target hle) other, hparent, if_neg hne,
      ← root_parent forest other]

/-! ## Looking up and merging -/

/-- Looking a root up keeps all roots. -/
theorem find_spec (forest : Forest) (wire : Nat) : (forest.find wire).2 = forest.root wire ∧
    (∀ other, (forest.find wire).1.root other = forest.root other) ∧
    (forest.find wire).1.parents.length = forest.parents.length := by
  fun_induction find forest wire with
  | case1 forest wire h => exact ⟨(root_eq_self h).symm, fun _ => rfl, rfl⟩
  | case2 forest wire h above hlt ih =>
    have habove : forest.root above = forest.root wire := by
      rw [root_parent, root_parent]
    have hkept := root_shortcut (lt_of_parent_ne h) hlt habove
    obtain ⟨hroot, hroots, hlength⟩ := ih
    refine ⟨?_, fun other => (hroots other).trans (hkept other), hlength.trans (length_hang _)⟩
    rw [hroot, hkept, habove]

theorem find_snd (forest : Forest) (wire : Nat) : (forest.find wire).2 = forest.root wire :=
  (forest.find_spec wire).1

theorem root_find (forest : Forest) (wire other : Nat) :
    (forest.find wire).1.root other = forest.root other :=
  (forest.find_spec wire).2.1 other

theorem length_find (forest : Forest) (wire : Nat) :
    (forest.find wire).1.parents.length = forest.parents.length :=
  (forest.find_spec wire).2.2

theorem roots_eq (forest : Forest) (list : List Nat) :
    forest.roots list = list.map forest.root := by
  induction list generalizing forest with
  | nil => rfl
  | cons wire rest ih =>
    have hkept : (forest.find wire).1.root = forest.root := funext (root_find forest wire)
    simp only [roots, find_snd, ih, hkept, List.map_cons]

theorem length_merge (forest : Forest) (wire other : Nat) :
    (forest.merge wire other).parents.length = forest.parents.length := by
  rw [merge, length_hang, length_find, length_find]

theorem root_merge (hwire : wire < forest.parents.length) (hother : other < forest.parents.length)
    (third : Nat) : (forest.merge wire other).root third =
      if forest.root third = max (forest.root wire) (forest.root other) then
        min (forest.root wire) (forest.root other)
      else forest.root third := by
  have hroots : ∀ third, ((forest.find wire).1.find other).1.root third = forest.root third :=
    fun third => by rw [root_find, root_find]
  have hself : ∀ {root}, root = forest.root wire ∨ root = forest.root other →
      ((forest.find wire).1.find other).1.parent root = root := by
    rintro root (rfl | rfl) <;>
    · rw [← hroots, parent_root]
  have hle := forest.root_le
  rw [merge, root_hang]
  · simp only [find_snd, root_find]
  · have := hle wire
    have := hle other
    simp only [find_snd, root_find, length_find]
    omega
  · simp only [find_snd, root_find]
    exact hself (by omega)
  · simp only [find_snd, root_find]
    exact hself (by omega)

/-- Merged wires have one root. -/
theorem root_merge_self (hwire : wire < forest.parents.length)
    (hother : other < forest.parents.length) :
    (forest.merge wire other).root wire = (forest.merge wire other).root other := by
  rw [root_merge hwire hother, root_merge hwire hother]
  split <;> split <;> omega

theorem root_merge_congr (hwire : wire < forest.parents.length)
    (hother : other < forest.parents.length) {first second : Nat}
    (h : forest.root first = forest.root second) :
    (forest.merge wire other).root first = (forest.merge wire other).root second := by
  rw [root_merge hwire hother, root_merge hwire hother, h]

end Forest

end Breadboard
