import Breadboard.Path
import Mathlib.Data.List.Chain

/-!
# Going up a path

`Path.join` puts a separator and a name behind a path, and `Path.parent` cuts at the last
separator. So the parent of a joined path is what it was joined from, whatever stands in
that (`parent_join`), and a path that has a parent is that parent joined with the name of
the path (`join_of_parent`). Neither asks for names that are not empty.

Each step up takes one separator away (`depth_of_parent`). That carries the induction from
a path to its parent (`upward`), along which the ancestors of a path are listed, and along
which the path is put together again out of the names left behind.
-/

namespace Breadboard

namespace Path

variable {path above : Path} {name : String}

/-! ## One step -/

theorem parent_eq_none_iff : path.parent = none ↔ separator ∉ path.text.toList := by
  rw [parent, Option.map_eq_none_iff, splitLast_eq_none_iff]

/-- What a path is cut into at its last separator. -/
theorem parent_eq_some_iff : path.parent = some above ↔
    path.text.toList = above.text.toList ++ separator :: path.name.toList ∧
      separator ∉ path.name.toList := by
  rw [parent, name]
  cases hcut : splitLast separator path.text.toList with
  | none =>
    refine ⟨nofun, fun htext => absurd ?_ (splitLast_eq_none_iff.mp hcut)⟩
    rw [htext.1]
    exact List.mem_append_right _ (List.mem_cons_self ..)
  | some cut =>
    obtain ⟨before, after⟩ := cut
    obtain ⟨htext, hfree⟩ := splitLast_eq_some_iff.mp hcut
    rw [Option.map_some, Option.some.injEq, String.toList_ofList]
    constructor
    · rintro rfl
      exact ⟨by rw [htext, String.toList_ofList], hfree⟩
    · rintro ⟨habove, -⟩
      have hsame := List.append_cancel_right (htext.symm.trans habove)
      rw [hsame]
      exact congrArg Path.mk String.ofList_toList

theorem parent_join (path : Path) (hfree : separator ∉ name.toList) :
    (path.join name).parent = some path := by
  rw [parent, splitLast_eq_some_iff.mpr ⟨toList_join path name, hfree⟩, Option.map_some]
  dsimp only
  rw [String.ofList_toList]

theorem name_join (path : Path) (hfree : separator ∉ name.toList) :
    (path.join name).name = name := by
  rw [Path.name, splitLast_eq_some_iff.mpr ⟨toList_join path name, hfree⟩]
  dsimp only
  rw [String.ofList_toList]

theorem depth_join (path : Path) (hfree : separator ∉ name.toList) :
    (path.join name).depth = path.depth + 1 := by
  rw [depth, toList_join, List.count_append, List.count_cons_self, List.count_eq_zero.mpr hfree,
    depth]

theorem join_of_parent (h : path.parent = some above) : above.join path.name = path := by
  obtain ⟨htext, -⟩ := parent_eq_some_iff.mp h
  exact congrArg Path.mk (String.ext ((toList_join above path.name).trans htext.symm))

theorem depth_of_parent (h : path.parent = some above) : path.depth = above.depth + 1 := by
  obtain ⟨-, hfree⟩ := parent_eq_some_iff.mp h
  rw [← depth_join above hfree, join_of_parent h]

theorem depth_eq_zero_iff : path.depth = 0 ↔ path.parent = none := by
  rw [depth, List.count_eq_zero, parent_eq_none_iff]

/-- What holds at the top, and of a path whenever it holds of its parent, holds of all. -/
theorem upward {motive : Path → Prop} (top : ∀ path, path.parent = none → motive path)
    (step : ∀ path above, path.parent = some above → motive above → motive path) (path : Path) :
    motive path := by
  induction hdepth : path.depth generalizing path with
  | zero => exact top path (depth_eq_zero_iff.mp hdepth)
  | succ steps ih =>
    cases hparent : path.parent with
    | none => exact top path hparent
    | some above =>
      have hless : above.depth = steps := by
        have := depth_of_parent hparent
        omega
      exact step path above hparent (ih above hless)

/-! ## The whole way -/

theorem ancestors_of_top (h : path.parent = none) : path.ancestors = [] := by
  rw [ancestors, depth_eq_zero_iff.mpr h, ancestors.climb]

theorem ancestors_of_parent (h : path.parent = some above) :
    path.ancestors = above :: above.ancestors := by
  rw [ancestors, depth_of_parent h, ancestors.climb, h]
  rfl

/-- Where the way up ends. -/
def summit (path : Path) : Path :=
  path.ancestors.getLastD path

/-- The names that are left behind on the way up, the innermost first. -/
def shed (path : Path) : List String :=
  (path :: path.ancestors).dropLast.map Path.name

theorem summit_of_top (h : path.parent = none) : path.summit = path := by
  rw [summit, ancestors_of_top h, List.getLastD_nil]

theorem summit_of_parent (h : path.parent = some above) : path.summit = above.summit := by
  rw [summit, ancestors_of_parent h, List.getLastD_cons, summit]

theorem shed_of_top (h : path.parent = none) : path.shed = [] := by
  rw [shed, ancestors_of_top h]
  rfl

theorem shed_of_parent (h : path.parent = some above) : path.shed = path.name :: above.shed := by
  rw [shed, ancestors_of_parent h, List.dropLast_cons_cons, List.map_cons, shed]

/-- Each path on the way up is the parent of the one before, and the last one has none. -/
theorem isChain_ancestors (path : Path) :
    (path :: path.ancestors).IsChain (fun below above => below.parent = some above) ∧
      path.summit.parent = none := by
  induction path using upward with
  | top path h =>
    rw [ancestors_of_top h, summit_of_top h]
    exact ⟨.singleton _, h⟩
  | step path above h ih =>
    rw [ancestors_of_parent h, summit_of_parent h]
    exact ⟨.cons_cons h ih.1, ih.2⟩

theorem length_ancestors (path : Path) : path.ancestors.length = path.depth := by
  induction path using upward with
  | top path h => rw [ancestors_of_top h, depth_eq_zero_iff.mpr h, List.length_nil]
  | step path above h ih => rw [ancestors_of_parent h, depth_of_parent h, List.length_cons, ih]

/-- Joining the names again, the outermost first, leads back down. -/
theorem foldr_join_shed (path : Path) :
    path.shed.foldr (fun name around => around.join name) path.summit = path := by
  induction path using upward with
  | top path h => rw [shed_of_top h, summit_of_top h, List.foldr_nil]
  | step path above h ih =>
    rw [shed_of_parent h, summit_of_parent h, List.foldr_cons, ih, join_of_parent h]

/-- Joining and going up undo each other. A name without separators that is joined to a
path is cut off again; a path with a parent is the parent joined with its name; and the
way up takes as many steps as there are separators, and the names left behind on it put
the path together again. -/
theorem joins_and_parents (path : Path) :
    (∀ name : String, separator ∉ name.toList → (path.join name).parent = some path ∧
      (path.join name).name = name ∧ (path.join name).depth = path.depth + 1) ∧
    (path.parent = none ↔ path.depth = 0) ∧
    (∀ above, path.parent = some above → above.join path.name = path) ∧
    (path :: path.ancestors).IsChain (fun below above => below.parent = some above) ∧
    path.summit.parent = none ∧
    path.ancestors.length = path.depth ∧
    path.shed.foldr (fun name around => around.join name) path.summit = path :=
  ⟨fun _ hfree => ⟨parent_join path hfree, name_join path hfree, depth_join path hfree⟩,
    depth_eq_zero_iff.symm, fun _ => join_of_parent, (isChain_ancestors path).1,
    (isChain_ancestors path).2, length_ancestors path, foldr_join_shed path⟩

/-- A path with names of several bytes and empty ones, joined with an empty name. -/
theorem joins_and_parents_doubled :
    ((⟨"|é||"⟩ : Path).join "").parent = some ⟨"|é||"⟩ ∧ ((⟨"|é||"⟩ : Path).join "").depth = 4 ∧
      (⟨"|é||"⟩ : Path).ancestors = [⟨"|é|"⟩, ⟨"|é"⟩, ⟨""⟩] ∧
      ["", "", "é"].foldr (fun name around => Path.join around name) ⟨""⟩ = ⟨"|é||"⟩ := by
  obtain ⟨hjoin, -, -, -, -, -, hback⟩ := joins_and_parents ⟨"|é||"⟩
  obtain ⟨hparent, -, hdepth⟩ := hjoin "" (by decide)
  have hancestors : (⟨"|é||"⟩ : Path).ancestors = [⟨"|é|"⟩, ⟨"|é"⟩, ⟨""⟩] := by decide +kernel
  refine ⟨hparent, hdepth.trans (by decide), hancestors, ?_⟩
  have hshed : (⟨"|é||"⟩ : Path).shed = ["", "", "é"] := by
    rw [shed, hancestors]
    decide +kernel
  rwa [hshed, summit, hancestors] at hback

end Path

end Breadboard
