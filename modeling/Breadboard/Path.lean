import Breadboard.Split

/-!
# Hierarchical paths

A path names a part or a net by the chain of scopes around it, for example
`cpu|alu|adder`. The runtime tables hold no paths: they are put together for
look-ups, diagnostics and display. Any text is a path, with empty names
where separators stand alone or next to each other.
-/

namespace Breadboard

/-- A hierarchical name in its written form. -/
structure Path where
  text : String
  deriving DecidableEq, Repr, Inhabited

namespace Path

/-- The character between two names of a path. -/
def separator : Char := '|'

/-- The path around this one; none at the top. -/
def parent (path : Path) : Option Path :=
  (splitLast separator path.text.toList).map fun (before, _) => ⟨String.ofList before⟩

/-- The last name of a path. -/
def name (path : Path) : String :=
  match splitLast separator path.text.toList with
  | some (_, after) => String.ofList after
  | none => path.text

/-- The path of `name` inside `path`. -/
def join (path : Path) (name : String) : Path :=
  ⟨path.text ++ String.singleton separator ++ name⟩

/-- The number of scopes around the last name. -/
def depth (path : Path) : Nat :=
  path.text.toList.count separator

/-- The path with its kind spelled out. The text is shown as it is. -/
def display (path : Path) : String :=
  "Path(\"" ++ path.text ++ "\")"

/-- The parent of a path, the parent of that, and so on to the top. -/
def ancestors (path : Path) : List Path :=
  climb path.depth path
where
  climb : Nat → Path → List Path
    | 0, _ => []
    | steps + 1, path =>
      match path.parent with
      | some parent => parent :: climb steps parent
      | none => []

/-- Paths are ordered by the code points of their text. -/
instance : Ord Path where
  compare a b := compare a.text b.text

theorem toList_join (path : Path) (name : String) :
    (path.join name).text.toList = path.text.toList ++ separator :: name.toList := by
  simp [join, String.toList_append]

end Path

end Breadboard
