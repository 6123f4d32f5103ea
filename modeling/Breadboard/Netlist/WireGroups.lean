import Breadboard.Schematic

/-!
# Groups of wires

Wires that end at a common port are one electrical connection, and so are
wires linked by a chain of such wires. `wireGroups` gives the positions of
the wires of each connection.

The wires are merged in a forest. Every tree is a class of wires, and its
root is the first one of them: a wire never points at a later one, which is
also why the way to a root ends. Each wire is visited once for each of its
ends. The first wire at a port owns it, and a later one is merged with the
owner.
-/

namespace Breadboard

/-- Each wire points at itself, if it is a root, or at an earlier one. -/
structure Forest where
  parents : List Nat
  le : ∀ wire, parents.getD wire wire ≤ wire

namespace Forest

def parent (forest : Forest) (wire : Nat) : Nat :=
  forest.parents.getD wire wire

theorem parent_le (forest : Forest) (wire : Nat) : forest.parent wire ≤ wire :=
  forest.le wire

theorem parent_lt {forest : Forest} {wire : Nat} (h : forest.parent wire ≠ wire) :
    forest.parent wire < wire :=
  Nat.lt_of_le_of_ne (forest.parent_le wire) h

/-- Nothing is merged. -/
def apart (count : Nat) : Forest where
  parents := List.range count
  le wire := by
    rcases Nat.lt_or_ge wire count with hlt | hge
    · simp [List.getD_eq_getElem?_getD, List.getElem?_range hlt]
    · simp [List.getD_eq_getElem?_getD, hge]

/-- Point a wire at another one, which is not a later one. -/
def hang (forest : Forest) (wire target : Nat) (hle : target ≤ wire) : Forest where
  parents := forest.parents.set wire target
  le other := by
    have := forest.le other
    rw [List.getD_eq_getElem?_getD] at this ⊢
    rw [List.getElem?_set]
    split
    · next heq =>
      subst heq
      split
      · exact hle
      · exact Nat.le_refl _
    · exact this

/-- The root above a wire. Whatever is passed on the way is pointed at its grandparent,
which halves the way for the next time. -/
@[semireducible]
def find (forest : Forest) (wire : Nat) : Forest × Nat :=
  if h : forest.parent wire = wire then (forest, wire)
  else
    let above := forest.parent (forest.parent wire)
    have hlt : above < wire := Nat.lt_of_le_of_lt (forest.parent_le _) (parent_lt h)
    (forest.hang wire above (Nat.le_of_lt hlt)).find above
termination_by wire

theorem min_le_max (first second : Nat) : min first second ≤ max first second :=
  Nat.le_trans (Nat.min_le_left ..) (Nat.le_max_left ..)

/-- Make one class of the classes of two wires. -/
def merge (forest : Forest) (wire other : Nat) : Forest :=
  let (forest, first) := forest.find wire
  let (forest, second) := forest.find other
  forest.hang (max first second) (min first second) (min_le_max first second)

/-- The roots of some wires, looked up one after another. -/
def roots (forest : Forest) : List Nat → List Nat
  | [] => []
  | wire :: rest =>
    let (forest, root) := forest.find wire
    root :: forest.roots rest

end Forest

/-- What is known of the wires visited so far: their classes, and the owner of each
port. -/
structure Merging where
  forest : Forest
  owners : List (Endpoint × Nat) := []

/-- Visit one end of a wire. -/
def Merging.visit (merging : Merging) (wireEnd : Nat × Endpoint) : Merging :=
  let (wire, endpoint) := wireEnd
  match merging.owners.lookup endpoint with
  | some owner => { merging with forest := merging.forest.merge wire owner }
  | none => { merging with owners := (endpoint, wire) :: merging.owners }

/-- The ends of all wires, each with the position of its wire. -/
def numberedEnds (wires : List Wire) : List (Nat × Endpoint) :=
  wires.zipIdx.flatMap fun (wire, position) => wire.endpoints.map (position, ·)

/-- The classes of wires that are linked. -/
def mergeWires (wires : List Wire) : Forest :=
  ((numberedEnds wires).foldl Merging.visit { forest := .apart wires.length }).forest

/-- The positions that have the same root together, by their roots. -/
def classes (roots : List Nat) : List (List Nat) :=
  (List.range roots.length).filterMap fun root =>
    match roots.zipIdx.filter (·.1 = root) with
    | [] => none
    | members => some (members.map (·.2))

/-- The connections: each one ascending, and all ordered by their first wires. -/
def wireGroups (wires : List Wire) : List (List Nat) :=
  classes ((mergeWires wires).roots (List.range wires.length))

end Breadboard
