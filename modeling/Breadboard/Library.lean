import Breadboard.Definition.Basic
import Breadboard.Schematic

/-!
# Component libraries

A library maps ids to definitions. An entry may also have a schematic: a
component of that definition is then expanded when the circuit is flattened.
Adding a definition replaces the one that had its id.
-/

namespace Breadboard

/-- A definition with the schematic it expands to, if any. -/
structure Library.Entry where
  definition : Definition
  inside : Option Schematic := none

/-- Definitions by id, no two with the same one. -/
structure Library where
  entries : List Library.Entry := []

namespace Library

def empty : Library := {}

/-- The entry of a definition. -/
def get? (library : Library) (id : String) : Option Entry :=
  library.entries.find? (·.definition.id = id)

/-- Add a definition, in place of the one with the same id if there is one. -/
def add (library : Library) (definition : Definition) (inside : Option Schematic := none) :
    Library :=
  ⟨library.entries.filter (·.definition.id ≠ definition.id) ++ [⟨definition, inside⟩]⟩

/-- The ports of a definition that exists only as a schematic: those of its
boundary ports. -/
def boundaryPorts (schematic : Schematic) : List PortDecl :=
  (schematic.components.filter (·.definition = Boundary.definition)).map fun component =>
    Boundary.outerDecl component.args component.id

/-- Add a definition that exists only as a schematic. -/
def addSchematic (library : Library) (id : String) (schematic : Schematic) : Library :=
  library.add ⟨id, .outline (boundaryPorts schematic)⟩ (some schematic)

/-- The library of the built-in definitions. -/
def builtin : Library :=
  Builtin.all.foldl (fun library builtin => library.add (.ofBuiltin builtin)) empty

/-- The ids of all definitions, in order. -/
def ids (library : Library) : List String :=
  (library.entries.map (·.definition.id)).mergeSort fun a b => decide (a ≤ b)

theorem get?_add_self (library : Library) (definition : Definition) (inside : Option Schematic) :
    (library.add definition inside).get? definition.id = some ⟨definition, inside⟩ := by
  have hnone : (library.entries.filter (·.definition.id ≠ definition.id)).find?
      (·.definition.id = definition.id) = none := by
    rw [List.find?_eq_none]
    intro entry hentry
    simpa using (List.mem_filter.mp hentry).2
  simp only [add, get?, List.find?_append, hnone]
  simp

theorem get?_add_of_ne (library : Library) (definition : Definition) (inside : Option Schematic)
    {id : String} (h : id ≠ definition.id) :
    (library.add definition inside).get? id = library.get? id := by
  have hkeep : (library.entries.filter (·.definition.id ≠ definition.id)).find?
      (·.definition.id = id) = library.entries.find? (·.definition.id = id) := by
    rw [List.find?_filter]
    congr 1
    funext entry
    by_cases hid : entry.definition.id = id <;> simp [hid, h]
  simp only [add, get?, List.find?_append, hkeep]
  simp [Ne.symm h]

end Library

end Breadboard
