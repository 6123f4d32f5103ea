import Breadboard.Port
import Breadboard.Json

/-!
# Boundary ports

A boundary port, placed inside a schematic, is one externally visible port
of whatever the schematic is expanded for. Its arguments say how that port
looks from outside: `portId` (the component's own id unless given), `dir`,
`width` and the flags. The component itself has a pin `a` that faces into
the schematic and a pin `_b` that the flattener binds to the wires outside.
-/

namespace Breadboard.Boundary

/-- The definition that marks a component as a boundary port. -/
def definition : String := "core/comp/port"

def innerPin : String := "a"

def externalPin : String := "_b"

/-- The port that a boundary port shows on the outside. -/
def outerDecl (args : Json) (component : String) : PortDecl where
  id := args.text "portId" component
  type :=
    { input := args.text "dir" "in" ≠ "out"
      output := args.text "dir" "in" = "out"
      tristate := args.flag "tristate" false
      data := args.flag "data" false
      addr := args.flag "addr" false
      ctrl := args.flag "ctrl" false }
  width := args.width "width" 1

/-- A boundary port lets values pass in one direction only. -/
theorem bidirectional_outerDecl (args : Json) (component : String) :
    (outerDecl args component).type.bidirectional = false := by
  by_cases h : args.text "dir" "in" = "out" <;> simp [outerDecl, PortType.bidirectional, h]

end Breadboard.Boundary
