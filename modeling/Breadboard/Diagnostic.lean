import Breadboard.Path

/-!
# Diagnostics

Nothing wrong with a circuit stops it from being built: the faulty element
is skipped, and what was found is kept as a diagnostic. A definition that
breaks the rules of the builder gives a build error, which becomes a
diagnostic of the component that was being placed.
-/

namespace Breadboard

/-- A definition broke a rule of the builder. -/
inductive BuildError where
  /-- A definition added an ordinary phase after a latch phase. -/
  | phaseAfterLatch (definition : String)
  /-- A definition asked for a port it does not have. -/
  | noSuchPort (definition port : String) (valid : List String)
  deriving DecidableEq, Repr

/-- The wording of a build error. -/
def BuildError.message : BuildError → String
  | phaseAfterLatch definition => s!"Cannot add phase after latch phase ({definition})"
  | noSuchPort definition port valid =>
    let names := String.intercalate ", " valid
    s!"Port {port} not found on {definition}. Valid ports are [{names}]"

/-- A problem found while a circuit was built. -/
inductive Diagnostic where
  /-- No definition of this name is in the library. -/
  | unknownDefinition (path : Path) (definition : String)
  /-- A wire ends at a component that was not placed. -/
  | unknownComponent (wire : Path) (component : String)
  /-- A wire ends at a port that its component does not have. -/
  | unknownPort (part : Path) (port : String)
  /-- A port was not bound because its width is not that of the net. -/
  | widthMismatch (net : Path) (expected actual : Nat)
  /-- A net that is not tri-state has more than one driver. -/
  | multipleDrivers (net : Path) (count : Nat)
  /-- A component could not be built. -/
  | build (path : Path) (error : BuildError)
  /-- Steps that wait for each other; one of them runs too early. -/
  | combinationalLoop (steps : List String)
  deriving DecidableEq, Repr

/-- The wording of a diagnostic. -/
def Diagnostic.message : Diagnostic → String
  | unknownDefinition path definition =>
    s!"Unknown component definition {definition} for {path.text}"
  | unknownComponent wire component =>
    s!"Wire {wire.text} references unknown component {component}"
  | unknownPort part port => s!"Component {part.text} has no port {port}"
  | widthMismatch net expected actual =>
    s!"Net {net.text} has width {expected} but a port of width {actual} is bound to it"
  | multipleDrivers net count => s!"Net {net.text} is not tri-state but has {count} drivers"
  | build path error => s!"Failed to build {path.text}: {error.message}"
  | combinationalLoop steps =>
    let names := String.intercalate " -> " steps
    s!"Combinational loop through {names}"

end Breadboard
