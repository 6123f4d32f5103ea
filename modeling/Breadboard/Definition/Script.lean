import Breadboard.Definition.Builder
import Breadboard.Definition.Builtin

/-!
# Scripted definitions

A script describes a component by data: its ports, and for each phase what
it reads and writes and the actions it performs, all by port id.
`Script.assemble` finds the ports in the order in which the phases name
them; the first one that does not exist, or a phase in the wrong place, is
the error.
-/

namespace Breadboard

/-- One phase of a script. A latch phase has no use for `anyOf`. -/
structure ScriptPhase where
  reads : List String := []
  writes : List String := []
  anyOf : List String := []
  latch : Bool := false
  actions : List (Action String) := []
  deriving Repr

/-- A component described by data. A script that is not valid still runs, but
where it also has a schematic the outputs of the schematic win. -/
structure Script where
  ports : List PortDecl
  extraPorts : List PortDecl := []
  phases : List ScriptPhase := []
  valid : Bool := true
  persistent : Bool := false
  deriving Repr

/-- The action with its pins looked up from left to right. -/
def Action.resolve {m : Type → Type} [Monad m] {ρ σ : Type} (find : ρ → m σ) :
    Action ρ → m (Action σ)
  | add target sources offset => do
    let target ← find target
    let sources ← sources.mapM find
    return add target sources offset
  | drive target source enable => do
    let target ← find target
    let source ← find source
    let enable ← find enable
    return drive target source enable
  | ignore pin => return ignore (← find pin)
  | store source => return store (← find source)
  | load target => return load (← find target)
  | halt pin reason => return halt (← find pin) reason

namespace Script

/-- Add one phase and find the pins of its actions. -/
def addPhase (builder : Builder) (phase : ScriptPhase) :
    Except BuildError (Builder × List (Action Nat)) := do
  let reads ← phase.reads.mapM builder.port?
  let writes ← phase.writes.mapM builder.port?
  let anyOf ← phase.anyOf.mapM builder.port?
  let next ← builder.addPhase
    { reads, writes, anyOf := if phase.latch then [] else anyOf, latch := phase.latch }
  let actions ← phase.actions.mapM (·.resolve next.port?)
  return (next, actions)

/-- Add all phases in order. -/
def addPhases : Builder → List ScriptPhase →
    Except BuildError (Builder × List (List (Action Nat)))
  | builder, [] => return (builder, [])
  | builder, phase :: phases => do
    let (builder, actions) ← addPhase builder phase
    let (builder, rest) ← addPhases builder phases
    return (builder, actions :: rest)

/-- What a script builds. -/
def assemble (script : Script) (definition : String) (args : Json) :
    Except BuildError Assembly := do
  let builder := script.extraPorts.foldl Builder.addPort
    (Builder.start definition args script.ports)
  let (builder, actions) ← addPhases builder script.phases
  return {
    ports := builder.ports
    phases := builder.phases
    device := .scripted script.persistent actions
    valid := script.valid }

end Script

end Breadboard
