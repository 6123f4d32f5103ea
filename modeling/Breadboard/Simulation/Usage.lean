import Breadboard.Simulation.Settle

/-!
# Usage

Which pins contributed to the last settle. The inputs of a latch phase
always do. From there the blocks are walked backwards: a phase uses its
inputs if one of its outputs is used or if it has none, except those it
ignored; a control input counts in any case. A net passes usage from its
readers to the sources that decided its value. Nothing but the usage of pins
changes.
-/

namespace Breadboard

namespace Pin

def markUsed (pin : Pin) : Pin :=
  { pin with used := true }

/-- Whether the phase that reads the pin did not look at it. -/
def isIgnored (type : PortType) (pin : Pin) : Bool :=
  !type.tristate && !pin.enabled

end Pin

namespace State

/-- Mark a pin as used if a condition on its port and its state holds. -/
def markPin (netlist : Netlist) (p : PortType → Pin → Bool) (state : State) (ref : PortRef) :
    State :=
  if p ((netlist.port? ref).getD default).type (state.pin ref) then
    state.updatePin Pin.markUsed ref
  else state

/-- From the outputs of a phase to its inputs. -/
def tracePhase (netlist : Netlist) (part position : Nat) (state : State) : State :=
  let phase := (netlist.parts.getD part default).phases.getD position default
  let needed := phase.writes.isEmpty || phase.writes.any fun port => (state.pin ⟨part, port⟩).used
  (phase.reads ++ phase.anyOf).foldl
    (fun state port =>
      state.markPin netlist (fun type pin => type.ctrl || (needed && !pin.isIgnored type))
        ⟨part, port⟩)
    state

/-- From the readers of a net to its sources. -/
def traceNet (netlist : Netlist) (index : Nat) (state : State) : State :=
  let net := netlist.nets.getD index default
  if net.targets.any fun ref => (state.pin ref).used then
    net.sources.foldl (markPin netlist fun type pin => !net.tristate || pin.drives type) state
  else state

def traceTask (netlist : Netlist) (state : State) : Task → State
  | .phase part phase => state.tracePhase netlist part phase
  | .net net => state.traceNet netlist net

/-- The inputs of a latch phase. -/
def markLatched (netlist : Netlist) (state : State) (step : Nat × Nat) : State :=
  let (part, position) := step
  let phase := (netlist.parts.getD part default).phases.getD position default
  phase.reads.foldl (fun state port => state.updatePin Pin.markUsed ⟨part, port⟩) state

/-- Find out which pins contributed, given the blocks in the order in which they
ran. -/
def traceUsage (netlist : Netlist) (schedule : Schedule) (executed : List Nat) (state : State) :
    State :=
  let state := state.mapPins netlist fun _ pin => { pin with used := false }
  let state := schedule.latchSteps.foldl (markLatched netlist) state
  let steps := executed.flatMap fun block => (schedule.blocks.getD block default).steps
  steps.reverse.foldl (fun state step => state.traceTask netlist step.task) state

end State

end Breadboard
