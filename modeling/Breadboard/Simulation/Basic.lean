import Breadboard.Netlist.Flatten
import Breadboard.Simulation.Usage

/-!
# Simulations

A simulation is a circuit with its schedule and its state. Every operation
that starts or changes a circuit settles it at once, so between two
operations values have always propagated.
-/

namespace Breadboard

/-- Why a circuit cannot be run. -/
inductive Fault where
  /-- The carry out of an adder of width 128 or more lies beyond the sum. -/
  | carryBeyondSum
  deriving DecidableEq, Repr

/-- The wording of a fault. -/
def Fault.message : Fault → String
  | carryBeyondSum => "The carry out of an adder lies beyond its sum"

/-- The fault that running a netlist would meet. Every settle runs every
ordinary phase, so that the devices alone decide. -/
def Netlist.fault? (netlist : Netlist) : Option Fault :=
  if netlist.parts.any (·.device.overshifts) then some .carryBeyondSum else none

/-- A circuit that can be run. `firings` are the blocks in the order of the last
settle, and `ticks` counts the clock edges. -/
structure Simulation where
  netlist : Netlist
  schedule : Schedule
  state : State
  firings : List Firing := []
  trackUsage : Bool := false
  ticks : Nat := 0
  deriving Repr, Inhabited

namespace Simulation

/-- The blocks that ran in the last settle, in order. -/
def executed (simulation : Simulation) : List Nat :=
  simulation.firings.map (·.block)

def isHalted (simulation : Simulation) : Bool :=
  simulation.state.status.isHalted

def diagnostics (simulation : Simulation) : List Diagnostic :=
  simulation.netlist.diagnostics ++ simulation.schedule.diagnostics

/-- Find out which pins contributed to the last settle. -/
def traceUsage (simulation : Simulation) : Simulation :=
  { simulation with
    state := simulation.state.traceUsage simulation.netlist simulation.schedule
      simulation.executed }

/-- Propagate values until every block has run. -/
def settle (simulation : Simulation) : Simulation :=
  let (state, firings) :=
    Breadboard.settle simulation.netlist simulation.schedule simulation.state
  let simulation := { simulation with state, firings }
  if simulation.trackUsage then simulation.traceUsage else simulation

/-! ## Starting -/

/-- A simulation of a netlist from a state in which it has not run yet. -/
def ofState (netlist : Netlist) (state : State) : Simulation :=
  { netlist, schedule := compile netlist, state : Simulation }.settle

/-- A simulation of a netlist from scratch. -/
def ofNetlist (netlist : Netlist) : Simulation :=
  ofState netlist (.fresh netlist)

/-- Start a circuit. -/
def start (library : Library) (schematic : Schematic) : Except Fault Simulation :=
  let netlist := flatten library schematic
  match netlist.fault? with
  | some fault => .error fault
  | none => .ok (ofNetlist netlist)

/-- Start a circuit with what the parts of another one remember. -/
def startFrom (previous : Simulation) (library : Library) (schematic : Schematic) :
    Except Fault Simulation :=
  let netlist := flatten library schematic
  match netlist.fault? with
  | some fault => .error fault
  | none => .ok (ofState netlist (.carriedOver previous.netlist previous.state netlist))

/-- Track usage from now on, or stop doing so. -/
def withUsageTracking (simulation : Simulation) (enabled : Bool) : Simulation :=
  let simulation := { simulation with trackUsage := enabled }
  if enabled then simulation.traceUsage else simulation

/-! ## Running -/

/-- The clock edge: run the latch phases on the settled values. -/
def latch (simulation : Simulation) : Simulation :=
  { simulation with
    ticks := simulation.ticks + 1
    state := simulation.schedule.latchSteps.foldl
      (fun state (part, phase) => state.runPhase simulation.netlist part phase) simulation.state }

/-- One clock cycle: latch, then settle. A halted circuit does neither. -/
def step (simulation : Simulation) : Simulation :=
  if simulation.isHalted then simulation
  else
    let simulation := simulation.latch
    if simulation.isHalted then simulation else simulation.settle

/-- Up to `count` clock cycles, until the circuit halts. -/
def run : (count : Nat) → Simulation → Simulation
  | 0, simulation => simulation
  | count + 1, simulation => if simulation.isHalted then simulation else run count simulation.step

/-- Back to the start: the halt is lifted, pins and nets are cleared, and parts
forget what a reset of that kind makes them forget. -/
def reset (simulation : Simulation) (hard : Bool) : Simulation :=
  let clear (part : Part) (held : PartState) : PartState :=
    { pins := held.pins.map fun pin => { pin with value := 0, resolved := true }
      memory := part.device.reset hard held.memory }
  let state : State :=
    { parts := (simulation.netlist.parts.zip simulation.state.parts).map fun (part, held) =>
        clear part held
      nets := simulation.state.nets.map fun _ => {}
      status := .running }
  { simulation with state }.settle

/-- Replace the circuit by another one, with what the parts remember. Clock,
halt and usage tracking go on. -/
def rebuild (simulation : Simulation) (library : Library) (schematic : Schematic) :
    Except Fault Simulation :=
  let netlist := flatten library schematic
  match netlist.fault? with
  | some fault => .error fault
  | none =>
    let state := State.carriedOver simulation.netlist simulation.state netlist
    .ok { simulation with
      netlist
      schedule := compile netlist
      state := { state with status := simulation.state.status } }.settle

end Simulation

end Breadboard
