import Breadboard.Schedule.Basic
import Breadboard.Simulation.Resolve

/-!
# Settling

A settle runs every block of the schedule once. A block is queued when its
counters have come down to zero, and the queue is worked off in order. When
it is empty, the first block that waits for nothing but a dynamic node is
forced to run. Each turn runs one block that has not run yet, so there are
never more turns than blocks.
-/

namespace Breadboard

/-- A block that ran, and whether it was forced. -/
structure Firing where
  block : Nat
  forced : Bool
  deriving DecidableEq, Repr

/-- The counters of a block, and whether it has run. -/
structure Progress where
  remaining : List Nat
  executed : Bool := false
  deriving DecidableEq, Repr, Inhabited

/-- Whether the block may be queued. -/
def Progress.isDue (progress : Progress) : Bool :=
  !progress.executed && progress.remaining.all (· = 0)

/-- A settle under way. -/
structure Settling where
  state : State
  progress : List Progress
  queue : List Nat := []
  firings : List Firing := []
  deriving Repr, Inhabited

namespace Settling

/-- Bring a counter of a block down, and queue the block if that was the last
one. -/
def decrement (block counter : Nat) (settling : Settling) : Settling :=
  let lower (progress : Progress) : Progress :=
    { progress with remaining := progress.remaining.modify counter (· - 1) }
  let progress := settling.progress.modify block lower
  let due := progress[block]?.any (·.isDue) && block ∉ settling.queue
  { settling with progress, queue := if due then settling.queue ++ [block] else settling.queue }

/-- Whether a decrement applies after its step has run. -/
def applies (netlist : Netlist) (state : State) (task : Task) : Trigger → Bool
  | .fired => true
  | .driving port =>
    match task with
    | .phase part _ => Net.isDriving netlist state ⟨part, port⟩
    | .net _ => true

/-- Run one step and bring down the counters it names. -/
def runStep (netlist : Netlist) (settling : Settling) (step : Step) : Settling :=
  let settling := { settling with state := settling.state.perform netlist step.task }
  let applying := step.decrements.filter fun target =>
    applies netlist settling.state step.task target.trigger
  applying.foldl (fun settling target => settling.decrement target.block target.counter) settling

/-- Run one block, and let the blocks that wait for it know. -/
def runBlock (netlist : Netlist) (schedule : Schedule) (firing : Firing) (settling : Settling) :
    Settling :=
  let block := schedule.blocks.getD firing.block default
  let settling :=
    { settling with
      progress := settling.progress.modify firing.block fun progress =>
        { progress with executed := true }
      firings := settling.firings ++ [firing] }
  let settling := block.steps.foldl (runStep netlist) settling
  block.successors.foldl (fun settling next => settling.decrement next 0) settling

/-- The block to run next, taken from the queue or forced. -/
def next (settling : Settling) : Option (Firing × Settling) :=
  match settling.queue with
  | block :: queue => some (⟨block, false⟩, { settling with queue })
  | [] =>
    let waiting := settling.progress.findIdx? fun progress =>
      !progress.executed && progress.remaining.head? = some 0
    waiting.map fun block => (⟨block, true⟩, settling)

/-- Run up to `turns` blocks. -/
def advance (netlist : Netlist) (schedule : Schedule) : (turns : Nat) → Settling → Settling
  | 0, settling => settling
  | turns + 1, settling =>
    match settling.next with
    | some (firing, settling) =>
      advance netlist schedule turns (settling.runBlock netlist schedule firing)
    | none => settling

/-- The start of a settle: counters as scheduled, and no tri-state pin enabled. -/
def start (netlist : Netlist) (schedule : Schedule) (state : State) : Settling :=
  let progress := schedule.blocks.map fun block => { remaining := block.initial : Progress }
  let due := (List.range progress.length).filter fun block => progress[block]?.any (·.isDue)
  { state := state.mapPins netlist fun port pin => { pin with enabled := !port.type.tristate }
    progress
    queue := due }

end Settling

/-- Propagate values until every block has run: the state reached, and the
blocks as they ran. -/
def settle (netlist : Netlist) (schedule : Schedule) (state : State) : State × List Firing :=
  let done := (Settling.start netlist schedule state).advance netlist schedule
    schedule.blocks.length
  (done.state, done.firings)

end Breadboard
