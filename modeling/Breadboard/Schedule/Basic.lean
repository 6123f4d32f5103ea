import Breadboard.Schedule.Placement

/-!
# Schedules

A schedule is the order of work of a settle, in blocks of steps. A block has
counters and may run when all of them are zero. Counter 0 is the number of
blocks that have to finish first; a block that starts with a dynamic node
has a second one, which any one of several steps brings down. A step names
the counters it brings down, at once or only if a certain pin then drives.

The latch phases, which run on the clock edge, are listed apart.
-/

namespace Breadboard

/-- When a step brings a counter down: always, or if this port of its part
drives. -/
inductive Trigger where
  | fired
  | driving (port : Nat)
  deriving DecidableEq, Repr

/-- A counter of another block that a step brings down. -/
structure Decrement where
  block : Nat
  counter : Nat
  trigger : Trigger
  deriving DecidableEq, Repr

structure Step where
  task : Task
  decrements : List Decrement := []
  deriving DecidableEq, Repr

/-- What a block waits for: all of a number of blocks, or any one of a number of
steps. -/
inductive Counter where
  | plain (count : Nat)
  | oneOf (count : Nat)
  deriving DecidableEq, Repr

/-- Where a counter starts. -/
def Counter.initial : Counter → Nat
  | plain count => count
  | oneOf _ => 1

/-- A group of steps that run together, and the blocks that wait for it to
finish. -/
structure Block where
  steps : List Step := []
  counters : List Counter := []
  successors : List Nat := []
  deriving DecidableEq, Repr, Inhabited

def Block.initial (block : Block) : List Nat :=
  block.counters.map Counter.initial

structure Schedule where
  blocks : List Block := []
  latchSteps : List (Nat × Nat) := []
  diagnostics : List Diagnostic := []
  deriving Repr, Inhabited

namespace Schedule

def stepCount (schedule : Schedule) : Nat :=
  (schedule.blocks.flatMap (·.steps)).length

/-- The block that a task was put in. -/
def blockOf? (schedule : Schedule) (task : Task) : Option Nat :=
  schedule.blocks.findIdx? fun block => block.steps.any (·.task = task)

end Schedule

/-! ## Blocks from a placement -/

namespace Placement

def blockCount (placement : Placement) : Nat :=
  match placement.slots.getLast? with
  | some last => last.block + 1
  | none => 0

/-- The nodes of a block, in order. -/
def members (placement : Placement) (block : Nat) : List Nat :=
  (placement.slots.filter (·.block = block)).map (·.node)

def blockOf? (placement : Placement) (node : Nat) : Option Nat :=
  (placement.slot? node).map (·.block)

/-- The other blocks that have to finish before a block. A plain predecessor
placed after the node that should wait for it, in a loop that was broken, does
not count. -/
def predecessors (graph : Graph) (placement : Placement) (block : Nat) : List Nat :=
  let found := (placement.members block).flatMap fun node =>
    ((graph.predecessors .plain node).filter fun source =>
      placement.position source < placement.position node).filterMap placement.blockOf?
  (List.range placement.blockCount).filter fun other => other ≠ block && other ∈ found

/-- The counter of a dynamic node among those of its block. -/
def counterOf (graph : Graph) (placement : Placement) (block node : Nat) : Nat :=
  ((placement.members block).filter graph.isDynamic).idxOf node + 1

/-- The counter that an edge out of a block brings down. -/
def decrement? (graph : Graph) (placement : Placement) (block : Nat) (edge : Edge) :
    Option Decrement :=
  let trigger? : Option Trigger :=
    match edge.kind with
    | .plain => none
    | .oneOf => some .fired
    | .drive port => some (.driving port)
  match trigger?, placement.blockOf? edge.target with
  | some trigger, some target =>
    if target = block then none
    else some ⟨target, counterOf graph placement target edge.target, trigger⟩
  | _, _ => none

/-- All blocks, in the order of the placement. -/
def blocks (graph : Graph) (placement : Placement) : List Block :=
  let predecessors := (List.range placement.blockCount).map (predecessors graph placement)
  predecessors.zipIdx.map fun (before, block) =>
    let members := placement.members block
    { steps := members.map fun node =>
        ⟨graph.task node, (graph.edges node).filterMap (decrement? graph placement block)⟩
      counters := .plain before.length ::
        (members.filter graph.isDynamic).map fun node => .oneOf (graph.dynamicDegree node)
      successors := (List.range placement.blockCount).filter fun other =>
        block ∈ predecessors.getD other [] }

end Placement

/-! ## Latch steps -/

/-- Every latch phase: by the first step of its part in the blocks, parts
without steps last. -/
def latchSteps (netlist : Netlist) (blocks : List Block) : List (Nat × Nat) :=
  let stepped := (blocks.flatMap (·.steps)).filterMap fun step =>
    match step.task with
    | .phase part _ => some part
    | .net _ => none
  let parts := (stepped ++ List.range netlist.parts.length).eraseDups
  parts.flatMap fun part =>
    (netlist.parts.getD part default).phases.zipIdx.filterMap fun (phase, position) =>
      if phase.latch then some (part, position) else none

/-! ## The schedule -/

/-- The report of a broken loop. -/
def loopDiagnostic (netlist : Netlist) (graph : Graph) (members : List Nat) : Diagnostic :=
  let names := members.map fun node => netlist.taskName (graph.task node)
  .combinationalLoop (names.mergeSort fun a b => decide (a ≤ b))

/-- Order the work of a netlist. -/
def compile (netlist : Netlist) : Schedule :=
  let graph := Graph.ofNetlist netlist
  let placement := graph.place
  let blocks := placement.blocks graph
  { blocks
    latchSteps := latchSteps netlist blocks
    diagnostics := placement.loops.map (loopDiagnostic netlist graph) }

end Breadboard
