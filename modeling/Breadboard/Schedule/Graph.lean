import Breadboard.Netlist.Basic
import Breadboard.Reach

/-!
# The dependency graph

The nodes of the graph are the tasks of a settle: running an ordinary phase
and resolving a net. An edge says that its target waits for its source.

- A `plain` edge is always waited for: from a phase to the next one of its
  part, from a phase to a net it writes, and from a net to a phase that
  reads it.
- A phase with any-of ports waits for one of their nets: these are `oneOf`
  edges.
- A driver of a tri-state net that itself depends on that net cannot be
  waited for. Such a net is *dynamic*: it waits for any one of its drivers
  to drive it in fact, by `drive` edges.

A phase that reads a net which its part drives in that phase or a later one
cannot wait for the net either. It gets no edge and is marked as crossing.
-/

namespace Breadboard

/-- One unit of work of a settle. -/
inductive Task where
  | phase (part phase : Nat)
  | net (net : Nat)
  deriving DecidableEq, Repr, Inhabited

inductive EdgeKind where
  | plain
  | oneOf
  | drive (port : Nat)
  deriving DecidableEq, Repr, Inhabited

structure Edge where
  target : Nat
  kind : EdgeKind
  deriving DecidableEq, Repr, Inhabited

structure Node where
  task : Task
  edges : List Edge := []
  crossing : Bool := false
  deriving DecidableEq, Repr, Inhabited

structure Graph where
  nodes : List Node := []
  deriving Repr, Inhabited

/-! ## Tasks -/

namespace Netlist

/-- The ordinary phases of all parts, by part and in order. -/
def phaseTasks (netlist : Netlist) : List Task :=
  netlist.parts.zipIdx.flatMap fun (part, index) =>
    part.phases.zipIdx.filterMap fun (phase, position) =>
      if phase.latch then none else some (.phase index position)

/-- All tasks: the phases, then the nets. -/
def tasks (netlist : Netlist) : List Task :=
  netlist.phaseTasks ++ (List.range netlist.nets.length).map .net

/-- The name a task is reported by. -/
def taskName (netlist : Netlist) : Task → String
  | .phase part phase => (netlist.partPath part).text ++ "#" ++ toString phase
  | .net net => (netlist.netPath net).text

/-! ## Which phase reads and writes which net -/

/-- Whether a part drives a net from its phase at `position` or a later ordinary
one. -/
def drivesFrom (netlist : Netlist) (part position net : Nat) : Bool :=
  let phases := (netlist.parts.getD part default).phases.drop position
  (phases.filter (!·.latch)).any fun phase =>
    phase.writes.any fun port => netlist.drivenNet? ⟨part, port⟩ = some net

end Netlist

/-- How a phase waits for a net it reads. -/
inductive ReadMode where
  | waiting
  | anyOf
  | crossing
  deriving DecidableEq, Repr

/-- A node of a phase that reads or writes a net through a port. -/
structure Access where
  node : Nat
  port : Nat
  net : Nat
  deriving DecidableEq, Repr

namespace Netlist

/-- The phases of the graph, each with its node, its part and its position in
the part. -/
def phaseNodes (netlist : Netlist) : List (Nat × Nat × Nat × Phase) :=
  netlist.phaseTasks.zipIdx.filterMap fun (task, node) =>
    match task with
    | .phase part position =>
      (netlist.parts[part]?.bind (·.phases[position]?)).map (node, part, position, ·)
    | .net _ => none

/-- Every write of a phase to a net. -/
def writes (netlist : Netlist) : List Access :=
  netlist.phaseNodes.flatMap fun (node, part, _, phase) =>
    phase.writes.filterMap fun port => (netlist.drivenNet? ⟨part, port⟩).map (⟨node, port, ·⟩)

/-- Every read of a net by a phase. A port that is both read and any-of counts
as any-of. -/
def reads (netlist : Netlist) : List (Access × ReadMode) :=
  netlist.phaseNodes.flatMap fun (node, part, position, phase) =>
    (phase.reads ++ phase.anyOf.filter (· ∉ phase.reads)).filterMap fun port =>
      (netlist.readNet? ⟨part, port⟩).map fun net =>
        let mode : ReadMode :=
          if port ∈ phase.anyOf then .anyOf
          else if netlist.drivesFrom part position net then .crossing
          else .waiting
        (⟨node, port, net⟩, mode)

end Netlist

/-! ## Edges -/

/-- The edge that makes a phase wait for a net. -/
def ReadMode.edge? (mode : ReadMode) (node : Nat) : Option Edge :=
  match mode with
  | waiting => some ⟨node, .plain⟩
  | anyOf => some ⟨node, .oneOf⟩
  | crossing => none

/-- The edge from a phase to the next one of its part. -/
def chainEdges (tasks : List Task) (node : Nat) : List Edge :=
  match tasks[node]?, tasks[node + 1]? with
  | some (.phase part _), some (.phase next _) => if next = part then [⟨node + 1, .plain⟩] else []
  | _, _ => []

/-- The edges of a node other than the writes of a phase. -/
def orderEdges (tasks : List Task) (reads : List (Access × ReadMode)) (node : Nat) : List Edge :=
  match tasks[node]? with
  | some (.net net) =>
    (reads.filter fun (access, _) => access.net = net).filterMap fun (access, mode) =>
      mode.edge? access.node
  | _ => chainEdges tasks node

/-- Whether a write cannot be waited for, because the phase depends on the
tri-state net it drives. Nets stand behind the `phases` phases among the
nodes. -/
def isDeferred (netlist : Netlist) (succ : Nat → List Nat) (size phases : Nat) (write : Access) :
    Bool :=
  netlist.nets[write.net]?.any (·.tristate) &&
    write.node ∈ reach succ size (phases + write.net)

/-- The edges of a phase to the nets it writes. -/
def writeEdges (writes : List (Access × Bool)) (phases node : Nat) : List Edge :=
  (writes.filter fun (write, _) => write.node = node).flatMap fun (write, deferred) =>
    let dynamic := writes.any fun (other, deferred) => deferred && other.net = write.net
    (if deferred then [] else [⟨phases + write.net, .plain⟩]) ++
      (if dynamic then [⟨phases + write.net, .drive write.port⟩] else [])

/-- The dependency graph of a netlist. Its nodes are the tasks in order. -/
def Graph.ofNetlist (netlist : Netlist) : Graph :=
  let tasks := netlist.tasks
  let phases := netlist.phaseTasks.length
  let reads := netlist.reads
  let writes := netlist.writes
  let ordered := (List.range tasks.length).map (orderEdges tasks reads)
  let table := ordered.zipIdx.map fun (edges, node) =>
    edges.map (·.target) ++
      (writes.filter (·.node = node)).map fun write => phases + write.net
  let deferral := writes.map fun write =>
    (write, isDeferred netlist (fun node => table.getD node []) tasks.length phases write)
  let node (task : Task) (index : Nat) : Node :=
    { task
      edges := (ordered.getD index [] ++ writeEdges deferral phases index).eraseDups
      crossing := reads.any fun (access, mode) => mode = .crossing && access.node = index }
  { nodes := tasks.zipIdx.map fun (task, index) => node task index }

namespace Graph

def size (graph : Graph) : Nat :=
  graph.nodes.length

def node (graph : Graph) (index : Nat) : Node :=
  graph.nodes.getD index default

def task (graph : Graph) (index : Nat) : Task :=
  (graph.node index).task

def edges (graph : Graph) (index : Nat) : List Edge :=
  (graph.node index).edges

/-- The nodes that a node is a plain predecessor of. -/
def plainTargets (graph : Graph) (index : Nat) : List Nat :=
  (graph.edges index).filterMap fun edge => if edge.kind = .plain then some edge.target else none

/-- The nodes with an edge of a certain kind to `index`, in order. -/
def predecessors (graph : Graph) (kind : EdgeKind) (index : Nat) : List Nat :=
  (List.range graph.size).filter fun source => ⟨index, kind⟩ ∈ graph.edges source

/-- The number of edges to a node that are decided at run time. -/
def dynamicDegree (graph : Graph) (index : Nat) : Nat :=
  (graph.nodes.flatMap (·.edges)).countP fun edge =>
    edge.target = index && edge.kind ≠ .plain

/-- Whether some edge to the node is decided at run time. -/
def isDynamic (graph : Graph) (index : Nat) : Bool :=
  0 < graph.dynamicDegree index

end Graph

end Breadboard
