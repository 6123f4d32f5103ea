import Breadboard.Proofs.Cover
import Breadboard.Proofs.GuardedFlatten

/-!
# The dependency graph meets no trap

`Guarded.graph` makes the dependency graph of a netlist as `Graph.ofNetlist` does. The
net that a port is bound to, the phase that a part has at a position and the node at the
end of an edge are all looked up, and each index is checked. None of them is out of range
where the ports are bound to nets that exist (`Guarded.graph_eq`).
-/

namespace Breadboard

namespace Guarded

/-! ## The dependency graph -/

/-- The net that a port is bound to, if it is listed on the given side of it. -/
def boundNet (netlist : Netlist) (side : Net → List PortRef) (ref : PortRef) :
    Guarded (Option Nat) := do
  let part ← entry netlist.parts ref.part
  match part.ports[ref.port]?.bind (·.net) with
  | none => return none
  | some index =>
    let net ← entry netlist.nets index
    return if ref ∈ side net then some index else none

/-- Whether a part drives a net from its phase at `position` or a later ordinary one. -/
def drivesFrom (netlist : Netlist) (part position net : Nat) : Guarded Bool := do
  let placed ← entry netlist.parts part
  let _ ← within (placed.phases.length + 1) position
  let later := (placed.phases.drop position).filter (!·.latch)
  let driven ← join
    (fun phase => phase.writes.mapM fun port => boundNet netlist (·.sources) ⟨part, port⟩) later
  return some net ∈ driven

def phaseNodes (netlist : Netlist) : Guarded (List (Nat × Nat × Nat × Phase)) :=
  gather (fun (task, node) => do
    match task with
    | .phase part position =>
      let placed ← entry netlist.parts part
      let phase ← entry placed.phases position
      return some (node, part, position, phase)
    | .net _ => return none) netlist.phaseTasks.zipIdx

/-- Every write of a phase to a net. -/
def writes (netlist : Netlist) : Guarded (List Access) := do
  join (fun (node, part, _, phase) => gather (fun port => do
      return (← boundNet netlist (·.sources) ⟨part, port⟩).map fun net => ⟨node, port, net⟩)
    phase.writes) (← phaseNodes netlist)

/-- Every read of a net by a phase. -/
def reads (netlist : Netlist) : Guarded (List (Access × ReadMode)) := do
  join (fun (node, part, position, phase) => gather (fun port => do
      match ← boundNet netlist (·.targets) ⟨part, port⟩ with
      | none => return none
      | some net =>
        let crossing ← drivesFrom netlist part position net
        let mode : ReadMode :=
          if port ∈ phase.anyOf then .anyOf else if crossing then .crossing else .waiting
        return some (⟨node, port, net⟩, mode))
    (phase.reads ++ phase.anyOf.filter (· ∉ phase.reads))) (← phaseNodes netlist)

/-- The nodes that a node is followed by, given the edges other than writes. -/
def followed (netlist : Netlist) (ordered : List (List Edge)) (writes : List Access) (node : Nat) :
    Guarded (List Nat) := do
  let edges ← entry ordered node
  (edges.map (·.target) ++ (writes.filter (·.node = node)).map fun write =>
    netlist.phaseTasks.length + write.net).mapM (within netlist.tasks.length)

/-- Whether a write cannot be waited for, given what each node is followed by. -/
def isDeferred (netlist : Netlist) (table : List (List Nat)) (write : Access) : Guarded Bool := do
  let net ← entry netlist.nets write.net
  let node ← within netlist.tasks.length (netlist.phaseTasks.length + write.net)
  let target ← within netlist.tasks.length write.node
  return net.tristate && target ∈ reach (fun node => table.getD node []) netlist.tasks.length node

/-- The node of a task, whose edges lead to other nodes. -/
def nodeOf (netlist : Netlist) (ordered : List (List Edge)) (reads : List (Access × ReadMode))
    (deferral : List (Access × Bool)) (task : Task) (index : Nat) : Guarded Node := do
  let own ← entry ordered index
  let edges := (own ++ writeEdges deferral netlist.phaseTasks.length index).eraseDups
  let _ ← edges.mapM fun edge => within netlist.tasks.length edge.target
  let crossing := reads.any fun (access, mode) => mode = .crossing && access.node = index
  return { task, edges, crossing }

/-- The dependency graph of a netlist. -/
def graph (netlist : Netlist) : Guarded Graph := do
  let tasks := netlist.tasks
  let reads ← reads netlist
  let writes ← writes netlist
  let ordered := (List.range tasks.length).map (orderEdges tasks reads)
  let table ← (List.range tasks.length).mapM (followed netlist ordered writes)
  let deferral ← writes.mapM fun write => do return (write, ← isDeferred netlist table write)
  let nodes ← tasks.zipIdx.mapM fun pair => nodeOf netlist ordered reads deferral pair.1 pair.2
  return { nodes }

end Guarded

/-- Every port that is bound is bound to a net that exists. -/
def Netlist.Bound (netlist : Netlist) : Prop :=
  ∀ {ref : PortRef} {port : Port} {index : Nat}, netlist.port? ref = some port →
    port.net = some index → index < netlist.nets.length

theorem Netlist.Wired.isBound {netlist : Netlist} (h : netlist.Wired) : netlist.Bound := by
  intro ref port index hport hbound
  obtain ⟨net, hnet, -⟩ := h.known hport hbound
  exact (List.getElem?_eq_some_iff.mp hnet).1

namespace Guarded

variable {netlist : Netlist} {ref : PortRef} {part position index : Nat}

/-! ## Making the graph meets no trap -/

theorem boundNet_eq (h : netlist.Bound) (side : Net → List PortRef)
    (href : ref.part < netlist.parts.length) : boundNet netlist side ref =
      .ok (((netlist.port? ref).bind (·.net)).filter fun net =>
        netlist.nets[net]?.any fun net => ref ∈ side net) := by
  have hpart := List.getElem?_eq_getElem href
  generalize netlist.parts[ref.part] = part at hpart
  rw [boundNet, entry_eq hpart, ok_bind, Netlist.port?, hpart, Option.bind_some]
  cases hbound : part.ports[ref.port]?.bind (·.net) with
  | none => rfl
  | some index =>
    obtain ⟨port, hport, hindex⟩ := Option.bind_eq_some_iff.mp hbound
    have hlt := h (Netlist.port_of_part hpart hport) hindex
    have hnet := List.getElem?_eq_getElem hlt
    dsimp only
    rw [entry_eq hnet, ok_bind]
    by_cases hlisted : ref ∈ side netlist.nets[index] <;> simp [hnet, hlisted, Option.filter]

theorem drivesFrom_eq (h : netlist.Bound) {placed : Part}
    (hpart : netlist.parts[part]? = some placed) (hposition : position ≤ placed.phases.length)
    (net : Nat) : drivesFrom netlist part position net =
      .ok (netlist.drivesFrom part position net) := by
  have hlt := (List.getElem?_eq_some_iff.mp hpart).1
  have hdriven : ∀ phase ∈ (placed.phases.drop position).filter (!·.latch),
      phase.writes.mapM (fun port => boundNet netlist (·.sources) ⟨part, port⟩) =
        .ok (phase.writes.map fun port => netlist.drivenNet? ⟨part, port⟩) :=
    fun phase _ => mapM_eq fun port _ => boundNet_eq h _ hlt
  rw [drivesFrom, entry_eq hpart, ok_bind, within_eq (Nat.lt_succ_of_le hposition), ok_bind]
  dsimp only
  rw [join_eq hdriven, ok_bind, Netlist.drivesFrom, List.getD_eq_getElem?_getD, hpart]
  refine congrArg Except.ok (Bool.eq_iff_iff.mpr ?_)
  simp only [decide_eq_true_eq, List.mem_flatMap, List.mem_map, List.any_eq_true, Option.getD_some]

/-- A phase of the graph is one of a part. -/
theorem part_of_phaseNodes {node : Nat} {phase : Phase}
    (h : (node, part, position, phase) ∈ netlist.phaseNodes) : ∃ placed,
      netlist.parts[part]? = some placed ∧ placed.phases[position]? = some phase :=
  Option.bind_eq_some_iff.mp (Netlist.mem_phaseNodes.mp h).2

theorem phaseNodes_eq (netlist : Netlist) : phaseNodes netlist = .ok netlist.phaseNodes := by
  refine gather_eq fun pair hpair => ?_
  obtain ⟨task, node⟩ := pair
  have htask := List.mem_of_getElem? (List.mem_zipIdx_iff_getElem?.mp hpair)
  obtain ⟨part, position, phase, hphase, rfl⟩ := Netlist.mem_phaseTasks.mp htask
  obtain ⟨placed, hpart, hfound⟩ := Option.bind_eq_some_iff.mp hphase.1
  dsimp only
  rw [entry_eq hpart, ok_bind, entry_eq hfound, hpart, Option.bind_some, hfound]
  rfl

theorem writes_eq (h : netlist.Bound) : writes netlist = .ok netlist.writes := by
  rw [writes, phaseNodes_eq, ok_bind]
  refine join_eq ?_
  rintro ⟨node, part, position, phase⟩ hnode
  obtain ⟨placed, hpart, -⟩ := part_of_phaseNodes hnode
  refine gather_eq fun port _ => ?_
  rw [boundNet_eq h _ (List.getElem?_eq_some_iff.mp hpart).1]
  rfl

theorem reads_eq (h : netlist.Bound) : reads netlist = .ok netlist.reads := by
  rw [reads, phaseNodes_eq, ok_bind]
  refine join_eq ?_
  rintro ⟨node, part, position, phase⟩ hnode
  obtain ⟨placed, hpart, hphase⟩ := part_of_phaseNodes hnode
  have hposition := Nat.le_of_lt (List.getElem?_eq_some_iff.mp hphase).1
  refine gather_eq fun port _ => ?_
  rw [boundNet_eq h _ (List.getElem?_eq_some_iff.mp hpart).1, ok_bind, Netlist.readNet?]
  cases ((netlist.port? ⟨part, port⟩).bind (·.net)).filter fun net =>
      netlist.nets[net]?.any fun net => (⟨part, port⟩ : PortRef) ∈ net.targets with
  | none => rfl
  | some net =>
    dsimp only
    rw [drivesFrom_eq h hpart hposition]
    rfl

theorem getElem?_ordered {node : Nat} (hnode : node < netlist.tasks.length) :
    ((List.range netlist.tasks.length).map (orderEdges netlist.tasks netlist.reads))[node]? =
      some (orderEdges netlist.tasks netlist.reads node) := by
  rw [List.getElem?_map, List.getElem?_range hnode, Option.map_some]

theorem followed_eq {node : Nat} (hnode : node < netlist.tasks.length) :
    followed netlist ((List.range netlist.tasks.length).map (orderEdges netlist.tasks netlist.reads))
      netlist.writes node = .ok (netlist.follows node) := by
  rw [followed, entry_eq (getElem?_ordered hnode), ok_bind]
  exact mapM_eq_self fun next hnext => within_eq (Netlist.lt_of_follows hnext)

theorem getD_follows (netlist : Netlist) (node : Nat) :
    ((List.range netlist.tasks.length).map netlist.follows).getD node [] = netlist.follows node := by
  rw [List.getD_eq_getElem?_getD, List.getElem?_map]
  by_cases hnode : node < netlist.tasks.length
  · rw [List.getElem?_range hnode]
    rfl
  · have hnone := Netlist.follows_eq_getD netlist node
    rw [List.getD_eq_getElem?_getD, List.getElem?_eq_none (by simpa using hnode)] at hnone
    rw [List.getElem?_eq_none (by simpa using hnode), ← hnone]
    rfl

theorem isDeferred_eq {write : Access} (hwrite : write ∈ netlist.writes) :
    isDeferred netlist ((List.range netlist.tasks.length).map netlist.follows) write =
      .ok (Breadboard.isDeferred netlist netlist.follows netlist.tasks.length
        netlist.phaseTasks.length write) := by
  obtain ⟨part, position, htask, phase, -, -, hdriven⟩ := Netlist.mem_writes.mp hwrite
  have hnet := List.getElem?_eq_getElem (Netlist.drivenNet_lt hdriven)
  have hnode := (List.getElem?_eq_some_iff.mp (Graph.net_of_write hwrite)).1
  rw [isDeferred, entry_eq hnet, ok_bind, within_eq hnode, ok_bind,
    within_eq (Netlist.lt_of_writes hwrite), ok_bind, Breadboard.isDeferred, hnet, Option.any_some]
  simp only [getD_follows]
  rfl

theorem nodeOf_eq {task : Task} (htask : netlist.tasks[index]? = some task) :
    nodeOf netlist ((List.range netlist.tasks.length).map (orderEdges netlist.tasks netlist.reads))
      netlist.reads netlist.deferral task index = .ok ((Graph.ofNetlist netlist).node index) := by
  have hindex := (List.getElem?_eq_some_iff.mp htask).1
  have hnode : (Graph.ofNetlist netlist).node index =
      { task
        edges := (orderEdges netlist.tasks netlist.reads index ++
          writeEdges netlist.deferral netlist.phaseTasks.length index).eraseDups
        crossing := netlist.reads.any fun (access, mode) =>
          mode = .crossing && access.node = index } := by
    simp [Graph.node, Graph.nodes_ofNetlist, List.getD_eq_getElem?_getD, List.getElem?_zipIdx,
      htask, List.getElem?_range hindex]
  have hedges : ∀ edge ∈ ((Graph.ofNetlist netlist).node index).edges,
      within netlist.tasks.length edge.target = .ok edge.target := fun edge hedge => by
    have hlt := Graph.closed_ofNetlist netlist index edge hedge
    rw [Graph.size_ofNetlist] at hlt
    exact within_eq hlt
  rw [hnode] at hedges ⊢
  rw [nodeOf, entry_eq (getElem?_ordered hindex), ok_bind]
  dsimp only
  rw [mapM_eq hedges]
  rfl

theorem graph_eq (h : netlist.Bound) : graph netlist = .ok (Graph.ofNetlist netlist) := by
  let ordered := (List.range netlist.tasks.length).map (orderEdges netlist.tasks netlist.reads)
  have htable : (List.range netlist.tasks.length).mapM (followed netlist ordered netlist.writes) =
      .ok ((List.range netlist.tasks.length).map netlist.follows) :=
    mapM_eq fun node hnode => followed_eq (List.mem_range.mp hnode)
  have hdeferral : netlist.writes.mapM (fun write => do
      return (write, ← isDeferred netlist ((List.range netlist.tasks.length).map netlist.follows)
        write)) = .ok netlist.deferral :=
    mapM_eq fun write hwrite => by rw [isDeferred_eq hwrite]; rfl
  have hnodes : netlist.tasks.zipIdx.mapM (fun pair =>
      nodeOf netlist ordered netlist.reads netlist.deferral pair.1 pair.2) =
        .ok (netlist.tasks.zipIdx.map fun pair => (Graph.ofNetlist netlist).node pair.2) :=
    mapM_eq fun pair hpair => nodeOf_eq (List.mem_zipIdx_iff_getElem?.mp hpair)
  have hall : (netlist.tasks.zipIdx.map fun pair => (Graph.ofNetlist netlist).node pair.2) =
      (Graph.ofNetlist netlist).nodes := by
    refine List.ext_getElem? fun index => ?_
    have hlength : (Graph.ofNetlist netlist).nodes.length = netlist.tasks.length :=
      Graph.size_ofNetlist
    by_cases hindex : index < netlist.tasks.length
    · have hnode := List.getElem?_eq_getElem (hlength.symm ▸ hindex)
      simp [Graph.node, List.getD_eq_getElem?_getD, hnode, hindex]
    · simp [hindex, hlength]
  rw [graph, reads_eq h, ok_bind, writes_eq h, ok_bind]
  dsimp only
  rw [htable, ok_bind, hdeferral, ok_bind, hnodes, ok_bind, hall]
  rfl

end Guarded

end Breadboard
