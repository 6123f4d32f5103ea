import Breadboard.Proofs.GuardedGraph
import Breadboard.Proofs.Loops

/-!
# Scheduling meets no trap

`Guarded.compile` orders the work of a netlist as `compile` does. The tables of the
graph and of the placement have an entry for each node, those of the blocks one for each
block, and every index into one of them is checked. A node without a block, a block
before the first one, and a choice from no node are traps. None is met for a netlist
whose ports are bound to its nets (`Guarded.compile_eq`): all edges lead to nodes
(`Graph.Closed`), and a loop is always broken at a node that is left.
-/

namespace Breadboard

namespace Guarded

/-! ## Placing the nodes -/

/-- Queue a node if it is ready and was neither queued nor placed. -/
def enqueue (graph : Graph) (placement : Placement) (node : Nat) : Guarded Placement := do
  let found ← entry graph.nodes node
  if placement.placed node || placement.queued node || !placement.isReady graph node then
    return placement
  else if found.crossing then
    return { placement with deferred := placement.deferred ++ [node] }
  else
    return { placement with ready := placement.ready ++ [node] }

/-- The nodes on a plain cycle through `node`, from the table of what each one reaches. -/
def cycleOf (reached : List (List Nat)) (node : Nat) : Guarded (List Nat) := do
  keep (fun other => do return node ∈ (← entry reached other)) (← entry reached node)

/-- Choose the node to place next. Where a loop has to be broken, there is one to choose. -/
def next (graph : Graph) (reached : List (List Nat)) (placement : Placement) :
    Guarded (Nat × Placement) :=
  match placement.ready, placement.deferred with
  | node :: ready, _ => return (node, { placement with ready })
  | [], node :: deferred => return (node, { placement with deferred })
  | [], [] => do
    let left := (List.range graph.size).filter (!placement.placed ·)
    match left.find? fun node => (placement.outstanding graph node).isEmpty with
    | some node => return (node, placement)
    | none =>
      let cyclic ← keep (fun node => do return 1 < (← cycleOf reached node).length) left
      let candidates := if cyclic.isEmpty then left else cyclic
      match leastBy (fun node => (placement.outstanding graph node).length) candidates with
      | some node =>
        let members := (← cycleOf reached node).filter (!placement.placed ·)
        return (node, { placement with loops := placement.loops ++ [members] })
      | none => .error .choice

/-- The dynamic nodes that a node waits for. -/
def waitsOf (graph : Graph) (placement : Placement) (node : Nat) : Guarded (List Nat) := do
  let before ← gather (fun source => do
      return placement.slot? (← within graph.size source)) (graph.predecessors .plain node)
  let own := graph.isDynamic node
  return (List.range graph.size).filter fun dynamic =>
    (own && dynamic = node) || before.any fun slot => dynamic ∈ slot.waits

/-- Put a node behind the ones placed so far, into the last block when all that start one
are counted. -/
def put (graph : Graph) (placement : Placement) (node : Nat) : Guarded Placement := do
  let found ← entry graph.nodes node
  let waits ← waitsOf graph placement node
  let fresh :=
    match placement.slots.getLast? with
    | none => true
    | some last => graph.isDynamic node || found.crossing || last.waits ≠ waits
  let block ← sub (if fresh then placement.blockCount + 1 else placement.blockCount) 1
  let placement := { placement with slots := placement.slots ++ [⟨node, block, waits⟩] }
  (found.edges.map (·.target)).foldlM (enqueue graph) placement

/-- Place `count` more nodes. -/
def advance (graph : Graph) (reached : List (List Nat)) :
    (count : Nat) → Placement → Guarded Placement
  | 0, placement => return placement
  | count + 1, placement => do
    let (node, placement) ← next graph reached placement
    advance graph reached count (← put graph placement node)

/-- Place all nodes of a graph. -/
def placeNodes (graph : Graph) : Guarded Placement := do
  let start ← (List.range graph.size).foldlM (enqueue graph) {}
  advance graph graph.reached graph.size start

/-! ## Blocks -/

/-- The block of a node. -/
def blockOf (placement : Placement) (node : Nat) : Guarded Nat := do
  match placement.blockOf? node with
  | some block => within placement.blockCount block
  | none => .error .index

/-- The other blocks that have to finish before a block. -/
def predecessors (graph : Graph) (placement : Placement) (block : Nat) : Guarded (List Nat) := do
  let found ← join (fun node => ((graph.predecessors .plain node).filter fun source =>
      placement.position source < placement.position node).mapM (blockOf placement))
    (placement.members block)
  return (List.range placement.blockCount).filter fun other => other ≠ block && other ∈ found

/-- The counter that an edge out of a block brings down. -/
def decrementOf (graph : Graph) (placement : Placement) (block : Nat) (edge : Edge) :
    Guarded (Option Decrement) := do
  let target ← blockOf placement edge.target
  let trigger? : Option Trigger :=
    match edge.kind with
    | .plain => none
    | .oneOf => some .fired
    | .drive port => some (.driving port)
  match trigger? with
  | none => return none
  | some trigger =>
    return if target = block then none
      else some ⟨target, placement.counterOf graph target edge.target, trigger⟩

/-- All blocks. Each node has one of them. -/
def blocks (graph : Graph) (placement : Placement) : Guarded (List Block) := do
  let _ ← placement.order.mapM (blockOf placement)
  let table ← (List.range placement.blockCount).mapM (predecessors graph placement)
  table.zipIdx.mapM fun (before, block) => do
    let members := placement.members block
    let steps ← members.mapM fun node => do
      let found ← entry graph.nodes node
      return (⟨found.task, ← gather (decrementOf graph placement block) found.edges⟩ : Step)
    let successors ← keep (fun other => do return block ∈ (← entry table other))
      (List.range placement.blockCount)
    let choices := (members.filter graph.isDynamic).map fun node =>
      Counter.oneOf (graph.dynamicDegree node)
    return ({ steps, counters := .plain before.length :: choices, successors } : Block)

/-- Every latch phase, by the first step of its part. -/
def latchSteps (netlist : Netlist) (blocks : List Block) : Guarded (List (Nat × Nat)) := do
  let stepped := (blocks.flatMap (·.steps)).filterMap fun step =>
    match step.task with
    | .phase part _ => some part
    | .net _ => none
  join (fun part => do
      let placed ← entry netlist.parts part
      return placed.phases.zipIdx.filterMap fun (phase, position) =>
        if phase.latch then some (part, position) else none)
    (stepped ++ List.range netlist.parts.length).eraseDups

/-! ## The schedule -/

def taskName (netlist : Netlist) : Task → Guarded String
  | .phase part phase => do return (← partPath netlist part).text ++ "#" ++ toString phase
  | .net net => do return (← netPath netlist net).text

/-- The report of a broken loop. -/
def loopDiagnostic (netlist : Netlist) (graph : Graph) (members : List Nat) :
    Guarded Diagnostic := do
  let names ← members.mapM fun node => do taskName netlist (← entry graph.nodes node).task
  return .combinationalLoop (names.mergeSort fun a b => decide (a ≤ b))

/-- Order the work of a netlist, all of which can be named. -/
def compile (netlist : Netlist) : Guarded Schedule := do
  let graph ← graph netlist
  let placement ← placeNodes graph
  let diagnostics ← placement.loops.mapM (loopDiagnostic netlist graph)
  let blocks ← blocks graph placement
  let latchSteps ← latchSteps netlist blocks
  let _ ← (blocks.flatMap (·.steps)).mapM fun step => taskName netlist step.task
  return { blocks, latchSteps, diagnostics }

variable {netlist : Netlist} {graph : Graph} {placement after : Placement} {node block : Nat}

/-! ## Placing meets no trap -/

theorem entry_nodes (hnode : node < graph.size) :
    entry graph.nodes node = .ok (graph.node node) :=
  entry_eq_getD hnode default

theorem enqueue_eq (hnode : node < graph.size) :
    enqueue graph placement node = .ok (placement.enqueue graph node) := by
  rw [enqueue, entry_nodes hnode, ok_bind, Placement.enqueue]
  split
  · rfl
  · split <;> rfl

theorem foldlM_enqueue {nodes : List Nat} (hnodes : ∀ node ∈ nodes, node < graph.size) :
    nodes.foldlM (enqueue graph) placement =
      .ok (nodes.foldl (Placement.enqueue graph) placement) :=
  (foldlM_eq (fun _ => True) (fun _ node hnode _ => ⟨enqueue_eq (hnodes node hnode), trivial⟩)
    trivial).1

theorem lt_of_reached (hclosed : graph.Closed) (hnode : node < graph.size) {other : Nat}
    (hother : other ∈ graph.reached.getD node []) : other < graph.size := by
  rw [Graph.getD_reached hnode, mem_reach_iff hnode fun _ _ => hclosed.lt] at hother
  exact List.mem_range.mp (hother.mem_of_closed (List.mem_range.mpr hnode)
    fun _ _ _ htarget => List.mem_range.mpr (hclosed.lt htarget))

theorem cycleOf_eq (hclosed : graph.Closed) (hnode : node < graph.size) :
    cycleOf graph.reached node = .ok (Placement.cycleOf graph.reached node) := by
  have hlength : graph.reached.length = graph.size := by simp [Graph.reached]
  rw [cycleOf, entry_eq_getD (hlength ▸ hnode) [], ok_bind]
  refine keep_eq fun other hother => ?_
  rw [entry_eq_getD (hlength ▸ lt_of_reached hclosed hnode hother) []]
  rfl

/-- The broken loops are made of nodes that exist. -/
def Looped (graph : Graph) (placement : Placement) : Prop :=
  ∀ members ∈ placement.loops, ∀ node ∈ members, node < graph.size

/-- A node that can be chosen is chosen without a trap. -/
theorem next_eq (hclosed : graph.Closed) (hlooped : Looped graph placement)
    (hnext : placement.next graph graph.reached = some (node, after)) :
    next graph graph.reached placement = .ok (node, after) ∧ Looped graph after := by
  let left := (List.range graph.size).filter (!placement.placed ·)
  have hleft : ∀ other ∈ left, other < graph.size :=
    fun other hother => List.mem_range.mp (List.mem_filter.mp hother).1
  have hcyclic : keep (fun node => do return 1 < (← cycleOf graph.reached node).length) left =
      .ok (left.filter fun node => 1 < (Placement.cycleOf graph.reached node).length) :=
    keep_eq fun other hother => by
      rw [cycleOf_eq hclosed (hleft other hother)]
      rfl
  unfold Placement.next at hnext
  unfold next
  cases hready : placement.ready with
  | cons first ready =>
    rw [hready] at hnext
    obtain ⟨rfl, rfl⟩ := Prod.mk.inj (Option.some.inj hnext)
    exact ⟨rfl, hlooped⟩
  | nil =>
    cases hdeferred : placement.deferred with
    | cons first deferred =>
      rw [hready, hdeferred] at hnext
      obtain ⟨rfl, rfl⟩ := Prod.mk.inj (Option.some.inj hnext)
      exact ⟨rfl, hlooped⟩
    | nil =>
      rw [hready, hdeferred] at hnext
      dsimp only at hnext ⊢
      cases hfree : left.find? fun node => (placement.outstanding graph node).isEmpty with
      | some free =>
        rw [hfree] at hnext
        obtain ⟨rfl, rfl⟩ := Prod.mk.inj (Option.some.inj hnext)
        exact ⟨rfl, hlooped⟩
      | none =>
        rw [hfree] at hnext
        obtain ⟨chosen, hchosen, heq⟩ := Option.map_eq_some_iff.mp hnext
        obtain ⟨rfl, rfl⟩ := Prod.mk.inj heq
        have hbound : chosen < graph.size := by
          have hmem := leastBy_mem hchosen
          split at hmem
          · exact hleft chosen hmem
          · exact hleft chosen (List.mem_filter.mp hmem).1
        dsimp only
        rw [hcyclic, ok_bind, hchosen]
        dsimp only
        rw [cycleOf_eq hclosed hbound]
        refine ⟨rfl, fun members hmembers other hother => ?_⟩
        rcases List.mem_append.mp hmembers with hmembers | hmembers
        · exact hlooped members hmembers other hother
        · rw [List.mem_singleton.mp hmembers] at hother
          exact lt_of_reached hclosed hbound
            (List.mem_filter.mp (List.mem_filter.mp hother).1).1

theorem waitsOf_eq (graph : Graph) (placement : Placement) (node : Nat) :
    waitsOf graph placement node = .ok (placement.waitsOf graph node) := by
  have hbefore : gather (fun source => do return placement.slot? (← within graph.size source))
      (graph.predecessors .plain node) =
        .ok ((graph.predecessors .plain node).filterMap placement.slot?) :=
    gather_eq fun source hsource => by
      rw [within_eq (Graph.mem_predecessors.mp hsource).1]
      rfl
  rw [waitsOf, hbefore]
  rfl

theorem put_eq (hclosed : graph.Closed) (hnode : node < graph.size) :
    put graph placement node = .ok (placement.put graph node) := by
  have htargets : ∀ target ∈ (graph.edges node).map (·.target), target < graph.size := by
    intro target htarget
    obtain ⟨edge, hedge, rfl⟩ := List.mem_map.mp htarget
    exact hclosed node edge hedge
  rw [put, entry_nodes hnode, ok_bind, waitsOf_eq, ok_bind, Placement.put, Placement.blockCount]
  cases placement.slots.getLast? with
  | none => exact foldlM_enqueue htargets
  | some last =>
    dsimp only
    split
    · next hfresh =>
      rw [sub_eq (Nat.le_add_left ..), ok_bind]
      exact foldlM_enqueue htargets
    · rw [sub_eq (Nat.le_add_left ..), ok_bind]
      exact foldlM_enqueue htargets

/-- All nodes that are left can be placed one after the other. -/
theorem advance_eq (hclosed : graph.Closed) (count : Nat) : ∀ {placement : Placement},
    placement.Sound graph → Looped graph placement →
    placement.order.length + count ≤ graph.size →
    advance graph graph.reached count placement =
      .ok (placement.advance graph graph.reached count) ∧
        Looped graph (placement.advance graph graph.reached count) := by
  induction count with
  | zero => exact fun _ hlooped _ => ⟨rfl, hlooped⟩
  | succ count ih =>
    intro placement h hlooped hcount
    have hleft : placement.order.length < graph.size := by omega
    obtain ⟨⟨node, after⟩, hplain⟩ :=
      Option.isSome_iff_exists.mp (Placement.next_isSome graph.reached hleft)
    obtain ⟨hnext, hafter⟩ := next_eq hclosed hlooped hplain
    obtain ⟨hchosen, hsound⟩ := h.next hplain
    obtain ⟨hput, horder⟩ := hchosen.put hclosed hsound
    have hlength := congrArg List.length horder
    rw [List.length_append, List.length_singleton] at hlength
    have hloops : Looped graph (after.put graph node) := by
      rw [Looped, Placement.loops_put hsound]
      exact hafter
    rw [advance, hnext, ok_bind, Placement.advance, hplain]
    dsimp only
    rw [put_eq hclosed hchosen.bound, ok_bind]
    exact ih hput hloops (by omega)

theorem placeNodes_eq (hclosed : graph.Closed) :
    placeNodes graph = .ok graph.place ∧ Looped graph graph.place := by
  have hnodes : ∀ node ∈ List.range graph.size, node < graph.size := fun _ => List.mem_range.mp
  obtain ⟨hsound, hslots⟩ := (Placement.sound_empty graph).foldl_enqueue hnodes
  have hlooped : Looped graph ((List.range graph.size).foldl (Placement.enqueue graph) {}) := by
    rw [Looped, Placement.loops_foldl_enqueue]
    exact fun _ hmembers => nomatch hmembers
  rw [placeNodes, foldlM_enqueue hnodes, ok_bind]
  exact advance_eq hclosed _ hsound hlooped (by rw [Placement.order, hslots]; simp)

/-! ## Making the blocks meets no trap -/

section

variable (hclosed : graph.Closed)

include hclosed

theorem blockOf_eq (hnode : node < graph.size) : ∃ block,
    graph.place.blockOf? node = some block ∧ blockOf graph.place node = .ok block := by
  have hmem := (Graph.order_place_perm hclosed).mem_iff.mpr (List.mem_range.mpr hnode)
  obtain ⟨slot, hslot, rfl⟩ := List.mem_map.mp hmem
  have hsound := (Graph.sound_place hclosed).1
  have hfound : graph.place.blockOf? slot.node = some slot.block := by
    rw [Placement.blockOf?, Placement.slot?_of_mem hsound hslot, Option.map_some]
  refine ⟨slot.block, hfound, ?_⟩
  rw [blockOf, hfound]
  exact within_eq (Placement.block_lt hsound hslot)

theorem lt_of_members (hnode : node ∈ graph.place.members block) : node < graph.size := by
  obtain ⟨slot, hslot, -, rfl⟩ := Placement.mem_members.mp hnode
  exact List.mem_range.mp
    ((Graph.order_place_perm hclosed).mem_iff.mp (List.mem_map_of_mem hslot))

theorem mapM_blockOf {nodes : List Nat} (hnodes : ∀ node ∈ nodes, node < graph.size) :
    nodes.mapM (blockOf graph.place) = .ok (nodes.filterMap graph.place.blockOf?) := by
  induction nodes with
  | nil => rfl
  | cons node nodes ih =>
    obtain ⟨block, hfound, hblock⟩ := blockOf_eq hclosed (hnodes node (List.mem_cons_self ..))
    rw [List.mapM_cons, hblock, ok_bind,
      ih fun other hother => hnodes other (List.mem_cons_of_mem _ hother), ok_bind,
      List.filterMap_cons_some hfound]
    rfl

theorem predecessors_eq (block : Nat) :
    predecessors graph graph.place block = .ok (graph.place.predecessors graph block) := by
  have hfound : ∀ node ∈ graph.place.members block,
      ((graph.predecessors .plain node).filter fun source =>
        graph.place.position source < graph.place.position node).mapM (blockOf graph.place) =
      .ok (((graph.predecessors .plain node).filter fun source =>
        graph.place.position source < graph.place.position node).filterMap
          graph.place.blockOf?) :=
    fun node _ => mapM_blockOf hclosed fun source hsource =>
      (Graph.mem_predecessors.mp (List.mem_filter.mp hsource).1).1
  rw [predecessors, join_eq hfound]
  rfl

theorem decrementOf_eq {edge : Edge} (hedge : edge ∈ graph.edges node) (block : Nat) :
    decrementOf graph graph.place block edge =
      .ok (graph.place.decrement? graph block edge) := by
  obtain ⟨target, hfound, htarget⟩ := blockOf_eq hclosed (hclosed node edge hedge)
  rw [decrementOf, htarget, ok_bind, Placement.decrement?, hfound]
  obtain ⟨_, _ | _ | _⟩ := edge <;> rfl

theorem blocks_eq : blocks graph graph.place = .ok (graph.place.blocks graph) := by
  let table := (List.range graph.place.blockCount).map (graph.place.predecessors graph)
  have hall : ∀ node ∈ graph.place.order, node < graph.size := fun node hnode =>
    List.mem_range.mp ((Graph.order_place_perm hclosed).mem_iff.mp hnode)
  have htable : (List.range graph.place.blockCount).mapM (predecessors graph graph.place) =
      .ok table := mapM_eq fun block _ => predecessors_eq hclosed block
  have hsteps : ∀ block, (graph.place.members block).mapM (fun node => do
      let found ← entry graph.nodes node
      return (⟨found.task, ← gather (decrementOf graph graph.place block) found.edges⟩ : Step)) =
      .ok ((graph.place.members block).map fun node =>
        ⟨graph.task node, (graph.edges node).filterMap (graph.place.decrement? graph block)⟩) :=
    fun block => mapM_eq fun node hnode => by
      have hdecrements : gather (decrementOf graph graph.place block) (graph.node node).edges =
          .ok ((graph.edges node).filterMap (graph.place.decrement? graph block)) :=
        gather_eq fun edge hedge => decrementOf_eq hclosed hedge block
      rw [entry_nodes (lt_of_members hclosed hnode), ok_bind, hdecrements]
      rfl
  have hsuccessors : ∀ block : Nat, keep (fun other => do return block ∈ (← entry table other))
      (List.range graph.place.blockCount) = .ok ((List.range graph.place.blockCount).filter
        fun other => block ∈ table.getD other []) :=
    fun block => keep_eq fun other hother => by
      have hlength : table.length = graph.place.blockCount := by simp [table]
      rw [entry_eq_getD (hlength ▸ List.mem_range.mp hother) []]
      rfl
  rw [blocks, mapM_blockOf hclosed hall, ok_bind, htable, ok_bind]
  refine mapM_eq fun pair _ => ?_
  dsimp only
  rw [hsteps, ok_bind, hsuccessors]
  rfl

end

/-! ## The schedule is found without a trap -/

theorem latchSteps_eq {blocks : List Block} (hparts : ∀ step ∈ blocks.flatMap (·.steps),
    ∀ part position, step.task = .phase part position → part < netlist.parts.length) :
    latchSteps netlist blocks = .ok (Breadboard.latchSteps netlist blocks) := by
  refine join_eq fun part hpart => ?_
  have hlt : part < netlist.parts.length := by
    rcases List.mem_append.mp (List.mem_eraseDups.mp hpart) with hstepped | hrange
    · obtain ⟨step, hstep, hfound⟩ := List.mem_filterMap.mp hstepped
      cases htask : step.task with
      | net index => simp [htask] at hfound
      | phase found position =>
        simp only [htask, Option.some.injEq] at hfound
        exact hfound ▸ hparts step hstep found position htask
    · exact List.mem_range.mp hrange
  rw [entry_eq_getD hlt default]
  rfl

/-- Every task has a name. -/
theorem taskName_eq (h : netlist.Housed) {task : Task} (htask : task ∈ netlist.tasks) :
    taskName netlist task = .ok (netlist.taskName task) := by
  rcases Netlist.mem_tasks.mp htask with
    ⟨part, position, phase, hphase, rfl⟩ | ⟨index, hindex, rfl⟩
  · rw [taskName, partPath_eq h (Netlist.part_lt hphase.1)]
    rfl
  · rw [taskName, netPath_eq h hindex]
    rfl

theorem task_mem (hnode : node < (Graph.ofNetlist netlist).size) :
    (Graph.ofNetlist netlist).task node ∈ netlist.tasks := by
  have hmem := List.mem_map_of_mem (f := (Graph.ofNetlist netlist).task)
    (List.mem_range.mpr hnode)
  rwa [Graph.map_task_ofNetlist] at hmem

theorem loopDiagnostic_eq (h : netlist.Housed) {members : List Nat}
    (hmembers : ∀ node ∈ members, node < (Graph.ofNetlist netlist).size) :
    loopDiagnostic netlist (Graph.ofNetlist netlist) members =
      .ok (Breadboard.loopDiagnostic netlist (Graph.ofNetlist netlist) members) := by
  have hnames : members.mapM (fun node => do
      taskName netlist (← entry (Graph.ofNetlist netlist).nodes node).task) =
        .ok (members.map fun node => netlist.taskName ((Graph.ofNetlist netlist).task node)) :=
    mapM_eq fun node hnode => by
      rw [entry_nodes (hmembers node hnode), ok_bind]
      exact taskName_eq h (task_mem (hmembers node hnode))
  rw [loopDiagnostic, hnames]
  rfl

/-- The work of a netlist is ordered without a trap. -/
theorem compile_eq (h : netlist.Housed) (hbound : netlist.Bound) :
    compile netlist = .ok (Breadboard.compile netlist) := by
  have hclosed := Graph.closed_ofNetlist netlist
  obtain ⟨hplace, hlooped⟩ := placeNodes_eq hclosed
  have hloops : (Graph.ofNetlist netlist).place.loops.mapM
      (loopDiagnostic netlist (Graph.ofNetlist netlist)) =
        .ok ((Graph.ofNetlist netlist).place.loops.map
          (Breadboard.loopDiagnostic netlist (Graph.ofNetlist netlist))) :=
    mapM_eq fun members hmembers => loopDiagnostic_eq h (hlooped members hmembers)
  have htasks : ∀ step ∈ (Breadboard.compile netlist).blocks.flatMap (·.steps),
      step.task ∈ netlist.tasks := fun step hstep =>
    (Netlist.tasks_compile_perm netlist).mem_iff.mp (List.mem_map_of_mem hstep)
  have hlatch := @latchSteps_eq netlist (Breadboard.compile netlist).blocks
    fun step hstep part position htask => by
      have hmem := htasks step hstep
      rw [htask] at hmem
      obtain ⟨_, _, _, hphase, heq⟩ | ⟨_, _, heq⟩ := Netlist.mem_tasks.mp hmem
      · cases heq
        exact Netlist.part_lt hphase.1
      · cases heq
  have hnames := mapM_eq fun step hstep => taskName_eq h (htasks step hstep)
  rw [Netlist.blocks_compile] at hlatch hnames
  rw [compile, graph_eq hbound, ok_bind, hplace, ok_bind, hloops, ok_bind, blocks_eq hclosed,
    ok_bind, hlatch, ok_bind, hnames]
  rfl

end Guarded

end Breadboard
