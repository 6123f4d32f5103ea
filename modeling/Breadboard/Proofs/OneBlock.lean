import Breadboard.Proofs.Thinned
import Breadboard.Proofs.Static
import Breadboard.Proofs.Firing
import Breadboard.Proofs.Cover

/-!
# Static circuits run in one block

In a static circuit every edge of the dependency graph is plain
(`Netlist.Static.straight`), so that no node opens a block of its own. All tasks
stand in one block then, and a settle runs them in the order in which they were placed
(`Netlist.trace_of_straight`), from whatever state it begins.
-/

namespace Breadboard

/-! ## Plain edges -/

theorem writeEdges_awaited (writes : List Access) (phases node : Nat) :
    writeEdges (writes.map (·, false)) phases node =
      (writes.filter (·.node = node)).map fun write =>
        (⟨phases + write.net, .plain⟩ : Edge) := by
  simp [writeEdges, List.filter_map, List.flatMap_map, Function.comp_def, ← List.map_eq_flatMap]

namespace Netlist.Static

variable {netlist : Netlist} (h : netlist.Static)

include h

/-- Every read is waited for. -/
theorem mode_eq {read : Access} {mode : ReadMode} (hread : (read, mode) ∈ netlist.reads) :
    mode = .waiting := by
  obtain ⟨part, position, -, hreads⟩ := mem_reads.mp hread
  have huncrossed := h.uncrossed hreads
  obtain ⟨phase, hphase, hport, hnet, rfl⟩ := hreads
  have hanyOf : read.port ∉ phase.anyOf := fun hmem => by
    obtain ⟨found, hfound, hbound⟩ :=
      Option.bind_eq_some_iff.mp (Option.filter_eq_some_iff.mp hnet).1
    have hunbound := h.anyOf hphase hmem hfound
    rw [Port.bound, hbound] at hunbound
    cases hunbound
  rw [if_neg hanyOf, huncrossed]
  rfl

/-- No write is put off. -/
theorem deferral_eq : netlist.deferral = netlist.writes.map (·, false) := by
  refine List.map_congr_left fun write hwrite => congrArg (write, ·) ?_
  obtain ⟨part, position, htask, hwrites⟩ := mem_writes.mp hwrite
  rw [← Bool.not_eq_true, isDeferred_iff hwrite htask]
  exact h.deferred hwrites

/-- A net leads to the phases that read it, and a phase to the next one of its part and
to the nets that it writes. -/
theorem edges_eq {node : Nat} {task : Task} (htask : netlist.tasks[node]? = some task) :
    (Graph.ofNetlist netlist).edges node =
      (orderEdges netlist.tasks netlist.reads node ++
        (netlist.writes.filter (·.node = node)).map fun write =>
          (⟨netlist.phaseTasks.length + write.net, .plain⟩ : Edge)).eraseDups := by
  have hnode := (List.getElem?_eq_some_iff.mp htask).1
  rw [← writeEdges_awaited, ← h.deferral_eq, Graph.edges, Graph.node, Graph.nodes_ofNetlist]
  simp [List.getD_eq_getElem?_getD, List.getElem?_zipIdx, List.getElem?_range hnode, htask]

theorem straight : (Graph.ofNetlist netlist).Straight := by
  refine ⟨fun node edge hedge => ?_, fun node => ?_⟩
  · have hlt := Graph.lt_of_mem_edges hedge
    rw [h.edges_eq (List.getElem?_eq_getElem hlt), List.mem_eraseDups, List.mem_append] at hedge
    rcases hedge with hedge | hedge
    · cases htask : netlist.tasks[node]? with
      | none => simp [orderEdges, chainEdges, htask] at hedge
      | some task =>
        cases task with
        | phase part position => rw [((Graph.mem_orderEdges_phase htask).mp hedge).2]
        | net index =>
          obtain ⟨read, mode, hread, -, hedge⟩ := (Graph.mem_orderEdges_net htask).mp hedge
          rw [h.mode_eq hread] at hedge
          rw [← Option.some.inj hedge]
    · obtain ⟨write, -, rfl⟩ := List.mem_map.mp hedge
      rfl
  · have huncrossed : netlist.reads.any (fun read =>
        decide (read.2 = .crossing) && decide (read.1.node = node)) = false := by
      rw [List.any_eq_false]
      rintro ⟨read, mode⟩ hread
      simp [h.mode_eq hread]
    rw [Graph.node, Graph.nodes_ofNetlist, List.getD_eq_getElem?_getD, List.getElem?_map,
      List.getElem?_zipIdx]
    cases netlist.tasks[node]? with
    | none => rfl
    | some task =>
      simp only [Option.map_some, Nat.zero_add, Option.getD_some]
      exact huncrossed

end Netlist.Static

/-! ## One block -/

namespace Placement

variable {graph : Graph} {placement after : Placement} {node : Nat} {reached : List (List Nat)}

/-- All nodes so far are in the first block, and wait for no dynamic node. -/
def Joined (placement : Placement) : Prop :=
  ∀ slot ∈ placement.slots, slot.block = 0 ∧ slot.waits = []

theorem Joined.put (hstraight : graph.Straight) (h : Joined placement) (node : Nat) :
    Joined (placement.put graph node) := by
  have hwaits : waitsOf graph placement node = [] := by
    refine List.filter_eq_nil_iff.mpr fun other _ => ?_
    rw [hstraight.isDynamic, Bool.false_and, Bool.false_or, List.any_eq_true]
    rintro ⟨slot, hslot, hmem⟩
    obtain ⟨source, -, hfound⟩ := List.mem_filterMap.mp hslot
    rw [(h slot (List.mem_of_find?_eq_some hfound)).2] at hmem
    simp at hmem
  intro slot hslot
  rw [Placement.put, slots_foldl_enqueue] at hslot
  rcases List.mem_append.mp hslot with hslot | hslot
  · exact h slot hslot
  · obtain rfl := List.mem_singleton.mp hslot
    refine ⟨?_, hwaits⟩
    cases hlast : placement.slots.getLast? with
    | none => rfl
    | some last =>
      obtain ⟨hblock, hnone⟩ := h last (List.mem_of_getLast? hlast)
      simp [hstraight.isDynamic, hstraight.uncrossed, hwaits, hblock, hnone]

theorem Joined.advance (hstraight : graph.Straight) (hclosed : graph.Closed) (count : Nat) :
    ∀ {placement : Placement}, Joined placement → Sound graph placement →
      Joined (placement.advance graph reached count) := by
  induction count with
  | zero => exact fun h _ => h
  | succ count ih =>
    intro placement h hsound
    rw [Placement.advance]
    split
    · next node after hnext =>
      obtain ⟨hchosen, hafter⟩ := hsound.next hnext
      have hkept : Joined after := fun slot hslot => h slot (hchosen.slots ▸ hslot)
      exact ih (hkept.put hstraight node) (hchosen.put hclosed hafter).1
    · exact h

theorem Joined.members (h : Joined placement) : placement.members 0 = placement.order := by
  rw [Placement.members, order,
    List.filter_eq_self.mpr fun slot hslot => by simp [(h slot hslot).1]]

/-- There is the first block, or nothing at all. -/
theorem Joined.blockCount (h : Joined placement) :
    placement.blockCount = 1 ∨ placement.blockCount = 0 ∧ placement.order = [] := by
  rw [Placement.blockCount]
  cases hlast : placement.slots.getLast? with
  | none => exact .inr ⟨rfl, by rw [order, List.getLast?_eq_none_iff.mp hlast]; rfl⟩
  | some last => exact .inl (by simp [(h last (List.mem_of_getLast? hlast)).1])

end Placement

theorem Graph.Straight.joined_place {graph : Graph} (h : graph.Straight) (hclosed : graph.Closed) :
    graph.place.Joined := by
  obtain ⟨hsound, hslots⟩ := (Placement.sound_empty graph).foldl_enqueue
    fun node (hnode : node ∈ List.range graph.size) => List.mem_range.mp hnode
  refine Placement.Joined.advance h hclosed graph.size (fun slot hslot => ?_) hsound
  rw [hslots] at hslot
  cases hslot

namespace Netlist

variable {netlist : Netlist}

/-- The tasks in the order in which they are placed. -/
def placedTasks (netlist : Netlist) : List Task :=
  (Graph.ofNetlist netlist).place.order.map (Graph.ofNetlist netlist).task

theorem trace_of_straight (h : (Graph.ofNetlist netlist).Straight) (state : State) :
    netlist.trace state = netlist.placedTasks := by
  have hjoined := h.joined_place (Graph.closed_ofNetlist netlist)
  have hcount : (compile netlist).blocks.length = (Graph.ofNetlist netlist).place.blockCount :=
    Placement.length_blocks
  have hperm := netlist.executed_perm state
  rw [trace_eq, placedTasks]
  rw [hcount] at hperm
  rcases hjoined.blockCount with hone | ⟨hnone, horder⟩
  · rw [hone, List.range_one] at hperm
    rw [List.perm_singleton.mp hperm, List.flatMap_singleton, tasksOf_compile, hcount, hone,
      if_pos Nat.zero_lt_one, hjoined.members]
  · rw [hnone, List.range_zero] at hperm
    rw [List.perm_nil.mp hperm, horder]
    rfl

end Netlist

/-! ## The order of the clock edge -/

/-- The part that a task runs a phase of. -/
def Task.part? : Task → Option Nat
  | .phase part _ => some part
  | .net _ => none

namespace Netlist

variable {netlist : Netlist}

/-- The parts that run phases come first, in the order in which they begin. -/
theorem latchSteps_of_straight (h : (Graph.ofNetlist netlist).Straight) :
    (compile netlist).latchSteps =
      ((netlist.placedTasks.filterMap Task.part? ++
        List.range netlist.parts.length).eraseDups).flatMap netlist.latchPhases := by
  have hjoined := h.joined_place (Graph.closed_ofNetlist netlist)
  have htasks :
      ((compile netlist).blocks.flatMap (·.steps)).map (·.task) = netlist.placedTasks := by
    have hcount : (compile netlist).blocks.length = (Graph.ofNetlist netlist).place.blockCount :=
      Placement.length_blocks
    rcases hjoined.blockCount with hone | ⟨hnone, horder⟩
    · rw [hone] at hcount
      obtain ⟨block, hblock⟩ := List.length_eq_one_iff.mp hcount
      have hsteps := @tasksOf_compile netlist 0
      rw [hcount, if_pos Nat.zero_lt_one, hjoined.members, Schedule.tasksOf, hblock] at hsteps
      rw [hblock, List.flatMap_singleton]
      exact hsteps
    · rw [hnone, List.length_eq_zero_iff] at hcount
      rw [hcount, placedTasks, horder]
      rfl
  have hstepped : ((compile netlist).blocks.flatMap (·.steps)).filterMap (fun step =>
      match step.task with
      | .phase part _ => some part
      | .net _ => none) = netlist.placedTasks.filterMap Task.part? := by
    rw [← htasks, List.filterMap_map]
    refine List.filterMap_congr fun step _ => ?_
    obtain ⟨task, decrements⟩ := step
    cases task <;> rfl
  rw [← hstepped]
  rfl

end Netlist

end Breadboard
