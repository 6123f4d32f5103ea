import Breadboard.Proofs.Placement
import Mathlib.Logic.Relation

/-!
# The dependency graph of a netlist

The graph is built from tables of reads and writes by node number. This file
reads it back in terms of the netlist: `Netlist.Feeds` says when one task
hands something to another, and `plain_of_next`, `plain_of_write` and
`plain_of_read` say which of these dependencies the schedule must honour. The
only ones that it does not are the writes of phases which themselves depend on
the net they drive (`Netlist.Deferred`), the any-of reads and the crossing
ones.

Node numbers are positions in `Netlist.tasks`, the phases first and the nets
behind them; `node_phase` and `node_net` are the two halves.
-/

namespace Breadboard

namespace Netlist

variable {netlist : Netlist} {part position node index : Nat} {phase : Phase} {task : Task}

/-! ## Tasks -/

def phase? (netlist : Netlist) (part position : Nat) : Option Phase :=
  netlist.parts[part]?.bind (·.phases[position]?)

/-- A phase that a settle runs. -/
def Ordinary (netlist : Netlist) (part position : Nat) (phase : Phase) : Prop :=
  netlist.phase? part position = some phase ∧ phase.latch = false

theorem mem_phaseTasks : task ∈ netlist.phaseTasks ↔
    ∃ part position phase, netlist.Ordinary part position phase ∧ task = .phase part position := by
  simp only [phaseTasks, List.mem_flatMap, List.mem_filterMap, Ordinary, phase?]
  constructor
  · rintro ⟨⟨found, part⟩, hpart, ⟨phase, position⟩, hphase, htask⟩
    rw [List.mk_mem_zipIdx_iff_getElem?] at hpart hphase
    obtain ⟨hlatch, htask⟩ := Option.ite_none_left_eq_some.mp htask
    refine ⟨part, position, phase, ⟨by simp [hpart, hphase], by simpa using hlatch⟩, ?_⟩
    exact (Option.some.inj htask).symm
  · rintro ⟨part, position, phase, ⟨hphase, hlatch⟩, rfl⟩
    obtain ⟨found, hpart, hphase⟩ := Option.bind_eq_some_iff.mp hphase
    refine ⟨(found, part), List.mk_mem_zipIdx_iff_getElem?.mpr hpart, (phase, position),
      List.mk_mem_zipIdx_iff_getElem?.mpr hphase, ?_⟩
    simp [hlatch]

/-- The order of the phases: by part, then by position. -/
def Earlier : Task → Task → Prop
  | .phase part position, .phase other later => part < other ∨ part = other ∧ position < later
  | _, _ => False

theorem pairwise_zipIdx {α : Type} (list : List α) :
    list.zipIdx.Pairwise fun a b => a.2 < b.2 := by
  have h : (list.zipIdx.map Prod.snd).Pairwise (· < ·) := by
    rw [List.zipIdx_map_snd]
    exact List.pairwise_lt_range'
  exact List.pairwise_map.mp h

theorem pairwise_phaseTasks (netlist : Netlist) : netlist.phaseTasks.Pairwise Earlier := by
  refine List.pairwise_flatMap.mpr ⟨?_, ?_⟩
  · rintro ⟨found, part⟩ -
    refine List.Pairwise.filterMap _ ?_ (pairwise_zipIdx found.phases)
    rintro ⟨first, position⟩ ⟨second, later⟩ hlt a ha b hb
    obtain rfl := Option.some.inj (Option.ite_none_left_eq_some.mp ha).2
    obtain rfl := Option.some.inj (Option.ite_none_left_eq_some.mp hb).2
    exact Or.inr ⟨rfl, hlt⟩
  · refine (pairwise_zipIdx netlist.parts).imp ?_
    rintro ⟨found, part⟩ ⟨other, later⟩ hlt a ha b hb
    obtain ⟨⟨_, position⟩, -, ha⟩ := List.mem_filterMap.mp ha
    obtain ⟨⟨_, next⟩, -, hb⟩ := List.mem_filterMap.mp hb
    obtain rfl := Option.some.inj (Option.ite_none_left_eq_some.mp ha).2
    obtain rfl := Option.some.inj (Option.ite_none_left_eq_some.mp hb).2
    exact Or.inl hlt

theorem earlier_of_lt {first second : Nat} {before after : Task}
    (hbefore : netlist.phaseTasks[first]? = some before)
    (hafter : netlist.phaseTasks[second]? = some after) (hlt : first < second) :
    Earlier before after := by
  obtain ⟨hfirst, rfl⟩ := List.getElem?_eq_some_iff.mp hbefore
  obtain ⟨hsecond, rfl⟩ := List.getElem?_eq_some_iff.mp hafter
  exact List.pairwise_iff_getElem.mp (pairwise_phaseTasks netlist) first second hfirst hsecond hlt

theorem nodup_tasks (netlist : Netlist) : netlist.tasks.Nodup := by
  refine List.nodup_append.mpr ⟨?_, ?_, ?_⟩
  · refine (pairwise_phaseTasks netlist).imp ?_
    rintro a b h rfl
    cases a with
    | phase part position => simp [Earlier] at h
    | net _ => exact h
  · exact List.nodup_range.map (fun a b h => by simpa using h)
  · rintro a ha b hb rfl
    obtain ⟨_, _, _, -, rfl⟩ := mem_phaseTasks.mp ha
    simp at hb

theorem mem_tasks_phase (h : netlist.Ordinary part position phase) :
    .phase part position ∈ netlist.tasks :=
  List.mem_append_left _ (mem_phaseTasks.mpr ⟨part, position, phase, h, rfl⟩)

theorem mem_tasks_net : .net index ∈ netlist.tasks ↔ index < netlist.nets.length := by
  simp only [tasks, List.mem_append, List.mem_map, List.mem_range, Task.net.injEq,
    exists_eq_right, or_iff_right_iff_imp]
  intro h
  obtain ⟨_, _, _, -, h⟩ := mem_phaseTasks.mp h
  cases h

/-- The nodes of the phases. -/
theorem node_phase :
    netlist.tasks[node]? = some (.phase part position) ↔
      netlist.phaseTasks[node]? = some (.phase part position) := by
  rw [tasks, List.getElem?_append]
  split
  · rfl
  · next h =>
    rw [List.getElem?_eq_none (Nat.not_lt.mp h)]
    simp

/-- The nodes of the nets. -/
theorem node_net : netlist.tasks[node]? = some (.net index) ↔
    node = netlist.phaseTasks.length + index ∧ index < netlist.nets.length := by
  rw [tasks, List.getElem?_append]
  split
  · next h =>
    constructor
    · intro htask
      obtain ⟨_, _, _, -, h⟩ := mem_phaseTasks.mp (List.mem_of_getElem? htask)
      cases h
    · omega
  · next h =>
    rw [List.getElem?_map]
    simp only [Option.map_eq_some_iff, Task.net.injEq, exists_eq_right,
      List.getElem?_eq_some_iff, List.getElem_range, List.length_range, exists_prop]
    omega

/-! ## Reads and writes -/

theorem mem_phaseNodes :
    (node, part, position, phase) ∈ netlist.phaseNodes ↔
      netlist.tasks[node]? = some (.phase part position) ∧
        netlist.phase? part position = some phase := by
  simp only [phaseNodes, List.mem_filterMap, node_phase]
  constructor
  · rintro ⟨⟨task, number⟩, htask, hphase⟩
    rw [List.mk_mem_zipIdx_iff_getElem?] at htask
    cases task with
    | net _ => cases hphase
    | phase found place =>
      obtain ⟨_, hfound, heq⟩ := Option.map_eq_some_iff.mp hphase
      simp only [Prod.mk.injEq] at heq
      obtain ⟨rfl, rfl, rfl, rfl⟩ := heq
      exact ⟨htask, hfound⟩
  · rintro ⟨htask, hphase⟩
    refine ⟨(.phase part position, node), List.mk_mem_zipIdx_iff_getElem?.mpr htask, ?_⟩
    exact Option.map_eq_some_iff.mpr ⟨phase, hphase, rfl⟩

/-- A phase drives a net through one of its ports. -/
def Writes (netlist : Netlist) (part position port index : Nat) : Prop :=
  ∃ phase, netlist.Ordinary part position phase ∧ port ∈ phase.writes ∧
    netlist.drivenNet? ⟨part, port⟩ = some index

/-- A phase reads a net through one of its ports, and can wait for it. -/
def Reads (netlist : Netlist) (part position port index : Nat) (mode : ReadMode) : Prop :=
  ∃ phase, netlist.Ordinary part position phase ∧ port ∈ phase.reads ++ phase.anyOf ∧
    netlist.readNet? ⟨part, port⟩ = some index ∧
    mode = if port ∈ phase.anyOf then .anyOf
      else if netlist.drivesFrom part position index then .crossing else .waiting

theorem ordinary_of_node (htask : netlist.tasks[node]? = some (.phase part position))
    (hphase : netlist.phase? part position = some phase) :
    netlist.Ordinary part position phase := by
  obtain ⟨_, _, found, hfound, heq⟩ :=
    mem_phaseTasks.mp (List.mem_of_getElem? (node_phase.mp htask))
  obtain ⟨rfl, rfl⟩ := Task.phase.inj heq
  obtain rfl : found = phase := Option.some.inj (hfound.1.symm.trans hphase)
  exact hfound

theorem mem_writes {write : Access} : write ∈ netlist.writes ↔
    ∃ part position, netlist.tasks[write.node]? = some (.phase part position) ∧
      netlist.Writes part position write.port write.net := by
  simp only [writes, List.mem_flatMap, List.mem_filterMap, Prod.exists, mem_phaseNodes]
  constructor
  · rintro ⟨node, part, position, phase, ⟨htask, hphase⟩, port, hport, hnet⟩
    obtain ⟨index, hindex, rfl⟩ := Option.map_eq_some_iff.mp hnet
    exact ⟨part, position, htask, phase, ordinary_of_node htask hphase, hport, hindex⟩
  · rintro ⟨part, position, htask, phase, hphase, hport, hnet⟩
    refine ⟨write.node, part, position, phase, ⟨htask, hphase.1⟩, write.port, hport, ?_⟩
    exact Option.map_eq_some_iff.mpr ⟨write.net, hnet, rfl⟩

theorem mem_reads {read : Access} {mode : ReadMode} : (read, mode) ∈ netlist.reads ↔
    ∃ part position, netlist.tasks[read.node]? = some (.phase part position) ∧
      netlist.Reads part position read.port read.net mode := by
  simp only [reads, List.mem_flatMap, List.mem_filterMap, Prod.exists, mem_phaseNodes]
  constructor
  · rintro ⟨node, part, position, phase, ⟨htask, hphase⟩, port, hport, hnet⟩
    obtain ⟨index, hindex, heq⟩ := Option.map_eq_some_iff.mp hnet
    obtain ⟨rfl, rfl⟩ := Prod.mk.inj heq
    refine ⟨part, position, htask, phase, ordinary_of_node htask hphase, ?_, hindex, rfl⟩
    rcases List.mem_append.mp hport with hport | hport
    · exact List.mem_append_left _ hport
    · exact List.mem_append_right _ (List.mem_filter.mp hport).1
  · rintro ⟨part, position, htask, phase, hphase, hport, hnet, rfl⟩
    refine ⟨read.node, part, position, phase, ⟨htask, hphase.1⟩, read.port, ?_, ?_⟩
    · by_cases hread : read.port ∈ phase.reads
      · exact List.mem_append_left _ hread
      · refine List.mem_append_right _ (List.mem_filter.mpr ⟨?_, by simpa using hread⟩)
        exact (List.mem_append.mp hport).resolve_left hread
    · exact Option.map_eq_some_iff.mpr ⟨read.net, hnet, rfl⟩

theorem drivenNet_lt {ref : PortRef} (h : netlist.drivenNet? ref = some index) :
    index < netlist.nets.length := by
  obtain ⟨-, h⟩ := Option.filter_eq_some_iff.mp h
  by_contra hge
  rw [List.getElem?_eq_none (Nat.not_lt.mp hge)] at h
  cases h

theorem readNet_lt {ref : PortRef} (h : netlist.readNet? ref = some index) :
    index < netlist.nets.length := by
  obtain ⟨-, h⟩ := Option.filter_eq_some_iff.mp h
  by_contra hge
  rw [List.getElem?_eq_none (Nat.not_lt.mp hge)] at h
  cases h

/-! ## Dependencies -/

/-- One task hands something to another: a phase to a later one of its part, a
phase to a net it drives, and a net to a phase that reads it. -/
inductive Feeds (netlist : Netlist) : Task → Task → Prop where
  | next {part first second : Nat} {before after : Phase} :
      netlist.Ordinary part first before → netlist.Ordinary part second after → first < second →
      Feeds netlist (.phase part first) (.phase part second)
  | write {part position port index : Nat} : netlist.Writes part position port index →
      Feeds netlist (.phase part position) (.net index)
  | read {part position port index : Nat} {mode : ReadMode} :
      netlist.Reads part position port index mode → mode ≠ .crossing →
      Feeds netlist (.net index) (.phase part position)

/-- A phase that drives this tri-state net and depends on it. -/
def Deferred (netlist : Netlist) (part position index : Nat) : Prop :=
  netlist.nets[index]?.any (·.tristate) = true ∧
    Relation.ReflTransGen netlist.Feeds (.net index) (.phase part position)

/-! ## The tables of the graph -/

/-- The nodes that a node leads to, by edges and by writes that are not waited
for. -/
def follows (netlist : Netlist) (node : Nat) : List Nat :=
  (orderEdges netlist.tasks netlist.reads node).map (·.target) ++
    (netlist.writes.filter (·.node = node)).map fun write =>
      netlist.phaseTasks.length + write.net

/-- Every write of a phase to a net, and whether it is not waited for. -/
def deferral (netlist : Netlist) : List (Access × Bool) :=
  netlist.writes.map fun write =>
    (write, isDeferred netlist netlist.follows netlist.tasks.length
      netlist.phaseTasks.length write)

theorem lt_of_writes {write : Access} (h : write ∈ netlist.writes) :
    write.node < netlist.tasks.length := by
  obtain ⟨_, _, htask, -⟩ := mem_writes.mp h
  exact (List.getElem?_eq_some_iff.mp htask).1

theorem follows_eq_getD (netlist : Netlist) (node : Nat) :
    (((List.range netlist.tasks.length).map (orderEdges netlist.tasks netlist.reads)).zipIdx.map
      fun (edges, node) => edges.map (·.target) ++
        (netlist.writes.filter (·.node = node)).map fun write =>
          netlist.phaseTasks.length + write.net).getD node [] = netlist.follows node := by
  by_cases hnode : node < netlist.tasks.length
  · simp [List.getD_eq_getElem?_getD, List.getElem?_zipIdx, List.getElem?_range hnode, follows]
  · have hwrites : netlist.writes.filter (·.node = node) = [] := by
      refine List.filter_eq_nil_iff.mpr fun write hwrite heq => ?_
      have := lt_of_writes hwrite
      simp only [decide_eq_true_eq] at heq
      omega
    have htask : netlist.tasks[node]? = none := List.getElem?_eq_none (Nat.not_lt.mp hnode)
    rw [List.getD_eq_getElem?_getD, List.getElem?_eq_none (by simpa using hnode)]
    simp [follows, hwrites, orderEdges, chainEdges, htask]

end Netlist

namespace Graph

variable {netlist : Netlist} {node index part position port : Nat} {edge : Edge} {task : Task}

theorem nodes_ofNetlist (netlist : Netlist) :
    (ofNetlist netlist).nodes = netlist.tasks.zipIdx.map fun (task, index) =>
      { task
        edges := (((List.range netlist.tasks.length).map
          (orderEdges netlist.tasks netlist.reads)).getD index [] ++
            writeEdges netlist.deferral netlist.phaseTasks.length index).eraseDups
        crossing := netlist.reads.any fun (access, mode) =>
          mode = .crossing && access.node = index } := by
  have hdeferral : netlist.deferral = netlist.writes.map fun write =>
      (write, isDeferred netlist (fun node => (((List.range netlist.tasks.length).map
        (orderEdges netlist.tasks netlist.reads)).zipIdx.map fun (edges, node) =>
          edges.map (·.target) ++ (netlist.writes.filter (·.node = node)).map fun write =>
            netlist.phaseTasks.length + write.net).getD node [])
        netlist.tasks.length netlist.phaseTasks.length write) := by
    simp only [Netlist.deferral, Netlist.follows_eq_getD]
  rw [hdeferral]
  rfl

theorem size_ofNetlist : (ofNetlist netlist).size = netlist.tasks.length := by
  simp [size, nodes_ofNetlist]

theorem task_ofNetlist (h : netlist.tasks[node]? = some task) :
    (ofNetlist netlist).task node = task := by
  simp [Graph.task, Graph.node, nodes_ofNetlist, List.getD_eq_getElem?_getD,
    List.getElem?_zipIdx, h]

theorem map_task_ofNetlist (netlist : Netlist) :
    (List.range (ofNetlist netlist).size).map (ofNetlist netlist).task = netlist.tasks := by
  refine List.ext_getElem (by simp [size_ofNetlist]) fun node hnode hnode' => ?_
  simp only [List.getElem_map, List.getElem_range]
  exact task_ofNetlist (List.getElem?_eq_getElem hnode')

theorem mem_writeEdges {writes : List (Access × Bool)} {phases : Nat} :
    edge ∈ writeEdges writes phases node ↔
      ∃ write deferred, (write, deferred) ∈ writes ∧ write.node = node ∧
        (deferred = false ∧ edge = ⟨phases + write.net, .plain⟩ ∨
          (∃ other, (other, true) ∈ writes ∧ other.net = write.net) ∧
            edge = ⟨phases + write.net, .drive write.port⟩) := by
  simp only [writeEdges, List.mem_flatMap, List.mem_filter, decide_eq_true_eq, Prod.exists]
  constructor
  · rintro ⟨write, deferred, ⟨hwrite, hnode⟩, hedge⟩
    refine ⟨write, deferred, hwrite, hnode, ?_⟩
    rcases List.mem_append.mp hedge with hedge | hedge
    · cases deferred with
      | true => simp at hedge
      | false => exact Or.inl ⟨rfl, by simpa using hedge⟩
    · split at hedge
      · next hdynamic =>
        obtain ⟨⟨other, late⟩, hother, hboth⟩ := List.any_eq_true.mp hdynamic
        simp only [Bool.and_eq_true, decide_eq_true_eq] at hboth
        obtain ⟨rfl, hnet⟩ := hboth
        exact Or.inr ⟨⟨other, hother, hnet⟩, by simpa using hedge⟩
      · cases hedge
  · rintro ⟨write, deferred, hwrite, hnode, hedge⟩
    refine ⟨write, deferred, ⟨hwrite, hnode⟩, List.mem_append.mpr ?_⟩
    rcases hedge with ⟨rfl, rfl⟩ | ⟨⟨other, hother, hnet⟩, rfl⟩
    · exact Or.inl (by simp)
    · refine Or.inr ?_
      rw [if_pos]
      · exact List.mem_singleton_self ..
      · exact List.any_eq_true.mpr ⟨(other, true), hother, by simp [hnet]⟩

theorem mem_deferral {write : Access} {deferred : Bool} : (write, deferred) ∈ netlist.deferral ↔
    write ∈ netlist.writes ∧ deferred = isDeferred netlist netlist.follows netlist.tasks.length
      netlist.phaseTasks.length write := by
  simp only [Netlist.deferral, List.mem_map, Prod.mk.injEq]
  constructor
  · rintro ⟨write, hwrite, rfl, rfl⟩
    exact ⟨hwrite, rfl⟩
  · rintro ⟨hwrite, rfl⟩
    exact ⟨write, hwrite, rfl, rfl⟩

theorem edges_eq_nil (h : netlist.tasks[node]? = none) : (ofNetlist netlist).edges node = [] := by
  have hnode : (ofNetlist netlist).node node = default := by
    simp [Graph.node, nodes_ofNetlist, List.getD_eq_getElem?_getD, List.getElem?_zipIdx, h]
  rw [edges, hnode]
  rfl

theorem lt_of_mem_edges (h : edge ∈ (ofNetlist netlist).edges node) :
    node < netlist.tasks.length := by
  by_contra hge
  rw [edges_eq_nil (List.getElem?_eq_none (Nat.not_lt.mp hge))] at h
  cases h

theorem mem_edges : edge ∈ (ofNetlist netlist).edges node ↔
    edge ∈ orderEdges netlist.tasks netlist.reads node ∨
      edge ∈ writeEdges netlist.deferral netlist.phaseTasks.length node := by
  by_cases hnode : node < netlist.tasks.length
  · simp [edges, Graph.node, nodes_ofNetlist, List.getD_eq_getElem?_getD, List.getElem?_zipIdx,
      List.getElem?_range hnode, List.getElem?_eq_getElem hnode, List.mem_eraseDups]
  · have htask : netlist.tasks[node]? = none := List.getElem?_eq_none (Nat.not_lt.mp hnode)
    rw [edges_eq_nil htask]
    refine iff_of_false (by simp) ?_
    rintro (hedge | hedge)
    · simp [orderEdges, chainEdges, htask] at hedge
    · obtain ⟨write, _, hwrite, rfl, -⟩ := mem_writeEdges.mp hedge
      exact hnode (Netlist.lt_of_writes (mem_deferral.mp hwrite).1)

theorem mem_orderEdges_net (htask : netlist.tasks[node]? = some (.net index)) :
    edge ∈ orderEdges netlist.tasks netlist.reads node ↔
      ∃ read mode, (read, mode) ∈ netlist.reads ∧ read.net = index ∧
        mode.edge? read.node = some edge := by
  simp only [orderEdges, htask, List.mem_filterMap, List.mem_filter, decide_eq_true_eq, Prod.exists]
  constructor
  · rintro ⟨read, mode, ⟨hread, hnet⟩, hedge⟩
    exact ⟨read, mode, hread, hnet, hedge⟩
  · rintro ⟨read, mode, hread, hnet, hedge⟩
    exact ⟨read, mode, ⟨hread, hnet⟩, hedge⟩

theorem mem_orderEdges_phase (htask : netlist.tasks[node]? = some (.phase part position)) :
    edge ∈ orderEdges netlist.tasks netlist.reads node ↔
      (∃ later, netlist.tasks[node + 1]? = some (.phase part later)) ∧
        edge = ⟨node + 1, .plain⟩ := by
  simp only [orderEdges, htask, chainEdges]
  cases hnext : netlist.tasks[node + 1]? with
  | none => simp
  | some next =>
    cases next with
    | net _ => simp
    | phase other later =>
      by_cases hpart : other = part
      · subst hpart
        simp
      · simp [hpart]

/-- The phases of a part stand side by side. -/
theorem ordinary_succ {later : Nat}
    (htask : netlist.tasks[node]? = some (.phase part position))
    (hnext : netlist.tasks[node + 1]? = some (.phase part later)) : position < later := by
  have hearlier := Netlist.earlier_of_lt (Netlist.node_phase.mp htask)
    (Netlist.node_phase.mp hnext) (Nat.lt_succ_self node)
  rcases hearlier with hearlier | ⟨-, hearlier⟩
  · exact absurd hearlier (Nat.lt_irrefl part)
  · exact hearlier

theorem ordinary_of_task (htask : netlist.tasks[node]? = some (.phase part position)) :
    ∃ phase, netlist.Ordinary part position phase := by
  obtain ⟨_, _, phase, hphase, heq⟩ :=
    Netlist.mem_phaseTasks.mp (List.mem_of_getElem? (Netlist.node_phase.mp htask))
  obtain ⟨rfl, rfl⟩ := Task.phase.inj heq
  exact ⟨phase, hphase⟩

theorem net_of_write {write : Access} (hwrite : write ∈ netlist.writes) :
    netlist.tasks[netlist.phaseTasks.length + write.net]? = some (.net write.net) := by
  obtain ⟨_, _, -, _, -, -, hnet⟩ := Netlist.mem_writes.mp hwrite
  exact Netlist.node_net.mpr ⟨rfl, Netlist.drivenNet_lt hnet⟩

/-- What the graph leads to is handed over in the netlist. -/
theorem feeds_of_follows {next : Nat} (htask : netlist.tasks[node]? = some task)
    (hnext : next ∈ netlist.follows node) :
    ∃ other, netlist.tasks[next]? = some other ∧ netlist.Feeds task other := by
  rcases List.mem_append.mp hnext with hnext | hnext
  · obtain ⟨edge, hedge, rfl⟩ := List.mem_map.mp hnext
    cases task with
    | phase part position =>
      obtain ⟨⟨later, hlater⟩, rfl⟩ := (mem_orderEdges_phase htask).mp hedge
      obtain ⟨_, hfirst⟩ := ordinary_of_task htask
      obtain ⟨_, hsecond⟩ := ordinary_of_task hlater
      exact ⟨_, hlater, .next hfirst hsecond (ordinary_succ htask hlater)⟩
    | net index =>
      obtain ⟨read, mode, hread, rfl, hedge⟩ := (mem_orderEdges_net htask).mp hedge
      obtain ⟨part, position, hphase, hreads⟩ := Netlist.mem_reads.mp hread
      cases mode with
      | crossing => cases hedge
      | waiting =>
        obtain rfl := Option.some.inj hedge
        exact ⟨_, hphase, .read hreads (by simp)⟩
      | anyOf =>
        obtain rfl := Option.some.inj hedge
        exact ⟨_, hphase, .read hreads (by simp)⟩
  · obtain ⟨write, hwrite, rfl⟩ := List.mem_map.mp hnext
    obtain ⟨hmem, hnode⟩ := List.mem_filter.mp hwrite
    obtain ⟨part, position, hphase, hwrites⟩ := Netlist.mem_writes.mp hmem
    rw [of_decide_eq_true hnode] at hphase
    obtain rfl := Option.some.inj (htask.symm.trans hphase)
    exact ⟨_, net_of_write hmem, .write hwrites⟩

theorem feeds_of_reaches {next : Nat} (h : Reaches netlist.follows node next) :
    ∀ {task}, netlist.tasks[node]? = some task →
      ∃ other, netlist.tasks[next]? = some other ∧
        Relation.ReflTransGen netlist.Feeds task other := by
  induction h with
  | refl => exact fun htask => ⟨_, htask, .refl⟩
  | head hmem _ ih =>
    intro task htask
    obtain ⟨middle, hmiddle, hfeeds⟩ := feeds_of_follows htask hmem
    obtain ⟨other, hother, hrest⟩ := ih hmiddle
    exact ⟨other, hother, .head hfeeds hrest⟩

theorem deferred_of_isDeferred {write : Access} (hwrite : write ∈ netlist.writes)
    (htask : netlist.tasks[write.node]? = some (.phase part position))
    (h : isDeferred netlist netlist.follows netlist.tasks.length netlist.phaseTasks.length
      write = true) : netlist.Deferred part position write.net := by
  simp only [isDeferred, Bool.and_eq_true, decide_eq_true_eq] at h
  obtain ⟨htristate, hreach⟩ := h
  obtain ⟨other, hother, hfeeds⟩ :=
    feeds_of_reaches (reaches_of_mem_reach hreach) (net_of_write hwrite)
  obtain rfl := Option.some.inj (hother.symm.trans htask)
  exact ⟨htristate, hfeeds⟩

/-! ## Plain edges -/

theorem closed_ofNetlist (netlist : Netlist) : (ofNetlist netlist).Closed := by
  intro node edge hedge
  rw [size_ofNetlist]
  rcases mem_edges.mp hedge with hedge | hedge
  · cases htask : netlist.tasks[node]? with
    | none => simp [orderEdges, chainEdges, htask] at hedge
    | some task =>
      obtain ⟨_, hother, -⟩ := feeds_of_follows htask
        (List.mem_append_left _ (List.mem_map_of_mem hedge))
      exact (List.getElem?_eq_some_iff.mp hother).1
  · obtain ⟨write, _, hwrite, -, hedge⟩ := mem_writeEdges.mp hedge
    have hnet := net_of_write (mem_deferral.mp hwrite).1
    have hlt := (List.getElem?_eq_some_iff.mp hnet).1
    rcases hedge with ⟨-, rfl⟩ | ⟨-, rfl⟩
    · exact hlt
    · exact hlt

end Graph

namespace Netlist

variable {netlist : Netlist} {part position port index : Nat}

/-- The second task has to wait for the first. -/
def Precedes (netlist : Netlist) (first second : Task) : Prop :=
  ∃ u v, netlist.tasks[u]? = some first ∧ netlist.tasks[v]? = some second ∧
    v ∈ (Graph.ofNetlist netlist).plainTargets u

theorem precedes_of_write (h : netlist.Writes part position port index)
    (hdeferred : ¬ netlist.Deferred part position index) :
    netlist.Precedes (.phase part position) (.net index) := by
  obtain ⟨phase, hphase, hport, hnet⟩ := h
  obtain ⟨node, htask⟩ := List.getElem?_of_mem (mem_tasks_phase hphase)
  have hwrite : ⟨node, port, index⟩ ∈ netlist.writes :=
    mem_writes.mpr ⟨part, position, htask, phase, hphase, hport, hnet⟩
  refine ⟨node, _, htask, Graph.net_of_write hwrite, Graph.mem_plainTargets.mpr ?_⟩
  refine Graph.mem_edges.mpr (Or.inr (Graph.mem_writeEdges.mpr
    ⟨⟨node, port, index⟩, false, ?_, rfl, ?_⟩))
  · refine Graph.mem_deferral.mpr ⟨hwrite, ?_⟩
    rw [eq_comm, ← Bool.not_eq_true]
    exact fun h => hdeferred (Graph.deferred_of_isDeferred hwrite htask h)
  · exact Or.inl ⟨rfl, rfl⟩

theorem precedes_of_read (h : netlist.Reads part position port index .waiting) :
    netlist.Precedes (.net index) (.phase part position) := by
  have hindex := readNet_lt h.choose_spec.2.2.1
  obtain ⟨node, htask⟩ := List.getElem?_of_mem (mem_tasks_phase h.choose_spec.1)
  have hnet : netlist.tasks[netlist.phaseTasks.length + index]? = some (.net index) :=
    node_net.mpr ⟨rfl, hindex⟩
  refine ⟨_, node, hnet, htask, Graph.mem_plainTargets.mpr ?_⟩
  refine Graph.mem_edges.mpr (Or.inl ((Graph.mem_orderEdges_net hnet).mpr ?_))
  exact ⟨⟨node, port, index⟩, .waiting, mem_reads.mpr ⟨part, position, htask, h⟩, rfl, rfl⟩

theorem precedes_of_gap {later : Nat} (gap : Nat) : ∀ {first position : Nat},
    netlist.phaseTasks[first]? = some (.phase part position) →
      netlist.phaseTasks[first + gap + 1]? = some (.phase part later) →
      Relation.TransGen netlist.Precedes (.phase part position) (.phase part later) := by
  induction gap with
  | zero =>
    intro first position hfirst hsecond
    have htask := node_phase.mpr hfirst
    have hnext := node_phase.mpr hsecond
    refine .single ⟨first, first + 1, htask, hnext, Graph.mem_plainTargets.mpr ?_⟩
    exact Graph.mem_edges.mpr (Or.inl ((Graph.mem_orderEdges_phase htask).mpr ⟨⟨_, hnext⟩, rfl⟩))
  | succ gap ih =>
    intro first position hfirst hsecond
    have hlt : first + 1 < netlist.phaseTasks.length := by
      have := (List.getElem?_eq_some_iff.mp hsecond).1
      omega
    have hmiddle := List.getElem?_eq_getElem hlt
    obtain ⟨other, middle, _, -, heq⟩ := mem_phaseTasks.mp (List.mem_of_getElem? hmiddle)
    rw [heq] at hmiddle
    -- the phase between the two belongs to the same part, since the parts are sorted
    have hother : other = part := by
      have hbefore := earlier_of_lt hfirst hmiddle (Nat.lt_succ_self first)
      have hafter := earlier_of_lt hmiddle hsecond (by omega)
      simp only [Earlier] at hbefore hafter
      omega
    subst hother
    have hrest := ih hmiddle (by rw [← hsecond]; congr 1; omega)
    have htask := node_phase.mpr hfirst
    have hnext := node_phase.mpr hmiddle
    refine .head ⟨first, first + 1, htask, hnext, Graph.mem_plainTargets.mpr ?_⟩ hrest
    exact Graph.mem_edges.mpr (Or.inl ((Graph.mem_orderEdges_phase htask).mpr ⟨⟨_, hnext⟩, rfl⟩))

/-- From a phase to a later one of its part there is a chain of edges. -/
theorem precedes_of_lt {later : Nat} {before after : Phase}
    (hbefore : netlist.Ordinary part position before)
    (hafter : netlist.Ordinary part later after) (hlt : position < later) :
    Relation.TransGen netlist.Precedes (.phase part position) (.phase part later) := by
  obtain ⟨first, hfirst⟩ := List.getElem?_of_mem
    (mem_phaseTasks.mpr ⟨part, position, before, hbefore, rfl⟩)
  obtain ⟨second, hsecond⟩ := List.getElem?_of_mem
    (mem_phaseTasks.mpr ⟨part, later, after, hafter, rfl⟩)
  rcases Nat.lt_trichotomy first second with h | rfl | h
  · refine precedes_of_gap (second - first - 1) hfirst ?_
    rw [← hsecond]
    congr 1
    omega
  · obtain ⟨-, rfl⟩ := Task.phase.inj (Option.some.inj (hfirst.symm.trans hsecond))
    exact absurd hlt (Nat.lt_irrefl position)
  · have hearlier := earlier_of_lt hsecond hfirst h
    simp only [Earlier] at hearlier
    omega

section

variable {node : Nat} {task other : Task}

/-! ## Deferred writes -/

theorem node_unique {first second : Nat} (hfirst : netlist.tasks[first]? = some task)
    (hsecond : netlist.tasks[second]? = some task) : first = second :=
  (List.getElem?_inj (List.getElem?_eq_some_iff.mp hfirst).1 (nodup_tasks netlist)).mp
    (hfirst.trans hsecond.symm)

theorem mem_follows_of_edge {edge : Edge}
    (h : edge ∈ (Graph.ofNetlist netlist).edges node) : edge.target ∈ netlist.follows node := by
  rcases Graph.mem_edges.mp h with hedge | hedge
  · exact List.mem_append_left _ (List.mem_map_of_mem hedge)
  · obtain ⟨write, deferred, hwrite, hnode, hedge⟩ := Graph.mem_writeEdges.mp hedge
    have hmem : netlist.phaseTasks.length + write.net ∈ netlist.follows node :=
      List.mem_append_right _ (List.mem_map.mpr ⟨write,
        List.mem_filter.mpr ⟨(Graph.mem_deferral.mp hwrite).1, by simpa using hnode⟩, rfl⟩)
    rcases hedge with ⟨-, rfl⟩ | ⟨-, rfl⟩ <;> exact hmem

theorem reaches_of_precedes (h : Relation.TransGen netlist.Precedes task other) :
    ∀ {node next}, netlist.tasks[node]? = some task → netlist.tasks[next]? = some other →
      Reaches netlist.follows node next := by
  induction h using Relation.TransGen.head_induction_on with
  | single h =>
    intro node next hnode hnext
    obtain ⟨first, second, hfirst, hsecond, hmem⟩ := h
    obtain rfl := node_unique hfirst hnode
    obtain rfl := node_unique hsecond hnext
    exact .head (mem_follows_of_edge (Graph.mem_plainTargets.mp hmem)) (.refl _)
  | head h _ ih =>
    intro node next hnode hnext
    obtain ⟨first, second, hfirst, hsecond, hmem⟩ := h
    obtain rfl := node_unique hfirst hnode
    exact .head (mem_follows_of_edge (Graph.mem_plainTargets.mp hmem)) (ih hsecond hnext)

/-- What is handed over in the netlist can be followed in the graph. -/
theorem reaches_of_feeds {next : Nat} (h : netlist.Feeds task other)
    (htask : netlist.tasks[node]? = some task) (hnext : netlist.tasks[next]? = some other) :
    Reaches netlist.follows node next := by
  cases h with
  | next hbefore hafter hlt => exact reaches_of_precedes (precedes_of_lt hbefore hafter hlt) htask hnext
  | @write part position port index h =>
    obtain ⟨phase, hphase, hport, hnet⟩ := h
    have hwrite : ⟨node, port, index⟩ ∈ netlist.writes :=
      mem_writes.mpr ⟨part, position, htask, phase, hphase, hport, hnet⟩
    obtain rfl := node_unique (Graph.net_of_write hwrite) hnext
    refine .head (List.mem_append_right _ (List.mem_map.mpr ⟨_, ?_, rfl⟩)) (.refl _)
    exact List.mem_filter.mpr ⟨hwrite, by simp⟩
  | @read part position port index mode h hmode =>
    have hread : (⟨next, port, index⟩, mode) ∈ netlist.reads :=
      mem_reads.mpr ⟨part, position, hnext, h⟩
    obtain ⟨edge, hedge, htarget⟩ : ∃ edge, mode.edge? next = some edge ∧ edge.target = next := by
      cases mode with
      | waiting => exact ⟨_, rfl, rfl⟩
      | anyOf => exact ⟨_, rfl, rfl⟩
      | crossing => exact absurd rfl hmode
    refine .head (List.mem_append_left _ (List.mem_map.mpr ⟨edge, ?_, htarget⟩)) (.refl _)
    exact (Graph.mem_orderEdges_net htask).mpr ⟨_, mode, hread, rfl, hedge⟩

theorem lt_of_follows {next : Nat} (h : next ∈ netlist.follows node) :
    next < netlist.tasks.length := by
  rcases List.mem_append.mp h with hedge | hwrite
  · obtain ⟨edge, hmem, rfl⟩ := List.mem_map.mp hedge
    have hmem : edge ∈ (Graph.ofNetlist netlist).edges node := Graph.mem_edges.mpr (Or.inl hmem)
    have hlt := Graph.closed_ofNetlist netlist node edge hmem
    rwa [Graph.size_ofNetlist] at hlt
  · obtain ⟨write, hmem, rfl⟩ := List.mem_map.mp hwrite
    exact (List.getElem?_eq_some_iff.mp (Graph.net_of_write (List.mem_filter.mp hmem).1)).1

theorem mem_tasks_of_feeds (h : netlist.Feeds task other) : task ∈ netlist.tasks := by
  cases h with
  | next hbefore => exact mem_tasks_phase hbefore
  | write h =>
    obtain ⟨phase, hphase, -⟩ := h
    exact mem_tasks_phase hphase
  | read h =>
    obtain ⟨_, _, -, hnet, -⟩ := h
    exact mem_tasks_net.mpr (readNet_lt hnet)

/-- The graph finds all writes that are deferred. -/
theorem isDeferred_iff {write : Access} (hwrite : write ∈ netlist.writes)
    (htask : netlist.tasks[write.node]? = some (.phase part position)) :
    isDeferred netlist netlist.follows netlist.tasks.length netlist.phaseTasks.length write = true ↔
      netlist.Deferred part position write.net := by
  refine ⟨Graph.deferred_of_isDeferred hwrite htask, fun ⟨htristate, hfeeds⟩ => ?_⟩
  have hnet := Graph.net_of_write hwrite
  have hreaches : ∀ {task node}, Relation.ReflTransGen netlist.Feeds (.net write.net) task →
      netlist.tasks[node]? = some task →
      Reaches netlist.follows (netlist.phaseTasks.length + write.net) node := by
    intro task node hpath
    induction hpath generalizing node with
    | refl =>
      intro htask
      obtain rfl := node_unique hnet htask
      exact .refl _
    | tail hpath hstep ih =>
      intro htask
      obtain ⟨middle, hmiddle⟩ : ∃ middle : Nat, netlist.tasks[middle]? = some _ :=
        List.getElem?_of_mem (mem_tasks_of_feeds hstep)
      exact (ih hmiddle).trans (reaches_of_feeds hstep hmiddle htask)
  simp only [isDeferred, htristate, Bool.true_and, decide_eq_true_eq]
  exact (mem_reach_iff (List.getElem?_eq_some_iff.mp hnet).1 fun _ _ => lt_of_follows).mpr
    (hreaches hfeeds htask)

end

end Netlist

end Breadboard
