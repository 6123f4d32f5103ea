import Breadboard.Proofs.OneBlock
import Breadboard.Proofs.Renumbered
import Breadboard.Proofs.Tandem

/-!
# Parts that only listen

A circuit stands in another one whose other parts only listen to it
(`Embedding.Unheard`): they may read its nets, but what they drive reaches none of its
parts. Without their tasks the outer circuit is the inner one: what is left of its
tasks, reads and writes are those of the inner circuit, in the same order, and so its
dependency graph is thinned out (`Unheard.thins`). If the outer circuit is static, both
settle in one block, and the inner one does so in the order in which its tasks stand in
the outer one (`Unheard.placedTasks_eq`, `Unheard.latchSteps_eq`). It does not feel what
is done in between (`Unheard.skip`), so both go on holding the same (`Unheard.kept`).

The parts of the inner circuit may be scripted.
-/

namespace Breadboard

/-! ## The phases of a part -/

namespace Netlist

/-- The tasks of the ordinary phases of a part. -/
def phasesOf (netlist : Netlist) (part : Nat) : List Task :=
  (netlist.parts.getD part default).phases.zipIdx.filterMap fun (phase, position) =>
    if phase.latch then none else some (.phase part position)

theorem phaseTasks_eq (netlist : Netlist) :
    netlist.phaseTasks = (List.range netlist.parts.length).flatMap netlist.phasesOf := by
  rw [phaseTasks, zipIdx_eq_map_range, List.flatMap_map]
  rfl

/-- The entry of a node among the phases of the graph. -/
def phaseNode? (netlist : Netlist) (node : Nat) : Option (Nat × Nat × Nat × Phase) :=
  netlist.tasks[node]?.bind fun task =>
    match task with
    | .phase part position => (netlist.phase? part position).map (node, part, position, ·)
    | .net _ => none

theorem phaseNodes_eq (netlist : Netlist) :
    netlist.phaseNodes = (List.range netlist.tasks.length).filterMap netlist.phaseNode? := by
  have hnets : ((List.range ((List.range netlist.nets.length).map Task.net).length).map
      (netlist.phaseTasks.length + ·)).filterMap netlist.phaseNode? = [] := by
    rw [List.filterMap_eq_nil_iff]
    intro node hnode
    obtain ⟨index, hindex, rfl⟩ := List.mem_map.mp hnode
    rw [List.mem_range, List.length_map, List.length_range] at hindex
    rw [phaseNode?, node_net.mpr ⟨rfl, hindex⟩]
    rfl
  rw [tasks, List.length_append, List.range_add, List.filterMap_append, hnets, List.append_nil,
    phaseNodes, zipIdx_eq_map_range, List.filterMap_map]
  refine List.filterMap_congr fun node hnode => ?_
  have hlt := List.mem_range.mp hnode
  rw [phaseNode?, tasks, List.getElem?_append_left hlt, Function.comp_apply,
    List.getD_eq_getElem?_getD, List.getElem?_eq_getElem hlt]
  rfl

end Netlist

namespace Embedding

variable {e : Embedding} {inner outer : Netlist} {small big : State}
  {task source : Task} {node number p n q m position port : Nat} {ref : PortRef}

/-! ## Taking out what does not belong to the inner circuit -/

def pullTask (e : Embedding) (inner : Netlist) : Task → Option Task
  | .phase part phase => (back e.part inner.parts.length part).map (.phase · phase)
  | .net net => (back e.net inner.nets.length net).map .net

/-- The number that a node of the outer graph has in the inner one. -/
def pullNode (e : Embedding) (inner outer : Netlist) (node : Nat) : Option Nat :=
  outer.tasks[node]?.bind fun task => (e.pullTask inner task).map inner.tasks.idxOf

/-- The other parts of the outer circuit only listen to those of the inner one: they do
not drive what these read, and cannot stop the clock. -/
structure Unheard (e : Embedding) (inner outer : Netlist) : Prop extends
    e.Seated inner outer where
  part_mono : ∀ {p q : Nat}, p < q → q < inner.parts.length → e.part p < e.part q
  net_mono : ∀ {n m : Nat}, n < m → m < inner.nets.length → e.net n < e.net m
  static : outer.Static
  apart : ∀ {m : Nat} {ref : PortRef}, ref.part < inner.parts.length →
    outer.HasTarget m (e.ref ref) → ∃ n < inner.nets.length, e.net n = m
  quiet : ∀ {q : Nat} {host : Part}, outer.parts[q]? = some host →
    (∀ p < inner.parts.length, e.part p ≠ q) →
    host.device.Native ∧ ∀ reason, host.device ≠ .halt reason

namespace Places

variable (h : e.Places inner outer)

include h

theorem backPart_iff : back e.part inner.parts.length q = some p ↔
    p < inner.parts.length ∧ e.part p = q :=
  back_eq_some h.part_inj

theorem backNet_iff : back e.net inner.nets.length m = some n ↔
    n < inner.nets.length ∧ e.net n = m :=
  back_eq_some h.net_inj

theorem backPart_part (hp : p < inner.parts.length) :
    back e.part inner.parts.length (e.part p) = some p :=
  h.backPart_iff.mpr ⟨hp, rfl⟩

theorem backNet_net (hn : n < inner.nets.length) :
    back e.net inner.nets.length (e.net n) = some n :=
  h.backNet_iff.mpr ⟨hn, rfl⟩

theorem part_lt (hp : p < inner.parts.length) : e.part p < outer.parts.length := by
  obtain ⟨-, host, -, hhost, -⟩ := h.exists_host hp
  exact (List.getElem?_eq_some_iff.mp hhost).1

theorem net_lt (hn : n < inner.nets.length) : e.net n < outer.nets.length := by
  obtain ⟨host, hhost, -⟩ := h.net (List.getElem?_eq_getElem hn)
  exact (List.getElem?_eq_some_iff.mp hhost).1

theorem pullTask_iff : e.pullTask inner task = some source ↔
    Known inner source ∧ e.task source = task := by
  match task, source with
  | .phase q position, .phase p position' =>
    simp only [pullTask, Option.map_eq_some_iff, h.backPart_iff, Known, Embedding.task,
      Task.phase.injEq]
    constructor
    · rintro ⟨_, ⟨hp, rfl⟩, rfl, rfl⟩
      exact ⟨hp, rfl, rfl⟩
    · rintro ⟨hp, rfl, rfl⟩
      exact ⟨p, ⟨hp, rfl⟩, rfl, rfl⟩
  | .net m, .net n =>
    simp [pullTask, h.backNet_iff, Known, Embedding.task]
  | .phase _ _, .net _ => simp [pullTask, Embedding.task]
  | .net _, .phase _ _ => simp [pullTask, Embedding.task]

theorem phases_eq (hp : p < inner.parts.length) :
    (outer.parts.getD (e.part p) default).phases = (inner.parts.getD p default).phases := by
  obtain ⟨placed, host, hplaced, hhost, -, hphases, -⟩ := h.exists_host hp
  rw [List.getD_eq_getElem?_getD, List.getD_eq_getElem?_getD, hplaced, hhost]
  exact hphases

end Places

namespace Seated

variable (h : e.Seated inner outer)

include h

/-- A port drives the image of the net that it drives. -/
theorem drivenNet?_eq (href : ref.part < inner.parts.length) :
    outer.drivenNet? (e.ref ref) = (inner.drivenNet? ref).map e.net := by
  refine Option.ext fun m => ?_
  rw [Option.map_eq_some_iff]
  constructor
  · intro hdriven
    obtain ⟨hbound, -⟩ := drivenNet_iff.mp hdriven
    rw [h.port? href] at hbound
    obtain ⟨found, hfound, hnet⟩ := Option.bind_eq_some_iff.mp hbound
    obtain ⟨port, hport, rfl⟩ := Option.map_eq_some_iff.mp hfound
    obtain ⟨n, hn, rfl⟩ := Option.map_eq_some_iff.mp hnet
    exact ⟨n, (h.drives_iff (h.bound hport hn) href).mp hdriven, rfl⟩
  · rintro ⟨n, hdriven, rfl⟩
    exact (h.drives_iff (Netlist.drivenNet_lt hdriven) href).mpr hdriven

/-- A port reads the image of the net that it reads. -/
theorem readNet?_eq (href : ref.part < inner.parts.length) :
    outer.readNet? (e.ref ref) = (inner.readNet? ref).map e.net := by
  refine Option.ext fun m => ?_
  rw [Option.map_eq_some_iff]
  constructor
  · intro hread
    obtain ⟨hbound, -⟩ := readNet_iff.mp hread
    rw [h.port? href] at hbound
    obtain ⟨found, hfound, hnet⟩ := Option.bind_eq_some_iff.mp hbound
    obtain ⟨port, hport, rfl⟩ := Option.map_eq_some_iff.mp hfound
    obtain ⟨n, hn, rfl⟩ := Option.map_eq_some_iff.mp hnet
    exact ⟨n, (h.reads_iff (h.bound hport hn) href).mp hread, rfl⟩
  · rintro ⟨n, hread, rfl⟩
    exact (h.reads_iff (Netlist.readNet_lt hread) href).mpr hread

/-- A node stays under the number of the task that it is the image of. -/
theorem pullNode_iff : e.pullNode inner outer node = some number ↔
    ∃ task, inner.tasks[number]? = some task ∧ outer.tasks[node]? = some (e.task task) := by
  rw [pullNode, Option.bind_eq_some_iff]
  constructor
  · rintro ⟨task, htask, hpull⟩
    obtain ⟨source, hsource, rfl⟩ := Option.map_eq_some_iff.mp hpull
    obtain ⟨hknown, rfl⟩ := h.pullTask_iff.mp hsource
    have hmem := (h.task_mem_iff hknown).mp (List.mem_of_getElem? htask)
    exact ⟨source, List.getElem?_idxOf hmem, htask⟩
  · rintro ⟨task, hkept, htask⟩
    obtain ⟨hlt, rfl⟩ := List.getElem?_eq_some_iff.mp hkept
    refine ⟨_, htask, Option.map_eq_some_iff.mpr ⟨_, h.pullTask_iff.mpr
      ⟨known_of_mem (List.getElem_mem hlt), rfl⟩, inner.nodup_tasks.idxOf_getElem number hlt⟩⟩

theorem pullNode_inj {first second : Nat} (hfirst : e.pullNode inner outer first = some number)
    (hsecond : e.pullNode inner outer second = some number) : first = second := by
  obtain ⟨task, hkept, hfirst⟩ := h.pullNode_iff.mp hfirst
  obtain ⟨task', hkept', hsecond⟩ := h.pullNode_iff.mp hsecond
  obtain rfl := Option.some.inj (hkept.symm.trans hkept')
  exact Netlist.node_unique hfirst hsecond

theorem pullNode_net (hn : n < inner.nets.length) :
    e.pullNode inner outer (outer.phaseTasks.length + e.net n) =
      some (inner.phaseTasks.length + n) :=
  h.pullNode_iff.mpr ⟨.net n, Netlist.node_net.mpr ⟨rfl, hn⟩,
    Netlist.node_net.mpr ⟨rfl, h.net_lt hn⟩⟩

end Seated

/-! ## What is left of the tables -/

def pullEntry (e : Embedding) (inner outer : Netlist) :
    Nat × Nat × Nat × Phase → Option (Nat × Nat × Nat × Phase)
  | (node, part, position, phase) => (e.pullNode inner outer node).bind fun number =>
      (back e.part inner.parts.length part).map (number, ·, position, phase)

def pullAccess (e : Embedding) (inner outer : Netlist) (access : Access) : Option Access :=
  (e.pullNode inner outer access.node).bind fun number =>
    (back e.net inner.nets.length access.net).map (⟨number, access.port, ·⟩)

namespace Unheard

variable (h : e.Unheard inner outer)

include h

theorem filterMap_parts : (List.range outer.parts.length).filterMap
    (back e.part inner.parts.length) = List.range inner.parts.length :=
  filterMap_back h.part_mono fun _ hp => h.part_lt hp

theorem filterMap_nets : (List.range outer.nets.length).filterMap
    (back e.net inner.nets.length) = List.range inner.nets.length :=
  filterMap_back h.net_mono fun _ hn => h.net_lt hn

theorem filterMap_phasesOf : (outer.phasesOf q).filterMap (e.pullTask inner) =
    ((back e.part inner.parts.length q).map inner.phasesOf).getD [] := by
  rw [Netlist.phasesOf, List.filterMap_filterMap]
  cases hback : back e.part inner.parts.length q with
  | none =>
    rw [Option.map_none, Option.getD_none, List.filterMap_eq_nil_iff]
    rintro ⟨phase, position⟩ -
    dsimp only
    split
    · rfl
    · rw [Option.bind_some, pullTask, hback, Option.map_none]
  | some p =>
    obtain ⟨hp, rfl⟩ := h.backPart_iff.mp hback
    rw [Option.map_some, Option.getD_some, Netlist.phasesOf, h.phases_eq hp]
    refine List.filterMap_congr fun entry _ => ?_
    dsimp only
    split
    · rfl
    · rw [Option.bind_some, pullTask, hback, Option.map_some]

theorem filterMap_tasks : outer.tasks.filterMap (e.pullTask inner) = inner.tasks := by
  rw [Netlist.tasks, Netlist.tasks, List.filterMap_append, Netlist.phaseTasks_eq,
    Netlist.phaseTasks_eq, filterMap_flatMap_of fun part _ => h.filterMap_phasesOf,
    h.filterMap_parts, List.filterMap_map, ← h.filterMap_nets, List.map_filterMap]
  rfl

theorem filterMap_nodes : (List.range outer.tasks.length).filterMap (e.pullNode inner outer) =
    List.range inner.tasks.length := by
  have hidx : inner.tasks.map inner.tasks.idxOf = List.range inner.tasks.length := by
    refine List.ext_getElem (by simp) fun node hnode hnode' => ?_
    rw [List.length_map] at hnode
    rw [List.getElem_map, List.getElem_range, inner.nodup_tasks.idxOf_getElem node hnode]
  calc (List.range outer.tasks.length).filterMap (e.pullNode inner outer)
      = outer.tasks.filterMap fun task => (e.pullTask inner task).map inner.tasks.idxOf :=
        filterMap_range_getElem? outer.tasks _
    _ = (outer.tasks.filterMap (e.pullTask inner)).map inner.tasks.idxOf :=
        List.map_filterMap.symm
    _ = List.range inner.tasks.length := by rw [h.filterMap_tasks, hidx]

theorem filterMap_phaseNodes :
    outer.phaseNodes.filterMap (e.pullEntry inner outer) = inner.phaseNodes := by
  rw [Netlist.phaseNodes_eq, Netlist.phaseNodes_eq, ← h.filterMap_nodes]
  refine filterMap_filterMap_of fun node hnode => ?_
  obtain ⟨task, htask⟩ : ∃ task, outer.tasks[node]? = some task :=
    ⟨_, List.getElem?_eq_getElem (List.mem_range.mp hnode)⟩
  cases hpull : e.pullNode inner outer node with
  | none =>
    rw [Option.bind_none, Option.bind_eq_none_iff]
    rintro ⟨node', part, position, phase⟩ hentry
    have hnode' : node' = node := by
      rw [Netlist.phaseNode?, htask, Option.bind_some] at hentry
      cases task with
      | phase part position =>
        obtain ⟨found, -, heq⟩ := Option.map_eq_some_iff.mp hentry
        exact (Prod.mk.inj heq).1.symm
      | net _ => cases hentry
    rw [pullEntry, hnode', hpull, Option.bind_none]
  | some number =>
    obtain ⟨source, hkept, hsource⟩ := h.pullNode_iff.mp hpull
    rw [Option.bind_some, Netlist.phaseNode?, Netlist.phaseNode?, hkept, hsource]
    cases source with
    | net n => rfl
    | phase p position =>
      have hp : p < inner.parts.length := known_of_mem (List.mem_of_getElem? hkept)
      simp only [Option.bind_some, Embedding.task, h.phase? hp]
      cases inner.phase? p position with
      | none => rfl
      | some phase => simp [pullEntry, hpull, h.backPart_part hp]

/-- The part of a phase belongs to the inner circuit if its node does. -/
theorem pullNode_phase (htask : outer.tasks[node]? = some (.phase q position)) :
    e.pullNode inner outer node = none ∧ back e.part inner.parts.length q = none ∨
      ∃ number p, e.pullNode inner outer node = some number ∧ p < inner.parts.length ∧
        e.part p = q ∧ inner.tasks[number]? = some (.phase p position) := by
  cases hpull : e.pullNode inner outer node with
  | none =>
    rw [pullNode, htask, Option.bind_some, Option.map_eq_none_iff, pullTask,
      Option.map_eq_none_iff] at hpull
    exact .inl ⟨rfl, hpull⟩
  | some number =>
    obtain ⟨source, hkept, hsource⟩ := h.pullNode_iff.mp hpull
    rw [htask] at hsource
    have hknown := known_of_mem (List.mem_of_getElem? hkept)
    cases source with
    | net n => cases hsource
    | phase p position' =>
      obtain ⟨rfl, rfl⟩ := Task.phase.inj (Option.some.inj hsource)
      exact .inr ⟨number, p, rfl, hknown, rfl, hkept⟩

theorem filterMap_writes : outer.writes.filterMap (e.pullAccess inner outer) = inner.writes := by
  rw [Netlist.writes, Netlist.writes, ← h.filterMap_phaseNodes]
  refine filterMap_flatMap_of ?_
  rintro ⟨node, q, position, phase⟩ hentry
  rw [List.filterMap_filterMap]
  rcases h.pullNode_phase (Netlist.mem_phaseNodes.mp hentry).1 with
    ⟨hpull, -⟩ | ⟨number, p, hpull, hp, rfl, -⟩
  · rw [pullEntry, hpull, Option.bind_none, Option.map_none, Option.getD_none,
      List.filterMap_eq_nil_iff]
    intro port _
    cases outer.drivenNet? ⟨q, port⟩ <;> simp [pullAccess, hpull]
  · rw [pullEntry, hpull, Option.bind_some, h.backPart_part hp]
    refine List.filterMap_congr fun port _ => ?_
    have hdriven := h.drivenNet?_eq (show (⟨p, port⟩ : PortRef).part < inner.parts.length from hp)
    rw [Embedding.ref] at hdriven
    rw [hdriven]
    cases hnet : inner.drivenNet? ⟨p, port⟩ with
    | none => rfl
    | some n => simp [pullAccess, hpull, h.backNet_net (Netlist.drivenNet_lt hnet)]

theorem filterMap_reads : outer.reads.filterMap (fun read =>
    (e.pullAccess inner outer read.1).map (·, read.2)) = inner.reads := by
  rw [Netlist.reads, Netlist.reads, ← h.filterMap_phaseNodes]
  refine filterMap_flatMap_of ?_
  rintro ⟨node, q, position, phase⟩ hentry
  rw [List.filterMap_filterMap]
  rcases h.pullNode_phase (Netlist.mem_phaseNodes.mp hentry).1 with
    ⟨hpull, -⟩ | ⟨number, p, hpull, hp, rfl, -⟩
  · rw [pullEntry, hpull, Option.bind_none, Option.map_none, Option.getD_none,
      List.filterMap_eq_nil_iff]
    intro port _
    cases outer.readNet? ⟨q, port⟩ <;> simp [pullAccess, hpull]
  · rw [pullEntry, hpull, Option.bind_some, h.backPart_part hp]
    refine List.filterMap_congr fun port _ => ?_
    have hread := h.readNet?_eq (show (⟨p, port⟩ : PortRef).part < inner.parts.length from hp)
    rw [Embedding.ref] at hread
    rw [hread]
    cases hnet : inner.readNet? ⟨p, port⟩ with
    | none => rfl
    | some n =>
      have hn := Netlist.readNet_lt hnet
      simp [pullAccess, hpull, h.backNet_net hn, h.drivesFrom_eq hp hn]

/-! ## What is left of the graph -/

theorem lt_iff_pullNode {first second before after : Nat}
    (hfirst : e.pullNode inner outer first = some before)
    (hsecond : e.pullNode inner outer second = some after) : first < second ↔ before < after := by
  have hlt : ∀ {node number}, e.pullNode inner outer node = some number →
      node < outer.tasks.length := fun hpull => by
    obtain ⟨_, -, htask⟩ := h.pullNode_iff.mp hpull
    exact (List.getElem?_eq_some_iff.mp htask).1
  constructor
  · exact fun hless => lt_of_filterMap_range h.filterMap_nodes hfirst hsecond hless (hlt hsecond)
  · intro hless
    rcases Nat.lt_trichotomy first second with hcase | rfl | hcase
    · exact hcase
    · rw [Option.some.inj (hfirst.symm.trans hsecond)] at hless
      omega
    · have := lt_of_filterMap_range h.filterMap_nodes hsecond hfirst hcase (hlt hfirst)
      omega

theorem exists_pullNode (hkept : number < inner.tasks.length) :
    ∃ node, e.pullNode inner outer node = some number := by
  have hmem := List.mem_range.mpr hkept
  rw [← h.filterMap_nodes] at hmem
  obtain ⟨node, -, hpull⟩ := List.mem_filterMap.mp hmem
  exact ⟨node, hpull⟩

/-- The image of a task of a part of the inner circuit. -/
theorem task_of_pullNode (hpull : e.pullNode inner outer node = some number)
    (hkept : inner.tasks[number]? = some task) : outer.tasks[node]? = some (e.task task) := by
  obtain ⟨source, hsource, htask⟩ := h.pullNode_iff.mp hpull
  rwa [← Option.some.inj (hsource.symm.trans hkept)]

/-- Behind a phase stands the next one of its part, or none on both sides. -/
theorem next_phase (hpull : e.pullNode inner outer node = some number)
    (hkept : inner.tasks[number]? = some (.phase p position)) :
    (∃ later, outer.tasks[node + 1]? = some (.phase (e.part p) later)) ↔
      ∃ later, inner.tasks[number + 1]? = some (.phase p later) := by
  have hp : p < inner.parts.length := known_of_mem (List.mem_of_getElem? hkept)
  have htask := h.task_of_pullNode hpull hkept
  constructor
  · rintro ⟨later, hnext⟩
    rcases h.pullNode_phase hnext with ⟨-, hnone⟩ | ⟨found, q, hfound, hq, heq, hsource⟩
    · rw [h.backPart_part hp] at hnone
      cases hnone
    · obtain rfl := h.part_inj q hq p hp heq
      have hless := (h.lt_iff_pullNode hpull hfound).mp (Nat.lt_succ_self node)
      -- nothing comes back between two neighbours
      obtain rfl : found = number + 1 := by
        by_contra hne
        have hlt := (List.getElem?_eq_some_iff.mp hsource).1
        obtain ⟨between, hbetween⟩ := h.exists_pullNode (show number + 1 < _ by omega)
        have hafter := (h.lt_iff_pullNode hpull hbetween).mpr (by omega)
        have hbefore := (h.lt_iff_pullNode hbetween hfound).mpr (by omega)
        omega
      exact ⟨later, hsource⟩
  · rintro ⟨later, hnext⟩
    obtain ⟨after, hafter⟩ := h.exists_pullNode (List.getElem?_eq_some_iff.mp hnext).1
    have hlater := Netlist.node_phase.mp (h.task_of_pullNode hafter hnext)
    have hless := (h.lt_iff_pullNode hpull hafter).mpr (Nat.lt_succ_self number)
    rcases Nat.lt_or_eq_of_le hless with hless | rfl
    · -- what stands between two phases of a part is a phase of the part
      have hlt : node + 1 < outer.phaseTasks.length :=
        Nat.lt_trans hless (List.getElem?_eq_some_iff.mp hlater).1
      have hbetween := List.getElem?_eq_getElem hlt
      have hfirst := Netlist.earlier_of_lt (Netlist.node_phase.mp htask) hbetween
        (Nat.lt_succ_self node)
      have hsecond := Netlist.earlier_of_lt hbetween hlater hless
      obtain ⟨q, position', _, -, heq⟩ := Netlist.mem_phaseTasks.mp (List.getElem_mem hlt)
      rw [heq] at hbetween hfirst hsecond
      simp only [Netlist.Earlier] at hfirst hsecond
      obtain rfl : q = e.part p := by omega
      exact ⟨position', Netlist.node_phase.mpr hbetween⟩
    · exact ⟨later, Netlist.node_phase.mpr hlater⟩

theorem pullEdge_inj {first second edge : Edge}
    (hfirst : Edge.pull? (e.pullNode inner outer) first = some edge)
    (hsecond : Edge.pull? (e.pullNode inner outer) second = some edge) : first = second := by
  obtain ⟨target, kind⟩ := first
  obtain ⟨target', kind'⟩ := second
  obtain ⟨found, hfound, rfl⟩ := Option.map_eq_some_iff.mp hfirst
  obtain ⟨found', hfound', heq⟩ := Option.map_eq_some_iff.mp hsecond
  obtain ⟨rfl, rfl⟩ := Edge.mk.inj heq
  exact congrArg (Edge.mk · _) (h.pullNode_inj hfound hfound')

theorem filterMap_chainEdges (hpull : e.pullNode inner outer node = some number)
    (hkept : inner.tasks[number]? = some (.phase p position)) :
    (chainEdges outer.tasks node).filterMap (Edge.pull? (e.pullNode inner outer)) =
      chainEdges inner.tasks number := by
  have hedges : ∀ {netlist : Netlist} {node part position : Nat},
      netlist.tasks[node]? = some (.phase part position) →
      (∃ later, netlist.tasks[node + 1]? = some (.phase part later)) →
      chainEdges netlist.tasks node = [⟨node + 1, .plain⟩] := by
    rintro netlist node part position htask ⟨later, hnext⟩
    simp [chainEdges, htask, hnext]
  have hnone : ∀ {netlist : Netlist} {node part position : Nat},
      netlist.tasks[node]? = some (.phase part position) →
      (¬ ∃ later, netlist.tasks[node + 1]? = some (.phase part later)) →
      chainEdges netlist.tasks node = [] := by
    intro netlist node part position htask hlast
    rw [chainEdges, htask]
    cases hnext : netlist.tasks[node + 1]? with
    | none => rfl
    | some next =>
      cases next with
      | net _ => rfl
      | phase other later =>
        refine if_neg fun heq => hlast ⟨later, ?_⟩
        rw [hnext, heq]
  have htask := h.task_of_pullNode hpull hkept
  by_cases hlast : ∃ later, inner.tasks[number + 1]? = some (.phase p later)
  · obtain ⟨later, hlater⟩ := (h.next_phase hpull hkept).mpr hlast
    obtain ⟨later', hlater'⟩ := id hlast
    have hnext : e.pullNode inner outer (node + 1) = some (number + 1) := by
      obtain ⟨after, hafter⟩ := h.exists_pullNode (List.getElem?_eq_some_iff.mp hlater').1
      rcases h.pullNode_phase hlater with ⟨-, hnone⟩ | ⟨found, q, hfound, -, -, -⟩
      · rw [h.backPart_part (known_of_mem (List.mem_of_getElem? hkept))] at hnone
        cases hnone
      · have hless := (h.lt_iff_pullNode hpull hafter).mpr (Nat.lt_succ_self number)
        have hmore := (h.lt_iff_pullNode hpull hfound).mp (Nat.lt_succ_self node)
        obtain rfl : after = node + 1 := by
          by_contra hne
          have := (h.lt_iff_pullNode hfound hafter).mp (by omega)
          omega
        exact hafter
    rw [hedges htask ⟨later, hlater⟩, hedges hkept hlast]
    simp [Edge.pull?, hnext]
  · rw [hnone htask (mt (h.next_phase hpull hkept).mp hlast), hnone hkept hlast, List.filterMap_nil]

theorem filterMap_orderEdges (hpull : e.pullNode inner outer node = some number) :
    (orderEdges outer.tasks outer.reads node).filterMap (Edge.pull? (e.pullNode inner outer)) =
      orderEdges inner.tasks inner.reads number := by
  obtain ⟨source, hkept, htask⟩ := h.pullNode_iff.mp hpull
  cases source with
  | phase p position =>
    have hchain := h.filterMap_chainEdges hpull hkept
    simpa only [orderEdges, htask, hkept, Embedding.task] using hchain
  | net n =>
    have hn : n < inner.nets.length := known_of_mem (List.mem_of_getElem? hkept)
    simp only [orderEdges, htask, hkept, Embedding.task]
    rw [← h.filterMap_reads, List.filter_filterMap, List.filterMap_filterMap,
      List.filterMap_filterMap, List.filterMap_filter]
    refine List.filterMap_congr ?_
    rintro ⟨read, mode⟩ -
    dsimp only
    by_cases hnet : read.net = e.net n
    · rw [if_pos (decide_eq_true hnet)]
      cases hreader : e.pullNode inner outer read.node with
      | none => cases mode <;> simp [pullAccess, hreader, ReadMode.edge?, Edge.pull?]
      | some reader =>
        cases mode <;>
          simp [pullAccess, hreader, hnet, h.backNet_net hn, ReadMode.edge?, Edge.pull?,
            Option.filter]
    · rw [if_neg (by simpa using hnet)]
      cases hreader : e.pullNode inner outer read.node with
      | none => simp [pullAccess, hreader]
      | some reader =>
        cases hback : back e.net inner.nets.length read.net with
        | none => simp [pullAccess, hreader, hback]
        | some m =>
          have hne : m ≠ n := fun heq => hnet (heq ▸ (h.backNet_iff.mp hback).2.symm)
          simp [pullAccess, hreader, hback, hne, Option.filter]

theorem filterMap_writeEdges (hpull : e.pullNode inner outer node = some number) :
    ((outer.writes.filter (·.node = node)).map fun write =>
        (⟨outer.phaseTasks.length + write.net, .plain⟩ : Edge)).filterMap
          (Edge.pull? (e.pullNode inner outer)) =
      (inner.writes.filter (·.node = number)).map fun write =>
        (⟨inner.phaseTasks.length + write.net, .plain⟩ : Edge) := by
  rw [← h.filterMap_writes, List.filter_filterMap, List.map_filterMap, List.filterMap_map,
    List.filterMap_filter]
  refine List.filterMap_congr fun write hwrite => ?_
  obtain ⟨q, position, htask, phase, -, -, hdriven⟩ := Netlist.mem_writes.mp hwrite
  by_cases hnode : write.node = node
  · rw [if_pos (decide_eq_true hnode)]
    rcases h.pullNode_phase htask with ⟨hnone, -⟩ | ⟨found, p, hfound, hp, rfl, -⟩
    · rw [hnode, hpull] at hnone
      cases hnone
    · have hinner : (⟨p, write.port⟩ : PortRef).part < inner.parts.length := hp
      have heq := h.drivenNet?_eq hinner
      rw [Embedding.ref, hdriven] at heq
      obtain ⟨n, hn, hnet⟩ := Option.map_eq_some_iff.mp heq.symm
      have hn := Netlist.drivenNet_lt hn
      simp [pullAccess, hnode, hpull, ← hnet, h.backNet_net hn, Edge.pull?, h.pullNode_net hn,
        Option.filter]
  · rw [if_neg (by simpa using hnode)]
    cases hwriter : e.pullNode inner outer write.node with
    | none => simp [pullAccess, hwriter]
    | some writer =>
      have hne : writer ≠ number := fun heq => hnode (h.pullNode_inj (heq ▸ hwriter) hpull)
      cases hback : back e.net inner.nets.length write.net <;>
        simp [pullAccess, hwriter, hback, hne, Option.filter]

/-- What feeds the inner circuit belongs to it. -/
theorem known_of_feeds (hknown : Known inner task) {before : Task}
    (hfeeds : outer.Feeds before (e.task task)) : ∃ source, Known inner source ∧
      e.task source = before := by
  match before, task, hfeeds with
  | .phase q i, .phase p j, hfeeds =>
    obtain ⟨rfl, -⟩ := Netlist.feeds_phases.mp hfeeds
    exact ⟨.phase p i, hknown, rfl⟩
  | .phase q i, .net n, hfeeds =>
    obtain ⟨port, phase, -, -, hdriven⟩ := Netlist.feeds_write.mp hfeeds
    obtain ⟨-, host, hhost, hsource⟩ := drivenNet_iff.mp hdriven
    have hjoined := List.getElem?_eq_getElem (show n < inner.nets.length from hknown)
    obtain ⟨found, hfound, -, -, hsources, -⟩ := h.net hjoined
    obtain rfl := Option.some.inj (hhost.symm.trans hfound)
    obtain ⟨ref, href, heq⟩ := List.mem_map.mp (hsources.subset hsource)
    have hpart := h.listed n ref ⟨_, hjoined, .inl href⟩
    exact ⟨.phase ref.part i, hpart, congrArg (Task.phase · i) (congrArg PortRef.part heq)⟩
  | .net m, .phase p j, hfeeds =>
    obtain ⟨port, mode, ⟨phase, -, -, hread, -⟩, -⟩ := Netlist.feeds_read.mp hfeeds
    have hinner : (⟨p, port⟩ : PortRef).part < inner.parts.length := hknown
    obtain ⟨n, hn, rfl⟩ := h.apart hinner (readNet_iff.mp hread).2
    exact ⟨.net n, hn, rfl⟩
  | .net m, .net n, hfeeds => exact absurd hfeeds Netlist.not_feeds_nets

/-- The dependency graph of the inner circuit is that of the outer one without the tasks
that do not belong to it. -/
theorem thins : Graph.Thins (e.pullNode inner outer) (Graph.ofNetlist inner)
    (Graph.ofNetlist outer) where
  inj := h.pullNode_inj
  bound hpull := by
    obtain ⟨_, -, htask⟩ := h.pullNode_iff.mp hpull
    rw [Graph.size_ofNetlist]
    exact (List.getElem?_eq_some_iff.mp htask).1
  nodes := by rw [Graph.size_ofNetlist, Graph.size_ofNetlist, h.filterMap_nodes]
  edges {node number} hpull := by
    obtain ⟨source, hkept, htask⟩ := h.pullNode_iff.mp hpull
    rw [h.static.edges_eq htask, (h.inner_static h.static).edges_eq hkept,
      filterMap_eraseDups h.pullEdge_inj, List.filterMap_append, h.filterMap_orderEdges hpull,
      h.filterMap_writeEdges hpull]
  apart {node} hnone edge hedge := by
    obtain ⟨task, htask⟩ : ∃ task, outer.tasks[node]? = some task :=
      ⟨_, List.getElem?_eq_getElem (Graph.lt_of_mem_edges hedge)⟩
    obtain ⟨other, hother, hfeeds⟩ :=
      Graph.feeds_of_follows htask (Netlist.mem_follows_of_edge hedge)
    by_contra hsome
    obtain ⟨number, hkept⟩ := Option.ne_none_iff_exists'.mp hsome
    obtain ⟨target, htarget, heq⟩ := h.pullNode_iff.mp hkept
    obtain rfl := Option.some.inj (hother.symm.trans heq)
    obtain ⟨source, hsource, rfl⟩ :=
      h.known_of_feeds (known_of_mem (List.mem_of_getElem? htarget)) hfeeds
    rw [pullNode, htask, Option.bind_some, h.pullTask_iff.mpr ⟨hsource, rfl⟩] at hnone
    cases hnone

/-! ## One after the other -/

theorem place : (Graph.ofNetlist outer).place.order.filterMap (e.pullNode inner outer) =
    (Graph.ofNetlist inner).place.order := by
  have hloops : (Graph.ofNetlist outer).place.loops = [] := List.map_eq_nil_iff.mp h.static.loops
  exact (h.thins.place (h.inner_static h.static).straight h.static.straight
    (Graph.closed_ofNetlist inner) (Graph.closed_ofNetlist outer) hloops).2

/-- The inner circuit settles in the order in which its tasks stand in the outer one. -/
theorem placedTasks_eq : outer.placedTasks.filterMap (e.pullTask inner) = inner.placedTasks := by
  rw [Netlist.placedTasks, Netlist.placedTasks, ← h.place, List.filterMap_map, List.map_filterMap]
  refine List.filterMap_congr fun node hnode => ?_
  have hlt : node < outer.tasks.length := by
    have hmem := (Graph.order_place_perm (Graph.closed_ofNetlist outer)).subset hnode
    rwa [List.mem_range, Graph.size_ofNetlist] at hmem
  have htask := List.getElem?_eq_getElem hlt
  generalize outer.tasks[node] = task at htask
  rw [Function.comp_apply, Graph.task_ofNetlist htask, pullNode, htask, Option.bind_some,
    Option.map_map]
  cases hpull : e.pullTask inner task with
  | none => rfl
  | some source =>
    obtain ⟨hknown, rfl⟩ := h.pullTask_iff.mp hpull
    have hmem := (h.task_mem_iff hknown).mp (List.mem_of_getElem? htask)
    rw [Option.map_some, Function.comp_apply,
      Graph.task_ofNetlist (List.getElem?_idxOf hmem)]

theorem filterMap_latchPhases : (outer.latchPhases q).filterMap
      (fun step => (back e.part inner.parts.length step.1).map (·, step.2)) =
    ((back e.part inner.parts.length q).map inner.latchPhases).getD [] := by
  rw [Netlist.latchPhases, List.filterMap_filterMap]
  cases hback : back e.part inner.parts.length q with
  | none =>
    rw [Option.map_none, Option.getD_none, List.filterMap_eq_nil_iff]
    rintro ⟨phase, position⟩ -
    dsimp only
    split
    · rw [Option.bind_some, hback, Option.map_none]
    · rfl
  | some p =>
    obtain ⟨hp, rfl⟩ := h.backPart_iff.mp hback
    rw [Option.map_some, Option.getD_some, Netlist.latchPhases, h.phases_eq hp]
    refine List.filterMap_congr fun entry _ => ?_
    dsimp only
    split
    · rw [Option.bind_some, hback, Option.map_some]
    · rfl

/-- The clock edge reaches the parts of the inner circuit in the same order. -/
theorem latchSteps_eq : (compile outer).latchSteps.filterMap
      (fun step => (back e.part inner.parts.length step.1).map (·, step.2)) =
    (compile inner).latchSteps := by
  have hinj : ∀ {q q' p : Nat}, back e.part inner.parts.length q = some p →
      back e.part inner.parts.length q' = some p → q = q' := by
    intro q q' p hq hq'
    rw [← (h.backPart_iff.mp hq).2, (h.backPart_iff.mp hq').2]
  have hparts : (outer.placedTasks.filterMap Task.part?).filterMap
      (back e.part inner.parts.length) = inner.placedTasks.filterMap Task.part? := by
    rw [← h.placedTasks_eq]
    refine filterMap_filterMap_of fun task _ => ?_
    cases task with
    | net _ => cases hback : e.pullTask inner (.net _) with
      | none => rfl
      | some source =>
        cases source with
        | net _ => rfl
        | phase _ _ => simp [pullTask] at hback
    | phase q position =>
      rw [Task.part?, Option.bind_some, pullTask]
      cases back e.part inner.parts.length q <;> rfl
  rw [Netlist.latchSteps_of_straight h.static.straight,
    Netlist.latchSteps_of_straight (h.inner_static h.static).straight,
    filterMap_flatMap_of fun q _ => h.filterMap_latchPhases, filterMap_eraseDups hinj,
    List.filterMap_append, hparts, h.filterMap_parts]

/-! ## What is done in between -/

/-- What another part or net does leaves the inner circuit as it is. -/
theorem skip (hstate : e.Extends inner small big) (hknown : Known outer task)
    (hpull : e.pullTask inner task = none) : e.Extends inner small (big.perform outer task) := by
  cases task with
  | phase q position =>
    have hother : ∀ p < inner.parts.length, e.part p ≠ q := fun p hp heq => by
      rw [pullTask, ← heq, h.backPart_part hp] at hpull
      cases hpull
    obtain ⟨host, hhost⟩ : ∃ host, outer.parts[q]? = some host :=
      ⟨_, List.getElem?_eq_getElem hknown⟩
    obtain ⟨hnative, hgoing⟩ := h.quiet hhost hother
    refine ⟨fun p hp => ?_, hstate.net, hstate.halted.trans ?_⟩
    · rw [State.perform, State.parts_runPhase, List.getElem?_set_ne (hother p hp).symm]
      exact hstate.part p hp
    · have hstop : (host.device.effect host.ports position (big.part q)).stop.isSome = false := by
        rw [← Bool.not_eq_true]
        intro hstop
        obtain ⟨reason, hreason⟩ := Device.halt_of_stop hstop
        exact hgoing reason hreason
      simp only [State.perform, State.runPhase, List.getD_eq_getElem?_getD, hhost, Option.getD_some,
        Device.run_eq hnative, Effect.isHalted_status, hstop, Bool.or_false]
  | net m =>
    have hother : ∀ n < inner.nets.length, e.net n ≠ m := fun n hn heq => by
      rw [pullTask, ← heq, h.backNet_net hn] at hpull
      cases hpull
    obtain ⟨host, hhost⟩ : ∃ host, outer.nets[m]? = some host :=
      ⟨_, List.getElem?_eq_getElem hknown⟩
    rw [State.perform, State.resolve_eq, List.getD_eq_getElem?_getD, hhost, Option.getD_some]
    refine ⟨fun p hp => ?_, fun n hn => ?_, hstate.halted.trans ?_⟩
    · rw [State.parts_tell, State.parts_setNet, hstate.part p hp]
      cases hheld : big.parts[e.part p]? with
      | none => rfl
      | some held =>
        refine congrArg some (PartState.eq_of_pins (fun port => ?_) rfl)
        have huntold : (⟨e.part p, port⟩ : PortRef) ∉ host.targets := by
          intro hmem
          have hinner : (⟨p, port⟩ : PortRef).part < inner.parts.length := hp
          obtain ⟨n, hn, heq⟩ := h.apart hinner ⟨_, hhost, hmem⟩
          exact hother n hn heq
        rw [PartState.getElem?_told]
        simp [huntold]
    · rw [(State.tell_eq _ _ _).1]
      exact (hstate.net n hn).trans (List.getElem?_set_ne (hother n hn).symm).symm
    · rw [(State.tell_eq _ _ _).2.1]
      rfl

/-- A list of tasks does to the inner circuit what those of its own tasks do. -/
theorem foldl_pulled (tasks : List Task) : ∀ {small big : State}, e.Extends inner small big →
    (∀ task ∈ tasks, Known outer task) →
    e.Extends inner ((tasks.filterMap (e.pullTask inner)).foldl (State.perform inner) small)
      (tasks.foldl (State.perform outer) big) := by
  induction tasks with
  | nil => exact fun hstate _ => hstate
  | cons task tasks ih =>
    intro small big hstate hknown
    have hrest := fun other hother => hknown other (List.mem_cons_of_mem _ hother)
    rw [List.foldl_cons]
    cases hpull : e.pullTask inner task with
    | none =>
      rw [List.filterMap_cons_none hpull]
      exact ih (h.skip hstate (hknown task (List.mem_cons_self ..)) hpull) hrest
    | some source =>
      obtain ⟨hsource, rfl⟩ := h.pullTask_iff.mp hpull
      rw [List.filterMap_cons_some hpull, List.foldl_cons]
      exact ih (h.perform hstate hsource) hrest

/-! ## Whole operations -/

/-- Both circuits settle to the same. -/
theorem final (hstate : e.Extends inner small big) :
    e.Extends inner (inner.final small) (outer.final big) := by
  rw [Netlist.final_eq, Netlist.final_eq,
    Netlist.trace_of_straight (h.inner_static h.static).straight,
    Netlist.trace_of_straight h.static.straight, ← h.placedTasks_eq]
  refine h.foldl_pulled _ (h.begun hstate) fun task htask => known_of_mem ?_
  rw [← Netlist.trace_of_straight h.static.straight big] at htask
  exact Netlist.mem_trace.mp htask

/-- Both circuits remember the same at the clock edge. -/
theorem latched (hstate : e.Extends inner small big) :
    e.Extends inner (inner.latched small) (outer.latched big) := by
  have hknown : ∀ task ∈ (compile outer).latchSteps.map fun step => Task.phase step.1 step.2,
      Known outer task := by
    intro task htask
    obtain ⟨step, hstep, rfl⟩ := List.mem_map.mp htask
    obtain ⟨_, hphase, -⟩ := Netlist.mem_latchSteps.mp hstep
    obtain ⟨placed, hplaced, -⟩ := Option.bind_eq_some_iff.mp hphase
    exact (List.getElem?_eq_some_iff.mp hplaced).1
  have hpulled : ((compile outer).latchSteps.map fun step => Task.phase step.1 step.2).filterMap
      (e.pullTask inner) = (compile inner).latchSteps.map fun step => Task.phase step.1 step.2 := by
    rw [← h.latchSteps_eq, List.filterMap_map, List.map_filterMap]
    refine List.filterMap_congr fun step _ => ?_
    rw [Function.comp_apply, pullTask, Option.map_map]
    rfl
  have hfoldl := h.foldl_pulled _ hstate hknown
  rwa [hpulled, List.foldl_map, List.foldl_map] at hfoldl

end Unheard

/-- Both circuits go on holding the same. -/
theorem Unheard.kept (h : e.Unheard inner outer) :
    e.Kept inner outer fun small big => e.Extends inner small big where
  places := h.toPlaces
  related hstate := hstate
  fresh := h.fresh
  final := h.final
  latched := h.latched
  cleared hard hstate := h.cleared hstate hard
  set {small big p placed width initial} hplaced _ value hstate := by
    have hp := (List.getElem?_eq_some_iff.mp hplaced).1
    rw [← hstate.part_eq hp]
    exact h.setPart hstate hp _

/-- What another part remembers does not matter. -/
theorem Extends.setOther (hstate : e.Extends inner small big)
    (hother : ∀ p < inner.parts.length, e.part p ≠ q) (held : PartState) :
    e.Extends inner small (big.setPart q held) :=
  ⟨fun p hp => (hstate.part p hp).trans (List.getElem?_set_ne (hother p hp).symm).symm, hstate.net,
    hstate.halted⟩

end Embedding

end Breadboard
