import Breadboard.Proofs.Blocks
import Breadboard.Proofs.Graph

/-!
# A schedule covers its netlist

`Schedule.Covers` says that a schedule is an exact and consistent account of a
netlist: each ordinary phase and each net stands in one step of one block, each
latch phase stands once among the latch steps, and the counters of the blocks
agree with the steps and blocks that bring them down.

Most of it is what `Placement.Sound` says of the order and `Layered` of the
blocks. The new part is about the counters beside counter 0: a dynamic node
always opens a block (`Placement.Opened`), so a block has no other dynamic node
than its first, and its only such counter stands at position 1.
-/

namespace Breadboard

/-! ## Dynamic nodes open blocks -/

namespace Placement

variable {graph : Graph} {placement after : Placement} {node block : Nat}

/-- Every dynamic node stands in a block behind those of the nodes before it. -/
def Opened (graph : Graph) (placement : Placement) : Prop :=
  placement.slots.Pairwise fun earlier slot =>
    graph.isDynamic slot.node = true → earlier.block < slot.block

theorem slots_foldl_enqueue (nodes : List Nat) : ∀ placement : Placement,
    (nodes.foldl (enqueue graph) placement).slots = placement.slots := by
  induction nodes with
  | nil => exact fun _ => rfl
  | cons node nodes ih => exact fun placement => (ih _).trans slots_enqueue

/-- A dynamic node is put into the next block. -/
theorem exists_slots_put (h : Sound graph placement) (node : Nat) :
    ∃ slot : Slot, (placement.put graph node).slots = placement.slots ++ [slot] ∧
      (graph.isDynamic slot.node = true →
        ∀ earlier ∈ placement.slots, earlier.block < slot.block) := by
  refine ⟨⟨node, _, waitsOf graph placement node⟩, slots_foldl_enqueue .., ?_⟩
  intro hdynamic earlier hearlier
  cases hlast : placement.slots.getLast? with
  | none =>
    rw [List.getLast?_eq_none_iff.mp hlast] at hearlier
    cases hearlier
  | some last =>
    simp only [hdynamic, Bool.true_or, if_true]
    exact Nat.lt_succ_of_le (h.block_le_last hlast hearlier)

theorem Opened.put (hopened : Opened graph placement) (h : Sound graph placement) (node : Nat) :
    Opened graph (placement.put graph node) := by
  obtain ⟨slot, hslots, hlater⟩ := exists_slots_put h node
  rw [Opened, hslots, List.pairwise_append]
  refine ⟨hopened, List.pairwise_singleton .., ?_⟩
  intro earlier hearlier other hother hdynamic
  obtain rfl := List.mem_singleton.mp hother
  exact hlater hdynamic earlier hearlier

theorem Opened.advance (reached : List (List Nat)) (hclosed : graph.Closed) (count : Nat) :
    ∀ {placement : Placement}, Opened graph placement → Sound graph placement →
      Opened graph (placement.advance graph reached count) := by
  induction count with
  | zero => exact fun hopened _ => hopened
  | succ count ih =>
    intro placement hopened h
    rw [Placement.advance]
    split
    · next node after hnext =>
      obtain ⟨hchosen, hafter⟩ := h.next hnext
      have hkept : Opened graph after := by
        rw [Opened, hchosen.slots]
        exact hopened
      exact ih (hkept.put hafter node) (hchosen.put hclosed hafter).1
    · exact hopened

/-- Among the nodes of a block only the first may be dynamic. -/
theorem Opened.isDynamic_tail (hopened : Opened graph placement) {first : Nat} {rest : List Nat}
    (hmembers : placement.members block = first :: rest) (hnode : node ∈ rest) :
    graph.isDynamic node = false := by
  obtain ⟨slot, slots, hslots, rfl, rfl⟩ := List.map_eq_cons_iff.mp hmembers
  obtain ⟨later, hlater, rfl⟩ := List.mem_map.mp hnode
  have hpair : (slot :: slots).Pairwise fun earlier slot =>
      graph.isDynamic slot.node = true → earlier.block < slot.block :=
    hslots ▸ List.Pairwise.sublist List.filter_sublist hopened
  have hin : ∀ other ∈ slot :: slots, other.block = block := by
    intro other hother
    rw [← hslots] at hother
    exact of_decide_eq_true (List.mem_filter.mp hother).2
  have hlt := (List.pairwise_cons.mp hpair).1 later hlater
  rw [hin slot (List.mem_cons_self ..), hin later (List.mem_cons_of_mem _ hlater)] at hlt
  by_contra hdynamic
  exact Nat.lt_irrefl _ (hlt (by simpa using hdynamic))

theorem Opened.filter_members (hopened : Opened graph placement)
    (hnode : node ∈ placement.members block) (hdynamic : graph.isDynamic node = true) :
    (placement.members block).head? = some node ∧
      (placement.members block).filter graph.isDynamic = [node] := by
  cases hmembers : placement.members block with
  | nil =>
    rw [hmembers] at hnode
    cases hnode
  | cons first rest =>
    have hrest : rest.filter graph.isDynamic = [] :=
      List.filter_eq_nil_iff.mpr fun other hother => by
        simp [hopened.isDynamic_tail hmembers hother]
    rw [hmembers] at hnode
    rcases List.mem_cons.mp hnode with rfl | hnode
    · exact ⟨rfl, by rw [List.filter_cons_of_pos hdynamic, hrest]⟩
    · rw [hopened.isDynamic_tail hmembers hnode] at hdynamic
      cases hdynamic

/-! ## The end of the placement -/

/-- With every node placed there is none to choose. -/
theorem next_eq_none (reached : List (List Nat)) (h : Sound graph placement)
    (hall : placement.order.Perm (List.range graph.size)) :
    placement.next graph reached = none := by
  have hqueue : placement.queue = [] := by
    refine List.eq_nil_iff_forall_not_mem.mpr fun node hnode => ?_
    have hplaced : node ∈ placement.order := hall.mem_iff.mpr
      (List.mem_range.mpr (h.bound node (List.mem_append_right _ hnode)))
    exact (List.nodup_append.mp h.nodup).2.2 node hplaced node hnode rfl
  obtain ⟨hready, hdeferred⟩ := List.append_eq_nil_iff.mp hqueue
  have hleft : (List.range graph.size).filter (!placement.placed ·) = [] := by
    refine List.filter_eq_nil_iff.mpr fun node hnode => ?_
    simp [placed_iff.mpr (hall.mem_iff.mpr hnode)]
  simp [Placement.next, hready, hdeferred, hleft, leastBy]

end Placement

variable {graph : Graph} {placement : Placement} {node block : Nat}

theorem Graph.opened_place (hclosed : graph.Closed) : Placement.Opened graph graph.place := by
  have hrange : ∀ node ∈ List.range graph.size, node < graph.size := fun _ => List.mem_range.mp
  have hstart := (Placement.sound_empty graph).foldl_enqueue hrange
  refine Placement.Opened.advance _ hclosed graph.size ?_ hstart.1
  rw [Placement.Opened, hstart.2]
  exact List.Pairwise.nil

/-! ## Counters -/

/-- The kind of the edges that a trigger stands for. -/
def Trigger.kind : Trigger → EdgeKind
  | fired => .oneOf
  | driving port => .drive port

theorem Trigger.kind_ne_plain (trigger : Trigger) : trigger.kind ≠ .plain := by
  cases trigger <;> simp [kind]

theorem Graph.isDynamic_of_edge {kind : EdgeKind} {source : Nat}
    (hedge : ⟨node, kind⟩ ∈ graph.edges source) (hkind : kind ≠ .plain) :
    graph.isDynamic node = true := by
  have hsource : source < graph.nodes.length := by
    by_contra hlt
    rw [Graph.edges, Graph.node, List.getD_eq_getElem?_getD,
      List.getElem?_eq_none (Nat.not_lt.mp hlt)] at hedge
    cases hedge
  have hmem : (⟨node, kind⟩ : Edge) ∈ graph.nodes.flatMap (·.edges) := by
    refine List.mem_flatMap.mpr ⟨graph.nodes[source], List.getElem_mem hsource, ?_⟩
    simpa [Graph.edges, Graph.node, hsource] using hedge
  rw [Graph.isDynamic, decide_eq_true_eq, Graph.dynamicDegree, List.countP_pos_iff]
  exact ⟨_, hmem, by simp [hkind]⟩

namespace Placement

theorem decrement?_eq_some {edge : Edge} {target : Decrement}
    (h : decrement? graph placement block edge = some target) :
    target.block ≠ block ∧ edge.kind = target.trigger.kind ∧
      placement.blockOf? edge.target = some target.block ∧
      target.counter = counterOf graph placement target.block edge.target := by
  obtain ⟨node, kind⟩ := edge
  unfold decrement? at h
  cases kind with
  | plain => cases h
  | oneOf =>
    cases hblock : placement.blockOf? node with
    | none => simp [hblock] at h
    | some other =>
      obtain ⟨hne, rfl⟩ : ¬ other = block ∧ _ := by simpa [hblock] using h
      exact ⟨hne, rfl, rfl, rfl⟩
  | drive port =>
    cases hblock : placement.blockOf? node with
    | none => simp [hblock] at h
    | some other =>
      obtain ⟨hne, rfl⟩ : ¬ other = block ∧ _ := by simpa [hblock] using h
      exact ⟨hne, rfl, rfl, rfl⟩

theorem mem_members_of_blockOf? (h : placement.blockOf? node = some block) :
    node ∈ placement.members block := by
  obtain ⟨slot, hslot, rfl⟩ := Option.map_eq_some_iff.mp h
  have hnode : slot.node = node := by simpa using List.find?_some hslot
  exact mem_members.mpr ⟨slot, List.mem_of_find?_eq_some hslot, rfl, hnode⟩

/-- What a block consists of. -/
theorem getElem?_blocks {index : Nat} {found : Block}
    (h : (placement.blocks graph)[index]? = some found) :
    index < placement.blockCount ∧
      found.steps = (placement.members index).map (fun node =>
        ⟨graph.task node, (graph.edges node).filterMap (decrement? graph placement index)⟩) ∧
      found.counters = .plain (placement.predecessors graph index).length ::
        ((placement.members index).filter graph.isDynamic).map (fun node =>
          .oneOf (graph.dynamicDegree node)) := by
  obtain ⟨hlt, rfl⟩ := List.getElem?_eq_some_iff.mp h
  have hindex : index < placement.blockCount := by rwa [length_blocks] at hlt
  have heq : (placement.blocks graph).getD index default = _ := blocks_eq hindex
  rw [List.getD_eq_getElem?_getD, h, Option.getD_some] at heq
  rw [heq]
  exact ⟨hindex, rfl, rfl⟩

/-- The blocks hold the placed nodes between them. -/
theorem tasks_blocks_perm (h : Sound graph placement) :
    (((placement.blocks graph).flatMap (·.steps)).map (·.task)).Perm
      (placement.order.map graph.task) := by
  have hblocks : (placement.blocks graph).flatMap (·.steps.map (·.task)) =
      (List.range placement.blockCount).flatMap fun index =>
        (placement.members index).map graph.task := by
    rw [← map_range_getD (placement.blocks graph) default, length_blocks, List.flatMap_map]
    refine List.flatMap_congr fun index hindex => ?_
    rw [blocks_eq (List.mem_range.mp hindex), List.map_map]
    rfl
  rw [List.map_flatMap, hblocks, ← List.map_flatMap]
  exact (flatMap_members_perm h).map graph.task

/-- Counter 0 counts the blocks that name the block. -/
theorem countP_successors (h : Sound graph placement) {index : Nat}
    (hindex : index < placement.blockCount) :
    (placement.blocks graph).countP (index ∈ ·.successors) =
      (placement.predecessors graph index).length := by
  have hlayered := layered_blocks h
  have hperm : ((List.range placement.blockCount).filter fun other =>
      index ∈ ((placement.blocks graph).getD other default).successors).Perm
      (placement.predecessors graph index) := by
    refine (List.perm_ext_iff_of_nodup (List.nodup_range.filter _)
      (hlayered.nodup index)).mpr fun other => ?_
    rw [List.mem_filter, List.mem_range, decide_eq_true_eq]
    constructor
    · rintro ⟨hother, hmem⟩
      exact ((hlayered.mem_successors other (length_blocks ▸ hother) index).mp hmem).2
    · intro hmem
      have hother := Nat.lt_trans (hlayered.lower index other hmem) hindex
      exact ⟨hother, (hlayered.mem_successors other (length_blocks ▸ hother) index).mpr
        ⟨length_blocks ▸ hindex, hmem⟩⟩
  rw [← hperm.length_eq, ← List.countP_eq_length_filter]
  conv_lhs => rw [← map_range_getD (placement.blocks graph) default, length_blocks,
    List.countP_map]
  rfl

/-- The counter of a dynamic node is the second one of the block that the node
opens. -/
theorem Opened.counter (hopened : Opened graph placement) {index : Nat} {found : Block}
    (hfound : (placement.blocks graph)[index]? = some found)
    (hnode : node ∈ placement.members index) (hdynamic : graph.isDynamic node = true) :
    counterOf graph placement index node = 1 ∧
      found.counters.tail = [.oneOf (graph.dynamicDegree node)] ∧
      ∃ first, found.steps.head? = some first ∧ first.task = graph.task node := by
  obtain ⟨-, hsteps, hcounters⟩ := getElem?_blocks hfound
  obtain ⟨hhead, hfilter⟩ := hopened.filter_members hnode hdynamic
  refine ⟨?_, ?_, ?_⟩
  · rw [counterOf, hfilter, List.idxOf_cons_self]
  · rw [hcounters, hfilter]
    rfl
  · rw [hsteps, List.head?_map, hhead]
    exact ⟨_, rfl, rfl⟩

theorem Opened.choices (hopened : Opened graph placement) {index : Nat} {found : Block}
    (hfound : (placement.blocks graph)[index]? = some found) :
    found.counters.tail = [] ∨
      ∃ node first, graph.isDynamic node = true ∧ found.steps.head? = some first ∧
        first.task = graph.task node ∧
        found.counters.tail = [.oneOf (graph.dynamicDegree node)] := by
  cases hfilter : (placement.members index).filter graph.isDynamic with
  | nil =>
    left
    rw [(getElem?_blocks hfound).2.2, hfilter]
    rfl
  | cons node rest =>
    right
    obtain ⟨hnode, hdynamic⟩ := List.mem_filter.mp (hfilter ▸ List.mem_cons_self : node ∈ _)
    obtain ⟨-, htail, first, hfirst, htask⟩ := hopened.counter hfound hnode hdynamic
    exact ⟨node, first, hdynamic, hfirst, htask, htail⟩

/-- What a step brings down is the counter of the first step of another block. -/
theorem Opened.decrements (hopened : Opened graph placement) (h : Sound graph placement)
    {index : Nat} {found : Block} {step : Step} {target : Decrement}
    (hfound : (placement.blocks graph)[index]? = some found) (hstep : step ∈ found.steps)
    (htarget : target ∈ step.decrements) : target.block ≠ index ∧
      ∃ source node other first, step.task = graph.task source ∧
        ⟨node, target.trigger.kind⟩ ∈ graph.edges source ∧
        (placement.blocks graph)[target.block]? = some other ∧ other.steps.head? = some first ∧
        first.task = graph.task node ∧
        other.counters[target.counter]? = some (.oneOf (graph.dynamicDegree node)) := by
  rw [(getElem?_blocks hfound).2.1] at hstep
  obtain ⟨source, -, rfl⟩ := List.mem_map.mp hstep
  obtain ⟨⟨node, kind⟩, hedge, hdecrement⟩ := List.mem_filterMap.mp htarget
  obtain ⟨hne, hkind, hblock, hcounter⟩ := decrement?_eq_some hdecrement
  obtain rfl : kind = target.trigger.kind := hkind
  have hmember := mem_members_of_blockOf? hblock
  have hdynamic := Graph.isDynamic_of_edge hedge target.trigger.kind_ne_plain
  have hlt : target.block < (placement.blocks graph).length := by
    obtain ⟨slot, hslot, hslotBlock, -⟩ := mem_members.mp hmember
    rw [length_blocks, ← hslotBlock]
    exact block_lt h hslot
  have hother := List.getElem?_eq_getElem hlt
  obtain ⟨hone, htail, first, hfirst, htask⟩ := hopened.counter hother hmember hdynamic
  refine ⟨hne, source, node, _, first, rfl, hedge, hother, hfirst, htask, ?_⟩
  rw [hcounter, hone, ← List.getElem?_tail, htail]
  rfl

end Placement

/-! ## Latch steps -/

namespace Netlist

variable {netlist : Netlist} {part position : Nat}

/-- The latch phases of a part, in order. -/
def latchPhases (netlist : Netlist) (part : Nat) : List (Nat × Nat) :=
  (netlist.parts.getD part default).phases.zipIdx.filterMap fun (phase, position) =>
    if phase.latch then some (part, position) else none

theorem latchSteps_eq (netlist : Netlist) (blocks : List Block)
    (hparts : ∀ step ∈ blocks.flatMap (·.steps), ∀ part position,
      step.task = .phase part position → part < netlist.parts.length) :
    ∃ order : List Nat, order.Perm (List.range netlist.parts.length) ∧
      latchSteps netlist blocks = order.flatMap netlist.latchPhases := by
  refine ⟨_, (List.perm_ext_iff_of_nodup (nodup_eraseDups _) List.nodup_range).mpr fun part => ?_,
    rfl⟩
  rw [List.mem_eraseDups, List.mem_append, or_iff_right_of_imp]
  intro hmem
  obtain ⟨step, hstep, hpart⟩ := List.mem_filterMap.mp hmem
  rw [List.mem_range]
  cases htask : step.task with
  | net _ => simp [htask] at hpart
  | phase found position =>
    obtain rfl : found = part := by simpa [htask] using hpart
    exact hparts step hstep found position htask

theorem mem_latchPhases {pair : Nat × Nat} : pair ∈ netlist.latchPhases part ↔
    pair.1 = part ∧ ∃ phase, netlist.phase? part pair.2 = some phase ∧ phase.latch = true := by
  obtain ⟨found, position⟩ := pair
  simp only [latchPhases, List.mem_filterMap, Prod.exists, List.mk_mem_zipIdx_iff_getElem?]
  constructor
  · rintro ⟨phase, place, hphase, heq⟩
    obtain ⟨hlatch, heq⟩ := Option.ite_none_right_eq_some.mp heq
    obtain ⟨rfl, rfl⟩ := Prod.mk.inj (Option.some.inj heq)
    refine ⟨rfl, phase, ?_, hlatch⟩
    cases hpart : netlist.parts[part]? with
    | none => simp [hpart, show (default : Part).phases = [] from rfl] at hphase
    | some _ => simpa [phase?, hpart] using hphase
  · rintro ⟨rfl, phase, hphase, hlatch⟩
    obtain ⟨_, hpart, hphase⟩ := Option.bind_eq_some_iff.mp hphase
    exact ⟨phase, position, by simpa [hpart] using hphase, by simp [hlatch]⟩

theorem part_lt {phase : Phase} (h : netlist.phase? part position = some phase) :
    part < netlist.parts.length := by
  obtain ⟨_, hpart, -⟩ := Option.bind_eq_some_iff.mp h
  exact (List.getElem?_eq_some_iff.mp hpart).1

theorem pairwise_latchPhases (netlist : Netlist) (part : Nat) :
    (netlist.latchPhases part).Pairwise fun first second => first.2 < second.2 := by
  refine List.Pairwise.filterMap _ ?_ (pairwise_zipIdx _)
  rintro ⟨_, position⟩ ⟨_, later⟩ hlt first hfirst second hsecond
  obtain rfl := Option.some.inj (Option.ite_none_right_eq_some.mp hfirst).2
  obtain rfl := Option.some.inj (Option.ite_none_right_eq_some.mp hsecond).2
  exact hlt

/-- No latch phase is listed twice, whatever the order of the parts. -/
theorem nodup_flatMap_latchPhases {order : List Nat} (horder : order.Nodup) :
    (order.flatMap netlist.latchPhases).Nodup := by
  refine List.nodup_flatMap.mpr ⟨fun part _ => ?_, ?_⟩
  · refine (netlist.pairwise_latchPhases part).imp fun {first second} hlt => ?_
    rintro rfl
    exact Nat.lt_irrefl _ hlt
  · refine horder.imp fun {first second} hne pair hfirst hsecond => hne ?_
    exact (mem_latchPhases.mp hfirst).1.symm.trans (mem_latchPhases.mp hsecond).1

end Netlist

/-! ## The whole schedule -/

/-- A schedule is an exact and consistent account of a netlist. -/
structure Schedule.Covers (netlist : Netlist) (schedule : Schedule) : Prop where
  /-- No task stands in two steps, -/
  nodup_tasks : ((schedule.blocks.flatMap (·.steps)).map (·.task)).Nodup
  /-- and the tasks are the ordinary phases and the nets. -/
  mem_tasks : ∀ task, task ∈ (schedule.blocks.flatMap (·.steps)).map (·.task) ↔
    (∃ part position phase, netlist.Ordinary part position phase ∧ task = .phase part position) ∨
      ∃ net < netlist.nets.length, task = .net net
  /-- The latch phases stand together by part, -/
  latch_order : ∃ order : List Nat, order.Perm (List.range netlist.parts.length) ∧
    schedule.latchSteps = order.flatMap netlist.latchPhases
  nodup_latch : schedule.latchSteps.Nodup
  mem_latch : ∀ part position, (part, position) ∈ schedule.latchSteps ↔
    ∃ phase, netlist.phase? part position = some phase ∧ phase.latch = true
  waits : ∀ index (block : Block), schedule.blocks[index]? = some block →
    block.counters.head? = some (.plain (schedule.blocks.countP (index ∈ ·.successors)))
  nodup_successors : ∀ block ∈ schedule.blocks, block.successors.Nodup
  lt_successors : ∀ index (block : Block), schedule.blocks[index]? = some block →
    ∀ other ∈ block.successors, index < other ∧ other < schedule.blocks.length
  decrements : ∀ index (block : Block), schedule.blocks[index]? = some block →
    ∀ step ∈ block.steps, ∀ target ∈ step.decrements, target.block ≠ index ∧
      ∃ source node other first, step.task = (Graph.ofNetlist netlist).task source ∧
        ⟨node, target.trigger.kind⟩ ∈ (Graph.ofNetlist netlist).edges source ∧
        schedule.blocks[target.block]? = some other ∧ other.steps.head? = some first ∧
        first.task = (Graph.ofNetlist netlist).task node ∧
        other.counters[target.counter]? =
          some (.oneOf ((Graph.ofNetlist netlist).dynamicDegree node))
  choices : ∀ block ∈ schedule.blocks, block.counters.tail = [] ∨
    ∃ node first, (Graph.ofNetlist netlist).isDynamic node = true ∧
      block.steps.head? = some first ∧ first.task = (Graph.ofNetlist netlist).task node ∧
      block.counters.tail = [.oneOf ((Graph.ofNetlist netlist).dynamicDegree node)]

namespace Netlist

variable {netlist : Netlist}

theorem blocks_compile (netlist : Netlist) : (compile netlist).blocks =
    (Graph.ofNetlist netlist).place.blocks (Graph.ofNetlist netlist) := rfl

theorem tasks_compile_perm (netlist : Netlist) :
    (((compile netlist).blocks.flatMap (·.steps)).map (·.task)).Perm netlist.tasks := by
  have hclosed := Graph.closed_ofNetlist netlist
  have hperm := (Placement.tasks_blocks_perm (Graph.sound_place hclosed).1).trans
    ((Graph.order_place_perm hclosed).map (Graph.ofNetlist netlist).task)
  rwa [Graph.map_task_ofNetlist] at hperm

theorem mem_tasks {task : Task} : task ∈ netlist.tasks ↔
    (∃ part position phase, netlist.Ordinary part position phase ∧ task = .phase part position) ∨
      ∃ net < netlist.nets.length, task = .net net := by
  rw [tasks, List.mem_append, mem_phaseTasks]
  simp [eq_comm]

theorem latchSteps_compile (netlist : Netlist) :
    ∃ order : List Nat, order.Perm (List.range netlist.parts.length) ∧
      (compile netlist).latchSteps = order.flatMap netlist.latchPhases := by
  have heq : (compile netlist).latchSteps = latchSteps netlist (compile netlist).blocks := by
    simp only [compile]
  rw [heq]
  refine netlist.latchSteps_eq (compile netlist).blocks fun step hstep part position htask => ?_
  have hmem := netlist.tasks_compile_perm.mem_iff.mp (List.mem_map_of_mem hstep)
  rw [htask] at hmem
  obtain ⟨_, _, phase, hphase, heq⟩ := (mem_tasks.mp hmem).resolve_right (by simp)
  obtain ⟨rfl, rfl⟩ := Task.phase.inj heq
  exact part_lt hphase.1

theorem mem_latchSteps {part position : Nat} : (part, position) ∈ (compile netlist).latchSteps ↔
    ∃ phase, netlist.phase? part position = some phase ∧ phase.latch = true := by
  obtain ⟨order, horder, hlatch⟩ := netlist.latchSteps_compile
  rw [hlatch, List.mem_flatMap]
  constructor
  · rintro ⟨_, -, hmem⟩
    obtain ⟨rfl, hphase⟩ := mem_latchPhases.mp hmem
    exact hphase
  · rintro ⟨phase, hphase, hlatch⟩
    refine ⟨part, horder.mem_iff.mpr (List.mem_range.mpr (part_lt hphase)), ?_⟩
    exact mem_latchPhases.mpr ⟨rfl, phase, hphase, hlatch⟩

theorem nodup_latchSteps (netlist : Netlist) : (compile netlist).latchSteps.Nodup := by
  obtain ⟨order, horder, hlatch⟩ := netlist.latchSteps_compile
  rw [hlatch]
  exact nodup_flatMap_latchPhases (horder.nodup_iff.mpr List.nodup_range)

end Netlist

/-- Compiling a netlist places every node and stops there, and the schedule it
makes covers the netlist. -/
theorem compile_covers (netlist : Netlist) :
    (Graph.ofNetlist netlist).place.order.Perm (List.range (Graph.ofNetlist netlist).size) ∧
    (∀ reached, (Graph.ofNetlist netlist).place.next (Graph.ofNetlist netlist) reached = none) ∧
    (compile netlist).Covers netlist := by
  have hclosed := Graph.closed_ofNetlist netlist
  have hsound := (Graph.sound_place hclosed).1
  have hopened := Graph.opened_place hclosed
  have hlayered := Placement.layered_blocks hsound
  have hplaced := Graph.order_place_perm hclosed
  have hblocks := netlist.blocks_compile
  refine ⟨hplaced, fun reached => Placement.next_eq_none reached hsound hplaced, ?_⟩
  exact {
    nodup_tasks := netlist.tasks_compile_perm.nodup_iff.mpr netlist.nodup_tasks
    mem_tasks := fun _ => netlist.tasks_compile_perm.mem_iff.trans Netlist.mem_tasks
    latch_order := netlist.latchSteps_compile
    nodup_latch := netlist.nodup_latchSteps
    mem_latch := fun _ _ => Netlist.mem_latchSteps
    waits := by
      intro index block hblock
      rw [hblocks] at hblock ⊢
      obtain ⟨hindex, -, hcounters⟩ := Placement.getElem?_blocks hblock
      rw [hcounters, Placement.countP_successors hsound hindex]
      rfl
    nodup_successors := by
      intro block hblock
      rw [hblocks] at hblock
      obtain ⟨index, hindex⟩ := List.getElem?_of_mem hblock
      have hnodup := hlayered.successors_nodup index
      rwa [List.getD_eq_getElem?_getD, hindex] at hnodup
    lt_successors := by
      intro index block hblock other hother
      rw [hblocks] at hblock ⊢
      obtain ⟨hindex, -⟩ := List.getElem?_eq_some_iff.mp hblock
      have hmem := hlayered.mem_successors index hindex other
      rw [List.getD_eq_getElem?_getD, hblock] at hmem
      obtain ⟨hlt, hpredecessor⟩ := hmem.mp hother
      exact ⟨hlayered.lower other index hpredecessor, hlt⟩
    decrements := by
      intro index block hblock step hstep target htarget
      rw [hblocks] at hblock ⊢
      exact hopened.decrements hsound hblock hstep htarget
    choices := by
      intro block hblock
      rw [hblocks] at hblock
      obtain ⟨index, hindex⟩ := List.getElem?_of_mem hblock
      exact hopened.choices hindex }

end Breadboard
