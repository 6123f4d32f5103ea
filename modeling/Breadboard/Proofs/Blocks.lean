import Breadboard.Proofs.Placement
import Breadboard.Schedule.Basic

/-!
# Blocks of a placement

`Layered` is all that the run of a schedule needs to know about its blocks:
counter 0 of a block is the number of blocks that name it as a successor, these
have smaller numbers, and steps bring down only other counters. The other half
of the file is about order: where a placement has one node before another, the
step of the first stands in an earlier block that the second waits for, or
before it in the same block (`before_or_mem_predecessors`).
-/

namespace Breadboard

structure Layered (blocks : List Block) (predecessors : Nat → List Nat) : Prop where
  counter : ∀ block < blocks.length,
    (blocks.getD block default).initial.head? = some (predecessors block).length
  lower : ∀ block, ∀ other ∈ predecessors block, other < block
  nodup : ∀ block, (predecessors block).Nodup
  successors_nodup : ∀ block, (blocks.getD block default).successors.Nodup
  mem_successors : ∀ block < blocks.length, ∀ other,
    other ∈ (blocks.getD block default).successors ↔
      other < blocks.length ∧ block ∈ predecessors other
  decrements : ∀ block, ∀ step ∈ (blocks.getD block default).steps,
    ∀ target ∈ step.decrements, target.counter ≠ 0

namespace Placement

variable {graph : Graph} {placement : Placement} {node source block other : Nat} {slot : Slot}

/-! ## Slots -/

theorem nodup_order (h : Sound graph placement) : placement.order.Nodup :=
  (List.nodup_append.mp h.nodup).1

theorem slot_eq (h : Sound graph placement) {first second : Slot} (hfirst : first ∈ placement.slots)
    (hsecond : second ∈ placement.slots) (hnode : first.node = second.node) : first = second :=
  List.inj_on_of_nodup_map (nodup_order h) hfirst hsecond hnode

theorem slot?_of_mem (h : Sound graph placement) (hslot : slot ∈ placement.slots) :
    placement.slot? slot.node = some slot := by
  cases hfind : placement.slot? slot.node with
  | none =>
    have := List.find?_eq_none.mp hfind slot hslot
    simp at this
  | some found =>
    have hfound := List.mem_of_find?_eq_some hfind
    have hnode := List.find?_some hfind
    rw [slot_eq h hfound hslot (by simpa using hnode)]

theorem block_lt (h : Sound graph placement) (hslot : slot ∈ placement.slots) :
    slot.block < placement.blockCount := by
  cases hlast : placement.slots.getLast? with
  | none =>
    rw [List.getLast?_eq_none_iff.mp hlast] at hslot
    cases hslot
  | some last =>
    rw [blockCount, hlast]
    exact Nat.lt_succ_of_le (h.block_le_last hlast hslot)

theorem block_le_of_before (h : Sound graph placement) {first second : Slot}
    (hbefore : Before placement.slots first second) : first.block ≤ second.block := by
  have hpair := h.sorted.sublist (hbefore.map (·.block))
  simpa using hpair

theorem mem_members : node ∈ placement.members block ↔
    ∃ slot ∈ placement.slots, slot.block = block ∧ slot.node = node := by
  simp [members, and_assoc]

theorem exists_before_slots (hnode : node ∈ placement.order)
    (h : placement.position source < placement.position node) :
    ∃ first second, Before placement.slots first second ∧
      first.node = source ∧ second.node = node :=
  (Before.of_idxOf_lt hnode h).of_map

/-- The blocks share the nodes out. -/
theorem flatMap_members_perm (h : Sound graph placement) :
    ((List.range placement.blockCount).flatMap placement.members).Perm placement.order := by
  have hslots : placement.slots.Nodup := (nodup_order h).of_map _
  have hperm : ((List.range placement.blockCount).flatMap fun block =>
      placement.slots.filter (·.block = block)).Perm placement.slots := by
    refine (List.perm_ext_iff_of_nodup (List.nodup_flatMap.mpr ⟨?_, ?_⟩) hslots).mpr ?_
    · exact fun block _ => hslots.filter _
    · refine List.nodup_range.imp fun {first second} hne slot hfirst hsecond => hne ?_
      have hblock := of_decide_eq_true (List.mem_filter.mp hfirst).2
      exact hblock.symm.trans (of_decide_eq_true (List.mem_filter.mp hsecond).2)
    · intro slot
      simp only [List.mem_flatMap, List.mem_range, List.mem_filter, decide_eq_true_eq]
      exact ⟨fun ⟨_, _, hslot, _⟩ => hslot, fun hslot => ⟨_, block_lt h hslot, hslot, rfl⟩⟩
  have hmap := hperm.map (·.node)
  rwa [List.map_flatMap] at hmap

/-! ## Predecessors -/

theorem mem_predecessors : other ∈ placement.predecessors graph block ↔
    other < placement.blockCount ∧ other ≠ block ∧
      ∃ node ∈ placement.members block, ∃ source ∈ graph.predecessors .plain node,
        placement.position source < placement.position node ∧
          placement.blockOf? source = some other := by
  simp only [predecessors, List.mem_filter, List.mem_range, Bool.and_eq_true, decide_eq_true_eq,
    List.mem_flatMap, List.mem_filterMap, and_assoc]

/-- A node waits within its block or for a block that has to finish first. -/
theorem before_or_mem_predecessors (h : Sound graph placement)
    (hnode : node ∈ placement.order) (hedge : source ∈ graph.predecessors .plain node)
    (hlt : placement.position source < placement.position node) :
    ∃ first second, source ∈ placement.members first ∧ node ∈ placement.members second ∧
      second < placement.blockCount ∧
      (first = second ∧ Before (placement.members second) source node ∨
        first ∈ placement.predecessors graph second) := by
  obtain ⟨first, second, hbefore, rfl, rfl⟩ := exists_before_slots hnode hlt
  have hfirst := hbefore.mem_first
  have hsecond := hbefore.mem_second
  refine ⟨first.block, second.block, mem_members.mpr ⟨first, hfirst, rfl, rfl⟩,
    mem_members.mpr ⟨second, hsecond, rfl, rfl⟩, block_lt h hsecond, ?_⟩
  by_cases hblock : first.block = second.block
  · refine Or.inl ⟨hblock, ?_⟩
    have hkept : Before (placement.slots.filter (·.block = second.block)) first second := by
      have hsub := List.Sublist.filter (fun slot : Slot => decide (slot.block = second.block))
        hbefore
      simp only [hblock, decide_true, List.filter_cons_of_pos, List.filter_nil] at hsub
      exact hsub
    exact hkept.map (·.node)
  · refine Or.inr (mem_predecessors.mpr ⟨block_lt h hfirst, hblock, second.node,
      mem_members.mpr ⟨second, hsecond, rfl, rfl⟩, first.node, hedge, hlt, ?_⟩)
    rw [blockOf?, slot?_of_mem h hfirst]
    rfl

theorem lt_of_mem_predecessors (h : Sound graph placement)
    (hmem : other ∈ placement.predecessors graph block) : other < block := by
  obtain ⟨-, hne, node, hnode, source, -, hlt, hblock⟩ := mem_predecessors.mp hmem
  obtain ⟨slot, hslot, rfl, rfl⟩ := mem_members.mp hnode
  obtain ⟨found, hfind, rfl⟩ := Option.map_eq_some_iff.mp hblock
  have hfound := List.mem_of_find?_eq_some hfind
  obtain rfl : found.node = source := by simpa using List.find?_some hfind
  obtain ⟨first, second, hbefore, hfirst, hsecond⟩ := exists_before_slots
    (List.mem_map_of_mem hslot) hlt
  obtain rfl := slot_eq h hbefore.mem_first hfound hfirst
  obtain rfl := slot_eq h hbefore.mem_second hslot hsecond
  exact Nat.lt_of_le_of_ne (block_le_of_before h hbefore) hne

/-! ## Blocks -/

theorem length_blocks : (placement.blocks graph).length = placement.blockCount := by
  simp [blocks]

theorem blocks_eq (hblock : block < placement.blockCount) :
    (placement.blocks graph).getD block default =
      { steps := (placement.members block).map fun node =>
          ⟨graph.task node, (graph.edges node).filterMap (decrement? graph placement block)⟩
        counters := .plain (placement.predecessors graph block).length ::
          ((placement.members block).filter graph.isDynamic).map fun node =>
            .oneOf (graph.dynamicDegree node)
        successors := (List.range placement.blockCount).filter fun other =>
          block ∈ placement.predecessors graph other } := by
  simp only [blocks, List.getD_eq_getElem?_getD, List.getElem?_map, List.getElem?_zipIdx,
    List.getElem?_range hblock, Option.map_some, Option.getD_some, Block.mk.injEq, true_and,
    Nat.zero_add]
  refine List.filter_congr fun other hother => ?_
  simp [List.getElem?_range (List.mem_range.mp hother)]

theorem blocks_eq_default (hblock : ¬ block < placement.blockCount) :
    (placement.blocks graph).getD block default = {} := by
  rw [List.getD_eq_getElem?_getD, List.getElem?_eq_none (by rw [length_blocks]; omega)]
  rfl

theorem counter_ne_zero {edge : Edge} {target : Decrement}
    (h : decrement? graph placement block edge = some target) : target.counter ≠ 0 := by
  unfold decrement? at h
  dsimp only at h
  split at h
  · split at h
    · cases h
    · obtain rfl := Option.some.inj h
      simp [counterOf]
  · cases h

theorem layered_blocks (h : Sound graph placement) :
    Layered (placement.blocks graph) (placement.predecessors graph) where
  counter := by
    intro block hblock
    rw [length_blocks] at hblock
    rw [blocks_eq hblock]
    rfl
  lower := fun _ _ => lt_of_mem_predecessors h
  nodup := fun _ => List.nodup_range.filter _
  successors_nodup := by
    intro block
    by_cases hblock : block < placement.blockCount
    · rw [blocks_eq hblock]
      exact List.nodup_range.filter _
    · rw [blocks_eq_default hblock]
      exact List.nodup_nil
  mem_successors := by
    intro block hblock other
    rw [length_blocks] at hblock ⊢
    rw [blocks_eq hblock]
    simp
  decrements := by
    intro block step hstep target htarget
    by_cases hblock : block < placement.blockCount
    · rw [blocks_eq hblock] at hstep
      obtain ⟨node, -, rfl⟩ := List.mem_map.mp hstep
      obtain ⟨edge, -, hedge⟩ := List.mem_filterMap.mp htarget
      exact counter_ne_zero hedge
    · rw [blocks_eq_default hblock] at hstep
      cases hstep

end Placement

end Breadboard
