import Breadboard.Netlist.Flatten
import Breadboard.Proofs.Cover

/-!
# What the steps of a block wait for

A slot keeps the dynamic nodes that its node waits for. The nodes of a block all wait for
the same ones, a node waits for whatever its placed predecessors wait for, and plain edges
lead to a node from all that it waits for (`Placement.Awaiting`). So the dynamic node of a
block is behind every step of that block and of the blocks that have to run after it
(`compile_groups_only_dependents`): a step is never held up by a choice at run time that
it does not depend on itself, only because of the block that it was put in.
-/

namespace Breadboard

variable {graph : Graph} {placement after : Placement} {node dynamic block other : Nat}

namespace Placement

/-- Dynamic nodes wait for themselves, other nodes for what leads to them. Within a block
all wait for the same. -/
structure Awaiting (graph : Graph) (placement : Placement) : Prop where
  own : ∀ slot ∈ placement.slots, graph.isDynamic slot.node = true → slot.node ∈ slot.waits
  lt : ∀ slot ∈ placement.slots, ∀ dynamic ∈ slot.waits, dynamic < graph.size
  chain : ∀ slot ∈ placement.slots, ∀ dynamic ∈ slot.waits,
    Reaches graph.plainTargets dynamic slot.node
  handed : placement.slots.Pairwise fun earlier slot =>
    earlier.node ∈ graph.predecessors .plain slot.node → earlier.waits ⊆ slot.waits
  shared : ∀ slot ∈ placement.slots, ∀ other ∈ placement.slots, slot.block = other.block →
    slot.waits = other.waits

theorem mem_waitsOf : dynamic ∈ waitsOf graph placement node ↔ dynamic < graph.size ∧
    (graph.isDynamic node = true ∧ dynamic = node ∨
      ∃ source ∈ graph.predecessors .plain node, ∃ slot, placement.slot? source = some slot ∧
        dynamic ∈ slot.waits) := by
  simp only [waitsOf, List.mem_filter, List.mem_range, Bool.or_eq_true, Bool.and_eq_true,
    decide_eq_true_eq, List.any_eq_true, List.mem_filterMap]
  refine and_congr_right fun _ => or_congr_right ⟨?_, ?_⟩
  · rintro ⟨slot, ⟨source, hsource, hslot⟩, hmem⟩
    exact ⟨source, hsource, slot, hslot, hmem⟩
  · rintro ⟨source, hsource, slot, hslot, hmem⟩
    exact ⟨slot, ⟨source, hsource, hslot⟩, hmem⟩

/-- A node is put into a new block, or it waits for the same as the block it joins. -/
theorem exists_slot_put (h : Sound graph placement) (node : Nat) : ∃ slot : Slot,
    (placement.put graph node).slots = placement.slots ++ [slot] ∧ slot.node = node ∧
      slot.waits = waitsOf graph placement node ∧
      ((∀ earlier ∈ placement.slots, earlier.block < slot.block) ∨
        ∃ last ∈ placement.slots, slot.block = last.block ∧ slot.waits = last.waits) := by
  refine ⟨⟨node, _, waitsOf graph placement node⟩, slots_foldl_enqueue .., rfl, rfl, ?_⟩
  cases hlast : placement.slots.getLast? with
  | none =>
    left
    intro earlier hearlier
    rw [List.getLast?_eq_none_iff.mp hlast] at hearlier
    cases hearlier
  | some last =>
    dsimp only
    split
    · left
      exact fun earlier hearlier => Nat.lt_succ_of_le (h.block_le_last hlast hearlier)
    · next hjoins =>
      right
      simp only [Bool.or_eq_true, decide_eq_true_eq, not_or, not_not] at hjoins
      exact ⟨last, List.mem_of_getLast? hlast, rfl, hjoins.2.symm⟩

theorem Awaiting.put (hawaiting : Awaiting graph placement) (h : Sound graph placement)
    (hnode : node < graph.size) : Awaiting graph (placement.put graph node) := by
  obtain ⟨slot, hslots, rfl, hwaits, hblock⟩ := exists_slot_put h node
  have hcases : ∀ {other}, other ∈ (placement.put graph slot.node).slots →
      other ∈ placement.slots ∨ other = slot := fun hother => by
    rw [hslots] at hother
    exact (List.mem_append.mp hother).imp_right List.mem_singleton.mp
  -- a slot of an earlier block, or of the block that the node joins
  have hsame : ∀ other ∈ placement.slots, other.block = slot.block → other.waits = slot.waits := by
    intro other hother heq
    rcases hblock with hlater | ⟨last, hlast, hjoined, hequal⟩
    · exact absurd heq (Nat.ne_of_lt (hlater other hother))
    · rw [hequal]
      exact hawaiting.shared other hother last hlast (heq.trans hjoined)
  refine ⟨fun other hother hdynamic => ?_, fun other hother dynamic hmem => ?_,
    fun other hother dynamic hmem => ?_, ?_, fun first hfirst second hsecond heq => ?_⟩
  · rcases hcases hother with hother | rfl
    · exact hawaiting.own other hother hdynamic
    · rw [hwaits]
      exact mem_waitsOf.mpr ⟨hnode, .inl ⟨hdynamic, rfl⟩⟩
  · rcases hcases hother with hother | rfl
    · exact hawaiting.lt other hother dynamic hmem
    · rw [hwaits] at hmem
      exact (mem_waitsOf.mp hmem).1
  · rcases hcases hother with hother | rfl
    · exact hawaiting.chain other hother dynamic hmem
    · rw [hwaits] at hmem
      rcases (mem_waitsOf.mp hmem).2 with ⟨-, rfl⟩ | ⟨source, hsource, found, hfound, hmem⟩
      · exact .refl _
      · have hplaced := List.mem_of_find?_eq_some hfound
        obtain rfl : found.node = source := by simpa using List.find?_some hfound
        exact (hawaiting.chain found hplaced dynamic hmem).tail
          (Graph.mem_plainTargets.mpr (Graph.mem_predecessors.mp hsource).2)
  · rw [hslots, List.pairwise_append]
    refine ⟨hawaiting.handed, List.pairwise_singleton .., fun earlier hearlier other hother => ?_⟩
    obtain rfl := List.mem_singleton.mp hother
    intro hedge dynamic hmem
    rw [hwaits]
    exact mem_waitsOf.mpr ⟨hawaiting.lt earlier hearlier dynamic hmem,
      .inr ⟨earlier.node, hedge, earlier, slot?_of_mem h hearlier, hmem⟩⟩
  · rcases hcases hfirst with hold | rfl <;> rcases hcases hsecond with hold' | rfl
    · exact hawaiting.shared first hold second hold' heq
    · exact hsame first hold heq
    · exact (hsame second hold' heq.symm).symm
    · rfl

theorem Awaiting.advance (reached : List (List Nat)) (hclosed : graph.Closed) (count : Nat) :
    ∀ {placement : Placement}, Awaiting graph placement → Sound graph placement →
      Awaiting graph (placement.advance graph reached count) := by
  induction count with
  | zero => exact fun hawaiting _ => hawaiting
  | succ count ih =>
    intro placement hawaiting h
    rw [Placement.advance]
    split
    · next node after hnext =>
      obtain ⟨hchosen, hafter⟩ := h.next hnext
      have hkept : Awaiting graph after := by
        constructor <;> rw [hchosen.slots]
        exacts [hawaiting.own, hawaiting.lt, hawaiting.chain, hawaiting.handed, hawaiting.shared]
      exact ih (hkept.put hafter hchosen.bound) (hchosen.put hclosed hafter).1
    · exact hawaiting

theorem awaiting_place (hclosed : graph.Closed) : Awaiting graph graph.place := by
  have hrange : ∀ node ∈ List.range graph.size, node < graph.size := fun _ => List.mem_range.mp
  have hstart := (sound_empty graph).foldl_enqueue hrange
  refine Awaiting.advance _ hclosed graph.size ?_ hstart.1
  constructor <;> rw [hstart.2] <;> simp

/-! ## From block to block -/

/-- All nodes of a block wait for a dynamic node. -/
def Await (placement : Placement) (block dynamic : Nat) : Prop :=
  ∀ slot ∈ placement.slots, slot.block = block → dynamic ∈ slot.waits

/-- A block waits for whatever a block before it waits for. -/
theorem Awaiting.await_of_predecessor (hawaiting : Awaiting graph placement)
    (h : Sound graph placement) (hmem : other ∈ placement.predecessors graph block)
    (hother : placement.Await other dynamic) : placement.Await block dynamic := by
  obtain ⟨-, -, node, hnode, source, hedge, hlt, hblock⟩ := mem_predecessors.mp hmem
  obtain ⟨slot, hslot, rfl, rfl⟩ := mem_members.mp hnode
  obtain ⟨first, second, hbefore, rfl, hsecond⟩ := exists_before_slots
    (List.mem_map_of_mem hslot) hlt
  obtain rfl := slot_eq h hbefore.mem_second hslot hsecond
  have hfirst : first.block = other := by
    rw [blockOf?, slot?_of_mem h hbefore.mem_first] at hblock
    exact Option.some.inj hblock
  have hhanded := List.pairwise_pair.mp (hawaiting.handed.sublist hbefore) hedge
  intro slot hslot' heq
  rw [hawaiting.shared slot hslot' second hslot heq]
  exact hhanded (hother first hbefore.mem_first hfirst)

theorem Awaiting.await_of_reaches (hawaiting : Awaiting graph placement)
    (h : Sound graph placement)
    (hreaches : Reaches (fun block => ((placement.blocks graph).getD block default).successors)
      other block) (hother : placement.Await other dynamic) : placement.Await block dynamic := by
  induction hreaches with
  | refl => exact hother
  | @head first second last hnext _ ih =>
    by_cases hfirst : first < placement.blockCount
    · have hlayered := (layered_blocks h).mem_successors first (length_blocks ▸ hfirst) second
      exact ih (hawaiting.await_of_predecessor h (hlayered.mp hnext).2 hother)
    · rw [blocks_eq_default hfirst] at hnext
      cases hnext

end Placement

/-! ## The schedule -/

theorem Graph.lt_of_isDynamic (hclosed : graph.Closed) (hdynamic : graph.isDynamic node = true) :
    node < graph.size := by
  obtain ⟨edge, hmem, hedge⟩ := List.countP_pos_iff.mp (of_decide_eq_true hdynamic)
  obtain ⟨found, hfound, hmem⟩ := List.mem_flatMap.mp hmem
  obtain ⟨source, hsource⟩ := List.getElem?_of_mem hfound
  obtain ⟨rfl, -⟩ : edge.target = node ∧ edge.kind ≠ .plain := by simpa using hedge
  refine hclosed source edge ?_
  rwa [Graph.edges, Graph.node, List.getD_eq_getElem?_getD, hsource]

/-- Every task has one node. -/
theorem Graph.task_inj {netlist : Netlist} {first second : Nat}
    (hfirst : first < (ofNetlist netlist).size) (hsecond : second < (ofNetlist netlist).size)
    (h : (ofNetlist netlist).task first = (ofNetlist netlist).task second) : first = second := by
  have htask : ∀ {node}, node < (ofNetlist netlist).size →
      netlist.tasks[node]? = some ((ofNetlist netlist).task node) := fun hnode => by
    rw [size_ofNetlist] at hnode
    rw [List.getElem?_eq_getElem hnode, task_ofNetlist (List.getElem?_eq_getElem hnode)]
  exact Netlist.node_unique (htask hfirst) (h ▸ htask hsecond)

/-- Blocks do not hold up what does not wait: whatever stands in the block of a dynamic
node, or in a block that comes after it, is that node or depends on it. -/
theorem compile_groups_only_dependents {netlist : Netlist} {dynamic home block : Nat}
    (hdynamic : (Graph.ofNetlist netlist).isDynamic dynamic = true)
    (hhome : (compile netlist).blockOf? ((Graph.ofNetlist netlist).task dynamic) = some home)
    (hlater : Reaches (fun block => ((compile netlist).blocks.getD block default).successors)
      home block) :
    ∀ step ∈ ((compile netlist).blocks.getD block default).steps,
      ∃ node < (Graph.ofNetlist netlist).size, (Graph.ofNetlist netlist).task node = step.task ∧
        Reaches (Graph.ofNetlist netlist).plainTargets dynamic node := by
  have hclosed := Graph.closed_ofNetlist netlist
  have hsound := (Graph.sound_place hclosed).1
  have hawaiting := Placement.awaiting_place hclosed
  have hhere : (Graph.ofNetlist netlist).place.Await home dynamic := by
    obtain ⟨hlt, hany, -⟩ := List.findIdx?_eq_some_iff_getElem.mp hhome
    obtain ⟨step, hstep, htask⟩ := List.any_eq_true.mp hany
    rw [(Placement.getElem?_blocks (List.getElem?_eq_getElem hlt)).2.1] at hstep
    obtain ⟨node, hnode, rfl⟩ := List.mem_map.mp hstep
    obtain ⟨slot, hslot, rfl, rfl⟩ := Placement.mem_members.mp hnode
    obtain rfl : slot.node = dynamic :=
      Graph.task_inj (hsound.bound _ (List.mem_append_left _ (List.mem_map_of_mem hslot)))
        (Graph.lt_of_isDynamic hclosed hdynamic) (of_decide_eq_true htask)
    intro other hother hblock
    rw [hawaiting.shared other hother slot hslot hblock]
    exact hawaiting.own slot hslot hdynamic
  have hthere := hawaiting.await_of_reaches hsound hlater hhere
  intro step hstep
  by_cases hblock : block < (Graph.ofNetlist netlist).place.blockCount
  · rw [Netlist.blocks_compile, Placement.blocks_eq hblock] at hstep
    obtain ⟨node, hnode, rfl⟩ := List.mem_map.mp hstep
    obtain ⟨slot, hslot, rfl, rfl⟩ := Placement.mem_members.mp hnode
    refine ⟨slot.node, ?_, rfl, hawaiting.chain slot hslot dynamic (hthere slot hslot rfl)⟩
    exact hsound.bound _ (List.mem_append_left _ (List.mem_map_of_mem hslot))
  · rw [Netlist.blocks_compile, Placement.blocks_eq_default hblock] at hstep
    cases hstep

/-- The sum of both sides of a bridge, which is a third block. -/
def bridgedSum : Schematic where
  components :=
    [⟨"one", Builtin.constant.id, .obj [("value", .int 1)]⟩, ⟨"br", Builtin.bridge.id, .null⟩,
      ⟨"sum", Builtin.adder.id, .null⟩]
  wires :=
    [⟨"e", [⟨"one", "out"⟩, ⟨"br", "en"⟩, ⟨"br", "dir"⟩]⟩, ⟨"a", [⟨"br", "a"⟩, ⟨"sum", "a"⟩]⟩,
      ⟨"b", [⟨"br", "b"⟩, ⟨"sum", "b"⟩]⟩]

/-- The adder runs behind the net of the first side of the bridge and depends on it. -/
theorem compile_groups_only_dependents_bridged :
    let graph := Graph.ofNetlist (flatten Library.builtin bridgedSum)
    graph.isDynamic 5 = true ∧ graph.task 5 = .net 1 ∧
      ∃ node < graph.size, graph.task node = .phase 2 0 ∧ Reaches graph.plainTargets 5 node := by
  intro graph
  have hdynamic : graph.isDynamic 5 = true := by decide +kernel
  have hhome : (compile (flatten Library.builtin bridgedSum)).blockOf? (graph.task 5) =
      some 1 := by decide +kernel
  have hlater : Reaches (fun block => ((compile (flatten Library.builtin bridgedSum)).blocks.getD
      block default).successors) 1 4 := .head (by decide +kernel) (.refl 4)
  exact ⟨hdynamic, by decide +kernel,
    compile_groups_only_dependents hdynamic hhome hlater ⟨.phase 2 0, []⟩ (by decide +kernel)⟩

end Breadboard
