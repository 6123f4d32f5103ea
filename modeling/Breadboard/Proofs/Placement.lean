import Breadboard.Proofs.Order
import Breadboard.Schedule.Placement

/-!
# A placement orders the graph

`Placement.Sound` is what every step of the placement keeps: placed and queued
nodes are all different, queued nodes have no outstanding predecessor, blocks
are numbered upwards, and as long as no loop was broken each node stands behind
its plain predecessors. One lemma for each of `enqueue`, `next` and `put` is
all that opens those definitions; `sound_place` and `order_place_perm` are
their sum over a whole run.
-/

namespace Breadboard

/-- Every edge leads to a node of the graph. -/
def Graph.Closed (graph : Graph) : Prop :=
  ∀ node, ∀ edge ∈ graph.edges node, edge.target < graph.size

theorem Graph.mem_predecessors {graph : Graph} {kind : EdgeKind} {source target : Nat} :
    source ∈ graph.predecessors kind target ↔
      source < graph.size ∧ ⟨target, kind⟩ ∈ graph.edges source := by
  simp [Graph.predecessors]

theorem Graph.mem_plainTargets {graph : Graph} {source target : Nat} :
    target ∈ graph.plainTargets source ↔ ⟨target, .plain⟩ ∈ graph.edges source := by
  simp only [Graph.plainTargets, List.mem_filterMap]
  constructor
  · rintro ⟨⟨_, kind⟩, hmem, heq⟩
    by_cases hkind : kind = .plain
    · subst hkind
      simp only [if_true, Option.some.injEq] at heq
      exact heq ▸ hmem
    · simp [hkind] at heq
  · intro hmem
    exact ⟨_, hmem, by simp⟩

namespace Placement

variable {graph : Graph} {placement after : Placement} {node source : Nat}

def queue (placement : Placement) : List Nat :=
  placement.ready ++ placement.deferred

theorem placed_iff : placement.placed node = true ↔ node ∈ placement.order := by
  simp [placed, order]

theorem queued_iff : placement.queued node = true ↔ node ∈ placement.queue := by
  simp [queued, queue]

theorem outstanding_eq_nil_iff :
    placement.outstanding graph node = [] ↔
      ∀ source ∈ graph.predecessors .plain node, source ∈ placement.order := by
  simp only [outstanding, List.filter_eq_nil_iff, Bool.not_eq_true', Bool.not_eq_false,
    placed_iff]

structure Sound (graph : Graph) (placement : Placement) : Prop where
  nodup : (placement.order ++ placement.queue).Nodup
  bound : ∀ node ∈ placement.order ++ placement.queue, node < graph.size
  ready : ∀ node ∈ placement.queue, placement.outstanding graph node = []
  sorted : (placement.slots.map (·.block)).Pairwise (· ≤ ·)
  waited : placement.loops = [] → ∀ node ∈ placement.order,
    ∀ source ∈ graph.predecessors .plain node, Before placement.order source node

theorem sound_empty (graph : Graph) : Sound graph {} where
  nodup := List.nodup_nil
  bound := by simp [order, queue]
  ready := by simp [queue]
  sorted := List.Pairwise.nil
  waited := by simp [order]

/-! ## Queueing -/

@[simp] theorem slots_enqueue : (enqueue graph placement node).slots = placement.slots := by
  unfold enqueue
  split
  · rfl
  · split <;> rfl

@[simp] theorem loops_enqueue : (enqueue graph placement node).loops = placement.loops := by
  unfold enqueue
  split
  · rfl
  · split <;> rfl

/-- A queued node is new, and all its plain predecessors are placed. -/
theorem queue_enqueue (graph : Graph) (placement : Placement) (node : Nat) :
    (enqueue graph placement node).queue.Perm placement.queue ∨
      node ∉ placement.order ++ placement.queue ∧ placement.outstanding graph node = [] ∧
        (enqueue graph placement node).queue.Perm (node :: placement.queue) := by
  by_cases hskip : (placement.placed node || placement.queued node ||
      !placement.isReady graph node) = true
  · left
    simp [enqueue, hskip]
  · right
    have hopen := hskip
    simp only [Bool.or_eq_true, Bool.not_eq_true', not_or, Bool.not_eq_false,
      placed_iff, queued_iff] at hopen
    obtain ⟨⟨hplaced, hqueued⟩, hready⟩ := hopen
    refine ⟨by simp [hplaced, hqueued], ?_, ?_⟩
    · simp only [isReady, Bool.and_eq_true, List.isEmpty_iff] at hready
      exact hready.1
    · simp only [enqueue, hskip, Bool.false_eq_true, if_false]
      split
      · simp only [queue, ← List.append_assoc]
        exact List.perm_append_singleton node _
      · simp only [queue, List.append_assoc, List.singleton_append]
        exact List.perm_middle

theorem Sound.enqueue (h : Sound graph placement) (hnode : node < graph.size) :
    Sound graph (enqueue graph placement node) := by
  have horder : (Placement.enqueue graph placement node).order = placement.order := by
    simp [order]
  have houtstanding : ∀ other, (Placement.enqueue graph placement node).outstanding graph other =
      placement.outstanding graph other := by
    intro other
    simp [outstanding, placed]
  rcases queue_enqueue graph placement node
    with hperm | ⟨hfresh, hready, hperm⟩
  · refine ⟨?_, ?_, ?_, ?_, ?_⟩
    · rw [horder]
      exact (hperm.append_left _).nodup_iff.mpr h.nodup
    · intro other hother
      rw [horder] at hother
      exact h.bound other ((hperm.append_left _).mem_iff.mp hother)
    · intro other hother
      rw [houtstanding]
      exact h.ready other (hperm.mem_iff.mp hother)
    · rw [slots_enqueue]
      exact h.sorted
    · rw [loops_enqueue, horder]
      exact h.waited
  · have hall : (placement.order ++ (Placement.enqueue graph placement node).queue).Perm
        (node :: (placement.order ++ placement.queue)) :=
      (hperm.append_left _).trans List.perm_middle
    refine ⟨?_, ?_, ?_, ?_, ?_⟩
    · rw [horder]
      exact hall.nodup_iff.mpr (List.nodup_cons.mpr ⟨hfresh, h.nodup⟩)
    · intro other hother
      rw [horder] at hother
      rcases List.mem_cons.mp (hall.mem_iff.mp hother) with rfl | hother
      · exact hnode
      · exact h.bound other hother
    · intro other hother
      rw [houtstanding]
      rcases List.mem_cons.mp (hperm.mem_iff.mp hother) with rfl | hother
      · exact hready
      · exact h.ready other hother
    · rw [slots_enqueue]
      exact h.sorted
    · rw [loops_enqueue, horder]
      exact h.waited

theorem Sound.foldl_enqueue {nodes : List Nat} (h : Sound graph placement)
    (hnodes : ∀ node ∈ nodes, node < graph.size) :
    Sound graph (nodes.foldl (Placement.enqueue graph) placement) ∧
      (nodes.foldl (Placement.enqueue graph) placement).slots = placement.slots := by
  induction nodes generalizing placement with
  | nil => exact ⟨h, rfl⟩
  | cons node nodes ih =>
    have hrest := ih (h.enqueue (hnodes node (List.mem_cons_self ..)))
      (fun other hother => hnodes other (List.mem_cons_of_mem _ hother))
    exact ⟨hrest.1, hrest.2.trans slots_enqueue⟩

/-! ## The next node -/

/-- What the choice of the next node guarantees. Only a broken loop may leave
predecessors of the node outstanding, and it leaves a trace. -/
structure Chosen (graph : Graph) (placement after : Placement) (node : Nat) : Prop where
  bound : node < graph.size
  fresh : node ∉ after.order ++ after.queue
  slots : after.slots = placement.slots
  loops : ∃ found, after.loops = placement.loops ++ found
  outstanding : after.loops = placement.loops → placement.outstanding graph node = []

theorem Chosen.of_queue (h : Sound graph placement) (rest : List Nat)
    (hqueue : placement.queue.Perm (node :: rest)) (hrest : after.queue = rest)
    (hslots : after.slots = placement.slots) (hloops : after.loops = placement.loops) :
    Chosen graph placement after node ∧ Sound graph after := by
  have horder : after.order = placement.order := by rw [order, hslots, order]
  have hall : (placement.order ++ placement.queue).Perm
      (node :: (placement.order ++ rest)) :=
    (hqueue.append_left _).trans List.perm_middle
  have hnodup := hall.nodup_iff.mp h.nodup
  have houtstanding : ∀ other, after.outstanding graph other =
      placement.outstanding graph other := by
    intro other
    simp only [Placement.outstanding, placed, hslots]
  refine ⟨⟨?_, ?_, hslots, ⟨[], by simp [hloops]⟩, fun _ => ?_⟩, ⟨?_, ?_, ?_, ?_, ?_⟩⟩
  · exact h.bound node (hall.mem_iff.mpr (List.mem_cons_self ..))
  · rw [horder, hrest]
    exact (List.nodup_cons.mp hnodup).1
  · exact h.ready node (hqueue.mem_iff.mpr (List.mem_cons_self ..))
  · rw [horder, hrest]
    exact (List.nodup_cons.mp hnodup).2
  · intro other hother
    rw [horder, hrest] at hother
    exact h.bound other (hall.mem_iff.mpr (List.mem_cons_of_mem _ hother))
  · intro other hother
    rw [hrest] at hother
    rw [houtstanding]
    exact h.ready other (hqueue.mem_iff.mpr (List.mem_cons_of_mem _ hother))
  · rw [hslots]
    exact h.sorted
  · rw [hloops, horder]
    exact h.waited

/-- With empty queues the choice is among the nodes that are left. -/
theorem Chosen.of_left (h : Sound graph placement) (hbound : node < graph.size)
    (hleft : placement.placed node = false) (hqueue : placement.queue = [])
    (found : List (List Nat))
    (houtstanding : found = [] → placement.outstanding graph node = []) :
    Chosen graph placement { placement with loops := placement.loops ++ found } node ∧
      Sound graph { placement with loops := placement.loops ++ found } := by
  have hfresh : node ∉ placement.order := by
    intro hmem
    rw [placed_iff.mpr hmem] at hleft
    cases hleft
  refine ⟨⟨hbound, ?_, rfl, ⟨found, rfl⟩, ?_⟩, ⟨h.nodup, h.bound, h.ready, h.sorted, ?_⟩⟩
  · intro hmem
    rcases List.mem_append.mp hmem with hmem | hmem
    · exact hfresh hmem
    · change node ∈ placement.queue at hmem
      rw [hqueue] at hmem
      cases hmem
  · intro heq
    exact houtstanding (List.append_right_eq_self.mp heq)
  · intro heq
    exact h.waited (List.append_eq_nil_iff.mp heq).1

theorem Sound.next {reached : List (List Nat)} (h : Sound graph placement)
    (hnext : placement.next graph reached = some (node, after)) :
    Chosen graph placement after node ∧ Sound graph after := by
  unfold Placement.next at hnext
  split at hnext
  · next first ready deferred hready =>
    obtain ⟨rfl, rfl⟩ := Prod.mk.inj (Option.some.inj hnext)
    exact Chosen.of_queue h _ (by simp [queue, hready]) rfl rfl rfl
  · next first deferred hready hdeferred =>
    obtain ⟨rfl, rfl⟩ := Prod.mk.inj (Option.some.inj hnext)
    exact Chosen.of_queue h deferred (by simp [queue, hready, hdeferred])
      (by simp [queue, hready]) rfl rfl
  · next hready hdeferred =>
    have hqueue : placement.queue = [] := by simp [queue, hready, hdeferred]
    have hleft : ∀ other ∈ (List.range graph.size).filter (!placement.placed ·),
        other < graph.size ∧ placement.placed other = false := by
      intro other hother
      obtain ⟨hrange, hplaced⟩ := List.mem_filter.mp hother
      exact ⟨List.mem_range.mp hrange, by simpa using hplaced⟩
    dsimp only at hnext
    split at hnext
    · next waiting hwaiting =>
      obtain ⟨rfl, rfl⟩ := Prod.mk.inj (Option.some.inj hnext)
      obtain ⟨hbound, hplaced⟩ := hleft waiting (List.mem_of_find?_eq_some hwaiting)
      have hready := List.find?_some hwaiting
      have := Chosen.of_left h hbound hplaced hqueue [] (fun _ => by simpa using hready)
      simpa using this
    · obtain ⟨chosen, hchosen, heq⟩ := Option.map_eq_some_iff.mp hnext
      obtain ⟨rfl, rfl⟩ := Prod.mk.inj heq
      have hmem : chosen ∈ (List.range graph.size).filter (!placement.placed ·) := by
        have := leastBy_mem hchosen
        split at this
        · exact this
        · exact (List.mem_filter.mp this).1
      obtain ⟨hbound, hplaced⟩ := hleft chosen hmem
      exact Chosen.of_left h hbound hplaced hqueue _ (fun heq => by cases heq)

/-- While nodes are left, one of them can be chosen. -/
theorem next_isSome (reached : List (List Nat))
    (hleft : placement.order.length < graph.size) :
    (placement.next graph reached).isSome = true := by
  obtain ⟨free, hbound, hfree⟩ := exists_lt_not_mem hleft
  have hmem : free ∈ (List.range graph.size).filter (!placement.placed ·) := by
    refine List.mem_filter.mpr ⟨List.mem_range.mpr hbound, ?_⟩
    simpa [← placed_iff] using hfree
  unfold Placement.next
  split
  · rfl
  · rfl
  · dsimp only
    split
    · rfl
    · rw [Option.isSome_map]
      by_contra hnone
      have hnil := leastBy_eq_none_iff.mp (Option.not_isSome_iff_eq_none.mp hnone)
      split at hnil
      · rw [hnil] at hmem
        cases hmem
      · next hcyclic => simp [hnil] at hcyclic

/-! ## Putting a node -/

theorem Sound.append (h : Sound graph placement) (slot : Slot) (hbound : slot.node < graph.size)
    (hfresh : slot.node ∉ placement.order ++ placement.queue)
    (hblock : ∀ earlier ∈ placement.slots, earlier.block ≤ slot.block)
    (hwait : placement.loops = [] → placement.outstanding graph slot.node = []) :
    Sound graph { placement with slots := placement.slots ++ [slot] } := by
  have horder : ({ placement with slots := placement.slots ++ [slot] } : Placement).order =
      placement.order ++ [slot.node] := by
    simp [order]
  have hall : (placement.order ++ [slot.node] ++ placement.queue).Perm
      (slot.node :: (placement.order ++ placement.queue)) := by
    rw [List.append_assoc, List.singleton_append]
    exact List.perm_middle
  refine ⟨?_, ?_, ?_, ?_, ?_⟩
  · rw [horder]
    exact hall.nodup_iff.mpr (List.nodup_cons.mpr ⟨hfresh, h.nodup⟩)
  · intro node hnode
    rw [horder] at hnode
    rcases List.mem_cons.mp (hall.mem_iff.mp hnode) with rfl | hnode
    · exact hbound
    · exact h.bound node hnode
  · intro node hnode
    rw [outstanding_eq_nil_iff, horder]
    intro source hsource
    exact List.mem_append_left _ (outstanding_eq_nil_iff.mp (h.ready node hnode) source hsource)
  · rw [List.map_append, List.pairwise_append]
    refine ⟨h.sorted, List.pairwise_singleton .., ?_⟩
    intro block hmem other hother
    obtain ⟨earlier, hearlier, rfl⟩ := List.mem_map.mp hmem
    rw [List.mem_singleton.mp hother]
    exact hblock earlier hearlier
  · intro hloops node hnode source hsource
    rw [horder] at hnode ⊢
    rcases List.mem_append.mp hnode with hnode | hnode
    · exact (h.waited hloops node hnode source hsource).trans_sublist
        (List.sublist_append_left ..)
    · rw [List.mem_singleton.mp hnode] at hsource ⊢
      exact Before.of_mem_left (outstanding_eq_nil_iff.mp (hwait hloops) source hsource)

theorem Sound.block_le_last {last earlier : Slot} (h : Sound graph placement)
    (hlast : placement.slots.getLast? = some last) (hearlier : earlier ∈ placement.slots) :
    earlier.block ≤ last.block := by
  obtain ⟨others, hslots⟩ := List.getLast?_eq_some_iff.mp hlast
  have hsorted := h.sorted
  rw [hslots, List.map_append, List.pairwise_append] at hsorted
  rw [hslots] at hearlier
  rcases List.mem_append.mp hearlier with hearlier | hearlier
  · exact hsorted.2.2 _ (List.mem_map_of_mem hearlier) _ (by simp)
  · exact Nat.le_of_eq (by rw [List.mem_singleton.mp hearlier])

/-- A node goes into the block of the node before it or into the next one. -/
theorem exists_put_eq (h : Sound graph placement) (node : Nat) :
    ∃ slot : Slot, slot.node = node ∧ (∀ earlier ∈ placement.slots, earlier.block ≤ slot.block) ∧
      placement.put graph node = ((graph.edges node).map (·.target)).foldl (enqueue graph)
        { placement with slots := placement.slots ++ [slot] } := by
  refine ⟨⟨node, _, waitsOf graph placement node⟩, rfl, ?_, rfl⟩
  intro earlier hearlier
  cases hlast : placement.slots.getLast? with
  | none =>
    rw [List.getLast?_eq_none_iff.mp hlast] at hearlier
    cases hearlier
  | some last =>
    have hle := h.block_le_last hlast hearlier
    dsimp only
    split
    · exact Nat.le_succ_of_le hle
    · exact hle

/-- One round of the placement: choose a node, and put it behind the others. -/
theorem Chosen.put (hclosed : graph.Closed) (hchosen : Chosen graph placement after node)
    (h : Sound graph after) :
    Sound graph (after.put graph node) ∧
      (after.put graph node).order = placement.order ++ [node] := by
  obtain ⟨slot, rfl, hblock, hput⟩ := exists_put_eq h node
  have hwait : after.loops = [] → after.outstanding graph slot.node = [] := by
    intro hnil
    obtain ⟨found, hfound⟩ := hchosen.loops
    have hnone := List.append_eq_nil_iff.mp (hfound.symm.trans hnil)
    have hready := hchosen.outstanding (by rw [hfound, hnone.2, List.append_nil])
    simpa only [Placement.outstanding, placed, hchosen.slots] using hready
  have hsound := h.append slot hchosen.bound hchosen.fresh hblock hwait
  have htargets : ∀ target ∈ (graph.edges slot.node).map (·.target), target < graph.size := by
    intro target htarget
    obtain ⟨edge, hedge, rfl⟩ := List.mem_map.mp htarget
    exact hclosed slot.node edge hedge
  obtain ⟨hresult, hslots⟩ := hsound.foldl_enqueue htargets
  rw [hput]
  refine ⟨hresult, ?_⟩
  rw [order, hslots, List.map_append, hchosen.slots]
  rfl

/-! ## The whole run -/

theorem Sound.advance (reached : List (List Nat)) (hclosed : graph.Closed) (count : Nat) :
    ∀ {placement : Placement}, Sound graph placement →
      placement.order.length + count ≤ graph.size →
      Sound graph (placement.advance graph reached count) ∧
        (placement.advance graph reached count).order.length = placement.order.length + count := by
  induction count with
  | zero =>
    intro placement h _
    exact ⟨h, rfl⟩
  | succ count ih =>
    intro placement h hroom
    have hleft : placement.order.length < graph.size := by omega
    obtain ⟨⟨node, after⟩, hnext⟩ := Option.isSome_iff_exists.mp (next_isSome reached hleft)
    obtain ⟨hchosen, hafter⟩ := h.next hnext
    obtain ⟨hput, horder⟩ := hchosen.put hclosed hafter
    have hlength : (after.put graph node).order.length = placement.order.length + 1 := by
      rw [horder, List.length_append, List.length_singleton]
    obtain ⟨hresult, hcount⟩ := ih hput (by omega)
    have hunfold : placement.advance graph reached (count + 1) =
        (after.put graph node).advance graph reached count := by
      rw [Placement.advance, hnext]
    rw [hunfold]
    exact ⟨hresult, by omega⟩

end Placement

variable {graph : Graph}

theorem Graph.sound_place (hclosed : graph.Closed) :
    Placement.Sound graph graph.place ∧ graph.place.order.length = graph.size := by
  have hrange : ∀ node ∈ List.range graph.size, node < graph.size :=
    fun node hnode => List.mem_range.mp hnode
  obtain ⟨hstart, hslots⟩ := (Placement.sound_empty graph).foldl_enqueue hrange
  have hempty : ((List.range graph.size).foldl (Placement.enqueue graph) {}).order.length = 0 := by
    simp [Placement.order, hslots]
  obtain ⟨hsound, hlength⟩ := hstart.advance
    ((List.range graph.size).map (reach graph.plainTargets graph.size)) hclosed graph.size (by omega)
  exact ⟨hsound, by rw [hempty, Nat.zero_add] at hlength; exact hlength⟩

/-- Every node is placed, and once. -/
theorem Graph.order_place_perm (hclosed : graph.Closed) :
    graph.place.order.Perm (List.range graph.size) := by
  obtain ⟨hsound, hlength⟩ := graph.sound_place hclosed
  refine perm_range (List.nodup_append.mp hsound.nodup).1 ?_ hlength
  exact fun node hnode => hsound.bound node (List.mem_append_left _ hnode)

end Breadboard
