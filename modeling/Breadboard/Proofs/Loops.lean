import Breadboard.Netlist.Flatten
import Breadboard.Proofs.Firing
import Mathlib.Data.Finset.Card
import Mathlib.Data.Finset.Range

/-!
# Where loops are broken

When no node is ready, the placement takes a node of some loop although it still
waits for others. `Graph.Released` says all there is to know about that choice, and
`Placement.Accounted`, kept by every round, that no other node is ever placed before
a node it waits for. A node that waits has a loop behind it (`Graph.exists_onLoop`):
going back along the nodes that are waited for, the set of ancestors shrinks until
an edge leads back.

The members of a loop are compared by how many nodes they wait for, and not by
whether these belong to the loop. An edge between two loops can therefore be given
up with one of them (`settle_breaks_edge_off_loops`). What remains true is that
this takes a loop at either end of the edge (`settle_honours_or_releases`).
-/

namespace Breadboard

namespace Graph

variable {graph : Graph} {left : List Nat} {node other : Nat}

/-- Another node lies before and behind this one. -/
def OnLoop (graph : Graph) (node : Nat) : Prop :=
  ∃ other, other ≠ node ∧ Reaches graph.plainTargets node other ∧
    Reaches graph.plainTargets other node

/-- The plain predecessors of a node that are not among those given. -/
def waitsFor (graph : Graph) (placed : List Nat) (node : Nat) : List Nat :=
  (graph.predecessors .plain node).filter (· ∉ placed)

/-- With these nodes placed nothing is ready, and the node is one of those on a loop
that wait for the fewest others. -/
structure Released (graph : Graph) (placed : List Nat) (node : Nat) : Prop where
  onLoop : graph.OnLoop node
  stuck : ∀ other < graph.size, other ∉ placed → graph.waitsFor placed other ≠ []
  least : ∀ other < graph.size, other ∉ placed → graph.OnLoop other →
    (graph.waitsFor placed node).length ≤ (graph.waitsFor placed other).length

/-- What can be reached from each node along plain edges. -/
def reached (graph : Graph) : List (List Nat) :=
  (List.range graph.size).map (reach graph.plainTargets graph.size)

theorem Closed.lt (hclosed : graph.Closed) (h : other ∈ graph.plainTargets node) :
    other < graph.size :=
  hclosed node _ (mem_plainTargets.mp h)

/-! ## Loops behind a node that waits -/

/-- The nodes that lead to a node, itself included. -/
def ancestors (graph : Graph) (node : Nat) : Finset Nat :=
  (Finset.range graph.size).filter fun source => node ∈ reach graph.plainTargets graph.size source

theorem mem_ancestors (hclosed : graph.Closed) :
    other ∈ graph.ancestors node ↔ other < graph.size ∧ Reaches graph.plainTargets other node := by
  rw [ancestors, Finset.mem_filter, Finset.mem_range]
  exact and_congr_right fun h => mem_reach_iff h fun _ _ => hclosed.lt

theorem card_ancestors_lt (hclosed : graph.Closed) (hnode : node < graph.size)
    (hstep : Reaches graph.plainTargets other node)
    (hback : ¬ Reaches graph.plainTargets node other) :
    (graph.ancestors other).card < (graph.ancestors node).card := by
  refine Finset.card_lt_card ⟨fun source hsource => ?_, fun hsub => hback ?_⟩
  · obtain ⟨hbound, hreach⟩ := (mem_ancestors hclosed).mp hsource
    exact (mem_ancestors hclosed).mpr ⟨hbound, hreach.trans hstep⟩
  · exact ((mem_ancestors hclosed).mp (hsub ((mem_ancestors hclosed).mpr ⟨hnode, .refl node⟩))).2

/-- Where every node that is left waits for another one, a loop leads to each of
them. The induction is on the number of ancestors. -/
theorem exists_onLoop (hclosed : graph.Closed) (hself : ∀ node, node ∉ graph.plainTargets node)
    {placed : List Nat}
    (hstuck : ∀ other < graph.size, other ∉ placed → graph.waitsFor placed other ≠ [])
    (hnode : node < graph.size) (hleft : node ∉ placed) :
    ∃ loop < graph.size, loop ∉ placed ∧ graph.OnLoop loop ∧
      Reaches graph.plainTargets loop node := by
  induction hcount : (graph.ancestors node).card using Nat.strongRecOn generalizing node with
  | ind count ih =>
    obtain ⟨source, hsource⟩ := List.exists_mem_of_ne_nil _ (hstuck node hnode hleft)
    obtain ⟨hpredecessor, hwaiting⟩ := List.mem_filter.mp hsource
    obtain ⟨hbound, hmem⟩ := mem_predecessors.mp hpredecessor
    have hedge := mem_plainTargets.mpr hmem
    have hstep : Reaches graph.plainTargets source node := .head hedge (.refl node)
    by_cases hback : Reaches graph.plainTargets node source
    · have hne : source ≠ node := fun heq => hself node (heq ▸ hedge)
      exact ⟨node, hnode, hleft, ⟨source, hne, hback, hstep⟩, .refl node⟩
    · have hfewer := card_ancestors_lt hclosed hnode hstep hback
      obtain ⟨loop, hloop, hfree, honLoop, hreach⟩ :=
        ih _ (hcount ▸ hfewer) hbound (by simpa using hwaiting) rfl
      exact ⟨loop, hloop, hfree, honLoop, hreach.trans hstep⟩

/-! ## The loop of a node -/

theorem getD_reached (hnode : node < graph.size) :
    graph.reached.getD node [] = reach graph.plainTargets graph.size node := by
  simp [reached, List.getD_eq_getElem?_getD, List.getElem?_range hnode]

theorem mem_cycleOf (hclosed : graph.Closed) (hnode : node < graph.size) :
    other ∈ Placement.cycleOf graph.reached node ↔
      Reaches graph.plainTargets node other ∧ Reaches graph.plainTargets other node := by
  rw [Placement.cycleOf, List.mem_filter, getD_reached hnode,
    mem_reach_iff hnode fun _ _ => hclosed.lt, decide_eq_true_eq]
  refine and_congr_right fun hreach => ?_
  have hother : other < graph.size := by
    cases hreach using Reaches.casesOn with
    | refl => exact hnode
    | head hmem hrest =>
      have hrange : other ∈ List.range graph.size :=
        hrest.mem_of_closed (List.mem_range.mpr (hclosed.lt hmem))
          fun _ _ _ htarget => List.mem_range.mpr (hclosed.lt htarget)
      exact List.mem_range.mp hrange
  rw [getD_reached hother, mem_reach_iff hother fun _ _ => hclosed.lt]

theorem one_lt_length_cycleOf (hclosed : graph.Closed) (hnode : node < graph.size) :
    1 < (Placement.cycleOf graph.reached node).length ↔ graph.OnLoop node := by
  have hnodup : (Placement.cycleOf graph.reached node).Nodup := by
    rw [Placement.cycleOf, getD_reached hnode]
    exact (nodup_reach ..).filter _
  have hself : node ∈ Placement.cycleOf graph.reached node :=
    (mem_cycleOf hclosed hnode).mpr ⟨.refl node, .refl node⟩
  constructor
  · intro hlength
    by_contra hnone
    have hsub : Placement.cycleOf graph.reached node ⊆ [node] := by
      intro other hother
      by_contra hne
      exact hnone ⟨other, by simpa using hne, (mem_cycleOf hclosed hnode).mp hother⟩
    exact absurd (hnodup.length_le_of_subset hsub) (Nat.not_le.mpr hlength)
  · rintro ⟨other, hne, hreaches⟩
    have hpair : [other, node].Nodup := by simpa using hne
    refine hpair.length_le_of_subset ?_
    intro member hmember
    rcases List.mem_pair.mp hmember with rfl | rfl
    · exact (mem_cycleOf hclosed hnode).mpr hreaches
    · exact hself

end Graph

namespace Placement

variable {graph : Graph} {placement after : Placement} {node : Nat}

theorem outstanding_eq_waitsFor :
    placement.outstanding graph node = graph.waitsFor placement.order node := by
  refine List.filter_congr fun source _ => ?_
  rw [Bool.eq_iff_iff]
  simp [← placed_iff]

/-! ## The choice of the next node -/

/-- Where all that is left waits, one of the nodes on loops that wait for the fewest is
released. -/
theorem released_of_leastBy (hclosed : graph.Closed)
    (hself : ∀ node, node ∉ graph.plainTargets node) {left : List Nat} {chosen : Nat}
    (hleft : ∀ other, other ∈ left ↔ other < graph.size ∧ other ∉ placement.order)
    (hstuck : ∀ other < graph.size, other ∉ placement.order →
      graph.waitsFor placement.order other ≠ [])
    (hchosen : leastBy (fun node => (placement.outstanding graph node).length)
      (if (left.filter fun node => 1 < (cycleOf graph.reached node).length).isEmpty then left
        else left.filter fun node => 1 < (cycleOf graph.reached node).length) = some chosen) :
    (chosen < graph.size ∧ chosen ∉ placement.order) ∧ graph.Released placement.order chosen := by
  have hbound : chosen < graph.size ∧ chosen ∉ placement.order := by
    refine (hleft chosen).mp ?_
    have hmem := leastBy_mem hchosen
    split at hmem
    · exact hmem
    · exact (List.mem_filter.mp hmem).1
  have hcyclic : ∀ other, other ∈ left.filter (fun node => 1 < (cycleOf graph.reached node).length) ↔
      (other < graph.size ∧ other ∉ placement.order) ∧ graph.OnLoop other := by
    intro other
    rw [List.mem_filter, hleft, decide_eq_true_eq]
    exact and_congr_right fun hother => Graph.one_lt_length_cycleOf hclosed hother.1
  -- A loop is left, so that only nodes on loops are candidates.
  obtain ⟨loop, hloop, hfree, honLoop, -⟩ :=
    Graph.exists_onLoop hclosed hself hstuck hbound.1 hbound.2
  have hsome : loop ∈ left.filter (fun node => 1 < (cycleOf graph.reached node).length) :=
    (hcyclic loop).mpr ⟨⟨hloop, hfree⟩, honLoop⟩
  rw [if_neg (by simpa using List.ne_nil_of_mem hsome)] at hchosen
  refine ⟨hbound, ((hcyclic chosen).mp (leastBy_mem hchosen)).2, hstuck, ?_⟩
  intro other hother hfree honLoop
  have hle := leastBy_le hchosen ((hcyclic other).mpr ⟨⟨hother, hfree⟩, honLoop⟩)
  rwa [outstanding_eq_waitsFor, outstanding_eq_waitsFor] at hle

/-- A node that still waits is chosen only as `Graph.Released` says, and its loop is
noted. -/
theorem released_of_next (hclosed : graph.Closed)
    (hself : ∀ node, node ∉ graph.plainTargets node) (h : Sound graph placement)
    (hnext : placement.next graph graph.reached = some (node, after))
    (hwait : placement.outstanding graph node ≠ []) :
    graph.Released placement.order node ∧
      ∃ members, node ∈ members ∧ after.loops = placement.loops ++ [members] := by
  unfold Placement.next at hnext
  split at hnext
  · next first ready deferred hready =>
    obtain ⟨rfl, -⟩ := Prod.mk.inj (Option.some.inj hnext)
    exact absurd (h.ready _ (by simp [queue, hready])) hwait
  · next first deferred hready hdeferred =>
    obtain ⟨rfl, -⟩ := Prod.mk.inj (Option.some.inj hnext)
    exact absurd (h.ready _ (by simp [queue, hready, hdeferred])) hwait
  · dsimp only at hnext
    split at hnext
    · next waiting hwaiting =>
      obtain ⟨rfl, -⟩ := Prod.mk.inj (Option.some.inj hnext)
      exact absurd (by simpa using List.find?_some hwaiting) hwait
    · next hnone =>
      obtain ⟨chosen, hchosen, heq⟩ := Option.map_eq_some_iff.mp hnext
      obtain ⟨rfl, rfl⟩ := Prod.mk.inj heq
      have hleft : ∀ other, other ∈ (List.range graph.size).filter (!placement.placed ·) ↔
          other < graph.size ∧ other ∉ placement.order := by
        intro other
        simp [← placed_iff]
      have hstuck : ∀ other < graph.size, other ∉ placement.order →
          graph.waitsFor placement.order other ≠ [] := by
        intro other hother hfree
        have hbusy := List.find?_eq_none.mp hnone other ((hleft other).mpr ⟨hother, hfree⟩)
        rw [← outstanding_eq_waitsFor]
        simpa using hbusy
      obtain ⟨hbound, hreleased⟩ := released_of_leastBy hclosed hself hleft hstuck hchosen
      refine ⟨hreleased, _, List.mem_filter.mpr ⟨?_, ?_⟩, rfl⟩
      · exact (Graph.mem_cycleOf hclosed hbound.1).mpr ⟨.refl chosen, .refl chosen⟩
      · simpa [← placed_iff] using hbound.2

/-! ## The whole run -/

/-- Each placed node had all its plain predecessors before it, or it was released
and a loop was noted for it. -/
def Accounted (graph : Graph) (placement : Placement) : Prop :=
  ∀ left node right, placement.order = left ++ node :: right →
    (∀ source ∈ graph.predecessors .plain node, source ∈ left) ∨
      graph.Released left node ∧ ∃ members ∈ placement.loops, node ∈ members

theorem accounted_of_order_eq_nil (h : placement.order = []) : Accounted graph placement := by
  intro left node right heq
  rw [h] at heq
  exact absurd (List.append_eq_nil_iff.mp heq.symm).2 (List.cons_ne_nil _ _)

theorem loops_foldl_enqueue (nodes : List Nat) : ∀ placement : Placement,
    (nodes.foldl (enqueue graph) placement).loops = placement.loops := by
  induction nodes with
  | nil => exact fun _ => rfl
  | cons node nodes ih => exact fun placement => (ih _).trans loops_enqueue

theorem loops_put (h : Sound graph placement) (node : Nat) :
    (placement.put graph node).loops = placement.loops := by
  obtain ⟨slot, -, -, hput⟩ := exists_put_eq h node
  rw [hput, loops_foldl_enqueue]

theorem Accounted.put (hclosed : graph.Closed) (hself : ∀ node, node ∉ graph.plainTargets node)
    (haccounted : Accounted graph placement) (h : Sound graph placement)
    (hnext : placement.next graph graph.reached = some (node, after)) :
    Accounted graph (after.put graph node) := by
  obtain ⟨hchosen, hafter⟩ := h.next hnext
  obtain ⟨found, hloops⟩ := hchosen.loops
  intro left other right heq
  rw [(hchosen.put hclosed hafter).2] at heq
  rw [loops_put hafter]
  rcases List.eq_nil_or_concat right with rfl | ⟨right, last, rfl⟩
  · obtain ⟨rfl, hlast⟩ := List.append_inj' heq rfl
    obtain rfl := List.singleton_inj.mp hlast
    by_cases hwait : placement.outstanding graph node = []
    · exact Or.inl (outstanding_eq_nil_iff.mp hwait)
    · obtain ⟨hreleased, members, hmember, hnoted⟩ :=
        released_of_next hclosed hself h hnext hwait
      exact Or.inr ⟨hreleased, members, by simp [hnoted], hmember⟩
  · have horder : placement.order = left ++ other :: right := by
      rw [List.concat_eq_append, ← List.cons_append, ← List.append_assoc] at heq
      exact (List.append_inj' heq rfl).1
    rcases haccounted left other right horder with hbefore | ⟨hreleased, members, hnoted, hmember⟩
    · exact Or.inl hbefore
    · exact Or.inr ⟨hreleased, members, by simp [hloops, hnoted], hmember⟩

theorem Accounted.advance (hclosed : graph.Closed)
    (hself : ∀ node, node ∉ graph.plainTargets node) (count : Nat) :
    ∀ {placement : Placement}, Accounted graph placement → Sound graph placement →
      Accounted graph (placement.advance graph graph.reached count) := by
  induction count with
  | zero => exact fun haccounted _ => haccounted
  | succ count ih =>
    intro placement haccounted h
    rw [Placement.advance]
    split
    · next node after hnext =>
      obtain ⟨hchosen, hafter⟩ := h.next hnext
      exact ih (haccounted.put hclosed hself h hnext) (hchosen.put hclosed hafter).1
    · exact haccounted

end Placement

namespace Graph

variable {graph : Graph} {u v : Nat}

theorem accounted_place (hclosed : graph.Closed)
    (hself : ∀ node, node ∉ graph.plainTargets node) : Placement.Accounted graph graph.place := by
  obtain ⟨hstart, hslots⟩ := (Placement.sound_empty graph).foldl_enqueue
    fun node (hnode : node ∈ List.range graph.size) => List.mem_range.mp hnode
  refine Placement.Accounted.advance hclosed hself graph.size ?_ hstart
  exact Placement.accounted_of_order_eq_nil (by simp [Placement.order, hslots])

/-- An edge whose source is not placed first leads to a node that was released while
the source was left. -/
theorem position_lt_or_released (hclosed : graph.Closed)
    (hself : ∀ node, node ∉ graph.plainTargets node) (hedge : v ∈ graph.plainTargets u)
    (hsource : u < graph.size) :
    graph.place.position u < graph.place.position v ∨
      ∃ left right, graph.place.order = left ++ v :: right ∧ u ∈ right ∧
        graph.Released left v ∧ ∃ members ∈ graph.place.loops, v ∈ members := by
  have hperm := order_place_perm hclosed
  have hnodup := Placement.nodup_order (sound_place hclosed).1
  have hplaced : ∀ node < graph.size, node ∈ graph.place.order :=
    fun node hnode => hperm.mem_iff.mpr (List.mem_range.mpr hnode)
  obtain ⟨left, right, horder⟩ := List.append_of_mem (hplaced v (hclosed.lt hedge))
  have hpredecessor : u ∈ graph.predecessors .plain v :=
    mem_predecessors.mpr ⟨hsource, mem_plainTargets.mp hedge⟩
  have hfirst : u ∈ left → graph.place.position u < graph.place.position v := by
    intro hleft
    refine Before.idxOf_lt hnodup ?_
    rw [horder]
    exact Before.of_mem_left hleft
  rcases accounted_place hclosed hself left v right horder with hbefore | hreleased
  · exact Or.inl (hfirst (hbefore u hpredecessor))
  · have hmem := hplaced u hsource
    rw [horder] at hmem
    rcases List.mem_append.mp hmem with hleft | hrest
    · exact Or.inl (hfirst hleft)
    · have hne : u ≠ v := fun heq => hself v (heq ▸ hedge)
      exact Or.inr ⟨left, right, horder, (List.mem_cons.mp hrest).resolve_left hne, hreleased⟩

/-- A task hands nothing to itself. -/
theorem not_mem_plainTargets_self (netlist : Netlist) (node : Nat) :
    node ∉ (ofNetlist netlist).plainTargets node := by
  intro h
  have hmem := mem_plainTargets.mp h
  obtain ⟨task, htask⟩ : ∃ task, netlist.tasks[node]? = some task :=
    ⟨_, List.getElem?_eq_getElem (lt_of_mem_edges hmem)⟩
  obtain ⟨other, hother, hfeeds⟩ := feeds_of_follows htask (Netlist.mem_follows_of_edge hmem)
  obtain rfl := Option.some.inj (htask.symm.trans hother)
  cases hfeeds with
  | next _ _ hlt => exact Nat.lt_irrefl _ hlt

end Graph

/-! ## Edges off the loops -/

namespace Netlist

/-- An edge on no cycle is honoured by the placement and by every settle, unless both
its ends have to do with loops: its target is on a loop, which is broken there and
reported, and its source is left because another loop leads to it. -/
theorem settle_honours_or_releases (netlist : Netlist) (state : State) {u v : Nat}
    (hedge : v ∈ (Graph.ofNetlist netlist).plainTargets u)
    (hoff : ¬ Reaches (Graph.ofNetlist netlist).plainTargets v u) :
    let graph := Graph.ofNetlist netlist
    (graph.place.position u < graph.place.position v ∧
      Before (netlist.trace state) (graph.task u) (graph.task v)) ∨
    ∃ left right, graph.place.order = left ++ v :: right ∧ u ∈ right ∧ graph.Released left v ∧
      (∃ names, Diagnostic.combinationalLoop names ∈ (compile netlist).diagnostics ∧
        netlist.taskName (graph.task v) ∈ names) ∧
      ∃ loop ∈ right, graph.OnLoop loop ∧ Reaches graph.plainTargets loop u ∧
        ¬ Reaches graph.plainTargets v loop := by
  intro graph
  have hclosed := Graph.closed_ofNetlist netlist
  have hself := Graph.not_mem_plainTargets_self netlist
  have hsource : u < graph.size :=
    Graph.size_ofNetlist ▸ Graph.lt_of_mem_edges (Graph.mem_plainTargets.mp hedge)
  rcases Graph.position_lt_or_released hclosed hself hedge hsource with hlt | hreleased
  · exact Or.inl ⟨hlt, before_trace hedge hlt⟩
  · obtain ⟨left, right, horder, hright, hreleased, members, hnoted, hmember⟩ := hreleased
    have hnodup := Placement.nodup_order (Graph.sound_place hclosed).1
    rw [horder] at hnodup
    have hlate : u ∉ left := fun hleft => (List.nodup_append.mp hnodup).2.2 u hleft u
      (List.mem_cons_of_mem _ hright) rfl
    obtain ⟨loop, hloop, hfree, honLoop, hreach⟩ :=
      Graph.exists_onLoop hclosed hself hreleased.stuck hsource hlate
    have hother : ¬ Reaches graph.plainTargets v loop := fun h => hoff (h.trans hreach)
    have hplaced : loop ∈ graph.place.order :=
      (Graph.order_place_perm hclosed).mem_iff.mpr (List.mem_range.mpr hloop)
    rw [horder] at hplaced
    have hrest := (List.mem_append.mp hplaced).resolve_left hfree
    have hne : loop ≠ v := by
      rintro rfl
      exact hother (.refl _)
    refine Or.inr ⟨left, right, horder, hright, hreleased, ⟨_, List.mem_map_of_mem hnoted, ?_⟩,
      loop, (List.mem_cons.mp hrest).resolve_left hne, honLoop, hreach, hother⟩
    exact List.mem_mergeSort.mpr (List.mem_map_of_mem hmember)

/-- Two loops of two adders each; the second one also gets the sum of the first. -/
def coupledLoops : Schematic where
  components :=
    [⟨"b2", Builtin.adder.id, .null⟩, ⟨"b1", Builtin.adder.id, .null⟩,
      ⟨"a1", Builtin.adder.id, .null⟩, ⟨"a2", Builtin.adder.id, .null⟩]
  wires :=
    [⟨"m1", [⟨"b1", "out"⟩, ⟨"b2", "a"⟩]⟩, ⟨"m2", [⟨"b2", "out"⟩, ⟨"b1", "a"⟩]⟩,
      ⟨"n1", [⟨"a1", "out"⟩, ⟨"a2", "a"⟩, ⟨"b1", "b"⟩]⟩, ⟨"n2", [⟨"a2", "out"⟩, ⟨"a1", "a"⟩]⟩]

theorem not_reaches_coupledLoops :
    ¬ Reaches (Graph.ofNetlist (flatten Library.builtin coupledLoops)).plainTargets 1 6 := by
  have hclosed := Graph.closed_ofNetlist (flatten Library.builtin coupledLoops)
  have hsize : 1 < (Graph.ofNetlist (flatten Library.builtin coupledLoops)).size := by
    decide +kernel
  rw [← mem_reach_iff hsize fun _ _ h => hclosed.lt h]
  decide +kernel

/-- The phase of `b1` is released before net `n1` is there, although no cycle goes
through both. -/
theorem settle_honours_or_releases_coupled :
    let netlist := flatten Library.builtin coupledLoops
    let graph := Graph.ofNetlist netlist
    ∃ left right, graph.place.order = left ++ 1 :: right ∧ 6 ∈ right ∧ graph.Released left 1 := by
  intro netlist graph
  rcases settle_honours_or_releases netlist {} (u := 6) (v := 1) (by decide +kernel)
    not_reaches_coupledLoops with ⟨hlt, -⟩ | ⟨left, right, horder, hmem, hreleased, -⟩
  · exact absurd hlt (by decide +kernel)
  · exact ⟨left, right, horder, hmem, hreleased⟩

/-- Loops are not broken locally: no cycle goes through net `n1` and the phase of `b1`
that reads it, and yet every settle runs the phase first. -/
theorem settle_breaks_edge_off_loops :
    let netlist := flatten Library.builtin coupledLoops
    let graph := Graph.ofNetlist netlist
    1 ∈ graph.plainTargets 6 ∧ ¬ Reaches graph.plainTargets 1 6 ∧
      graph.place.position 1 < graph.place.position 6 ∧
      ∀ state, Before (netlist.trace state) (graph.task 1) (graph.task 6) := by
  intro netlist graph
  refine ⟨by decide +kernel, not_reaches_coupledLoops, by decide +kernel, fun state => ?_⟩
  have hblocks : (compile netlist).blocks.length = 1 := by decide +kernel
  have hone := netlist.executed_perm state
  rw [hblocks] at hone
  have htrace : netlist.trace state = (compile netlist).tasksOf 0 := by
    rw [trace_eq, List.perm_singleton.mp hone]
    simp
  rw [htrace]
  decide +kernel

end Netlist

end Breadboard
