import Breadboard.Proofs.Loops

/-!
# Cycles and their report

`compile_reports_cycles` ties the report of a loop to the plain edges: it is made
exactly where they contain a cycle. A cycle cannot be placed without breaking it, so
that one is reported (`exists_loop_of_cyclic`). Conversely a loop is noted only for a
node that waits although nothing is ready, and such a node is on a cycle
(`Placement.Looped`, kept by every round). No plain edge closes a cycle through a
tri-state net: the writer would depend on the net, and its write be deferred
(`not_cyclic_tristate`).

In terms of the netlist a cycle is a chain of tasks that pass something on, without
the reads that are marked as crossing (`compile_reports_waiting_cycles`). A part that
reads a plain net it drives itself is such a crossing read, and a cycle of this kind
is not reported (`selfFed_unreported`).
-/

namespace Breadboard

namespace Graph

variable {graph : Graph} {node other : Nat}

/-- A chain of plain edges leads from the node back to itself. -/
def Cyclic (graph : Graph) (node : Nat) : Prop :=
  ∃ next ∈ graph.plainTargets node, Reaches graph.plainTargets next node

theorem OnLoop.cyclic (h : graph.OnLoop node) : graph.Cyclic node := by
  obtain ⟨other, hne, hforth, hback⟩ := h
  cases hforth with
  | refl => exact absurd rfl hne
  | head hmem hrest => exact ⟨_, hmem, hrest.trans hback⟩

theorem onLoop_of_reaches (h : graph.OnLoop node) (hforth : Reaches graph.plainTargets node other)
    (hback : Reaches graph.plainTargets other node) : graph.OnLoop other := by
  by_cases heq : node = other
  · exact heq ▸ h
  · exact ⟨node, heq, hback, hforth⟩

/-- All nodes between a node on a cycle and itself are on the cycle. -/
theorem Cyclic.step (hstart : Reaches graph.plainTargets node other)
    (hback : Reaches graph.plainTargets other node) (h : graph.Cyclic node) :
    graph.Cyclic other := by
  obtain ⟨next, hmem, hrest⟩ := h
  cases hback with
  | refl => exact ⟨next, hmem, hrest⟩
  | head hfirst hback => exact ⟨_, hfirst, hback.trans hstart⟩

/-- The last edge of a cycle leads back to where it starts. -/
theorem Cyclic.exists_last (h : graph.Cyclic node) :
    ∃ last, Reaches graph.plainTargets node last ∧ node ∈ graph.plainTargets last := by
  obtain ⟨next, hmem, hrest⟩ := h
  have hlast : ∀ {a b}, Reaches graph.plainTargets a b → ∀ {c}, a ∈ graph.plainTargets c →
      ∃ last, Reaches graph.plainTargets c last ∧ b ∈ graph.plainTargets last := by
    intro a b hab
    induction hab with
    | refl => exact fun hc => ⟨_, .refl _, hc⟩
    | head hstep _ ih =>
      intro c hc
      obtain ⟨last, hreach, hend⟩ := ih hstep
      exact ⟨last, .head hc hreach, hend⟩
  exact hlast hrest hmem

end Graph

/-! ## What is noted -/

namespace Placement

variable {graph : Graph} {placement after : Placement} {node : Nat}

/-- What the choice of a node notes: nothing, or, for a node that still waits, those
of its loop that are left. -/
theorem loops_of_next (hnext : placement.next graph graph.reached = some (node, after)) :
    after.loops = placement.loops ∨ placement.outstanding graph node ≠ [] ∧
      after.loops = placement.loops ++
        [(cycleOf graph.reached node).filter (!placement.placed ·)] := by
  unfold Placement.next at hnext
  split at hnext
  · obtain ⟨-, rfl⟩ := Prod.mk.inj (Option.some.inj hnext)
    exact .inl rfl
  · obtain ⟨-, rfl⟩ := Prod.mk.inj (Option.some.inj hnext)
    exact .inl rfl
  · dsimp only at hnext
    split at hnext
    · obtain ⟨-, rfl⟩ := Prod.mk.inj (Option.some.inj hnext)
      exact .inl rfl
    · next hnone =>
      obtain ⟨chosen, hchosen, heq⟩ := Option.map_eq_some_iff.mp hnext
      obtain ⟨rfl, rfl⟩ := Prod.mk.inj heq
      have hmem := leastBy_mem hchosen
      have hleft : chosen ∈ (List.range graph.size).filter (!placement.placed ·) := by
        split at hmem
        · exact hmem
        · exact (List.mem_filter.mp hmem).1
      exact .inr ⟨by simpa using List.find?_eq_none.mp hnone chosen hleft, rfl⟩

/-- Every loop that was noted has members, all of them on loops. -/
def Looped (graph : Graph) (placement : Placement) : Prop :=
  ∀ members ∈ placement.loops, members ≠ [] ∧ ∀ node ∈ members, graph.OnLoop node

theorem Looped.next (hclosed : graph.Closed) (hself : ∀ node, node ∉ graph.plainTargets node)
    (hlooped : Looped graph placement) (h : Sound graph placement)
    (hnext : placement.next graph graph.reached = some (node, after)) : Looped graph after := by
  intro members hmembers
  rcases loops_of_next hnext with hsame | ⟨hwait, hnoted⟩
  · exact hlooped members (hsame ▸ hmembers)
  · rw [hnoted] at hmembers
    rcases List.mem_append.mp hmembers with hold | hnew
    · exact hlooped members hold
    · obtain ⟨hreleased, found, hfound, hloops⟩ := released_of_next hclosed hself h hnext hwait
      have hnode : node < graph.size := (h.next hnext).1.bound
      obtain rfl : members = found := by
        rw [List.mem_singleton.mp hnew]
        exact List.singleton_inj.mp (List.append_cancel_left (hnoted.symm.trans hloops))
      refine ⟨List.ne_nil_of_mem hfound, fun other hother => ?_⟩
      rw [List.mem_singleton.mp hnew] at hother
      obtain ⟨hforth, hback⟩ :=
        (Graph.mem_cycleOf hclosed hnode).mp (List.mem_filter.mp hother).1
      exact Graph.onLoop_of_reaches hreleased.onLoop hforth hback

theorem Looped.advance (hclosed : graph.Closed)
    (hself : ∀ node, node ∉ graph.plainTargets node) (count : Nat) :
    ∀ {placement : Placement}, Looped graph placement → Sound graph placement →
      Looped graph (placement.advance graph graph.reached count) := by
  induction count with
  | zero => exact fun hlooped _ => hlooped
  | succ count ih =>
    intro placement hlooped h
    rw [Placement.advance]
    split
    · next node after hnext =>
      obtain ⟨hchosen, hafter⟩ := h.next hnext
      refine ih ?_ (hchosen.put hclosed hafter).1
      intro members hmembers
      rw [loops_put hafter] at hmembers
      exact hlooped.next hclosed hself h hnext members hmembers
    · exact hlooped

end Placement

namespace Graph

variable {graph : Graph} {node next : Nat}

theorem looped_place (hclosed : graph.Closed)
    (hself : ∀ node, node ∉ graph.plainTargets node) : Placement.Looped graph graph.place := by
  obtain ⟨hstart, -⟩ := (Placement.sound_empty graph).foldl_enqueue
    fun node (hnode : node ∈ List.range graph.size) => List.mem_range.mp hnode
  refine Placement.Looped.advance hclosed hself graph.size ?_ hstart
  intro members hmembers
  rw [Placement.loops_foldl_enqueue] at hmembers
  cases hmembers

/-- Without a broken loop the nodes of a cycle would have to stand behind themselves. -/
theorem loops_ne_nil_of_cyclic (hclosed : graph.Closed)
    (hself : ∀ node, node ∉ graph.plainTargets node)
    (hlt : ∀ node next, next ∈ graph.plainTargets node → node < graph.size)
    (h : graph.Cyclic node) : graph.place.loops ≠ [] := by
  intro hnone
  have hstep : ∀ {u v}, v ∈ graph.plainTargets u →
      graph.place.position u < graph.place.position v := by
    intro u v hedge
    rcases position_lt_or_released hclosed hself hedge (hlt u v hedge) with hbefore | hreleased
    · exact hbefore
    · obtain ⟨_, _, _, _, _, members, hmembers, _⟩ := hreleased
      rw [hnone] at hmembers
      cases hmembers
  have hchain : ∀ {u v}, Reaches graph.plainTargets u v →
      graph.place.position u ≤ graph.place.position v := by
    intro u v hreach
    induction hreach with
    | refl => exact Nat.le_refl _
    | head hmem _ ih => exact (hstep hmem).le.trans ih
  obtain ⟨next, hmem, hrest⟩ := h
  exact absurd (hchain hrest) (Nat.not_le.mpr (hstep hmem))

end Graph

/-! ## Plain edges between tasks -/

namespace Netlist

variable {netlist : Netlist} {node next index : Nat} {task other : Task}

/-- A task hands something to another one, for nets without tri-state drivers and for
reads of these modes: a phase to a net it drives, a net to a phase that reads it, and
a phase to the next one of its part. -/
inductive Relays (netlist : Netlist) (allowed : ReadMode → Prop) : Task → Task → Prop where
  | write {part position port index : Nat} : netlist.Writes part position port index →
      netlist.nets[index]?.any (·.tristate) = false →
      Relays netlist allowed (.phase part position) (.net index)
  | read {part position port index : Nat} {mode : ReadMode} :
      netlist.Reads part position port index mode → allowed mode →
      netlist.nets[index]?.any (·.tristate) = false →
      Relays netlist allowed (.net index) (.phase part position)
  | next {part first second : Nat} {before after : Phase} :
      netlist.Ordinary part first before → netlist.Ordinary part second after → first < second →
      (∀ middle phase, first < middle → middle < second → ¬ netlist.Ordinary part middle phase) →
      Relays netlist allowed (.phase part first) (.phase part second)

/-- No phase of a part comes between two that stand side by side. -/
theorem not_ordinary_between {part first second middle : Nat} {phase : Phase}
    (hfirst : netlist.tasks[node]? = some (.phase part first))
    (hsecond : netlist.tasks[node + 1]? = some (.phase part second))
    (hafter : first < middle) (hbefore : middle < second) :
    ¬ netlist.Ordinary part middle phase := by
  intro hmiddle
  obtain ⟨place, hplace⟩ := List.getElem?_of_mem
    (mem_phaseTasks.mpr ⟨part, middle, phase, hmiddle, rfl⟩)
  rw [node_phase] at hfirst hsecond
  rcases Nat.lt_trichotomy place node with hlt | rfl | hgt
  · have hearlier := earlier_of_lt hplace hfirst hlt
    simp only [Earlier] at hearlier
    omega
  · obtain ⟨-, rfl⟩ := Task.phase.inj (Option.some.inj (hplace.symm.trans hfirst))
    exact Nat.lt_irrefl _ hafter
  · rcases Nat.lt_or_eq_of_le (Nat.succ_le_of_lt hgt) with hgt | rfl
    · have hearlier := earlier_of_lt hsecond hplace hgt
      simp only [Earlier] at hearlier
      omega
    · obtain ⟨-, rfl⟩ := Task.phase.inj (Option.some.inj (hplace.symm.trans hsecond))
      exact Nat.lt_irrefl _ hbefore

/-- What the plain edges say in terms of the netlist. -/
theorem relays_of_plain (hnode : netlist.tasks[node]? = some task)
    (hnext : netlist.tasks[next]? = some other)
    (hplain : ∀ index, task = .net index ∨ other = .net index →
      netlist.nets[index]?.any (·.tristate) = false)
    (hedge : next ∈ (Graph.ofNetlist netlist).plainTargets node) :
    netlist.Relays (· = .waiting) task other := by
  rcases Graph.mem_edges.mp (Graph.mem_plainTargets.mp hedge) with horder | hwrite
  · cases task with
    | phase part first =>
      obtain ⟨⟨second, hlater⟩, heq⟩ := (Graph.mem_orderEdges_phase hnode).mp horder
      obtain rfl : next = node + 1 := congrArg Edge.target heq
      obtain rfl := Option.some.inj (hnext.symm.trans hlater)
      obtain ⟨before, hbefore⟩ := Graph.ordinary_of_task hnode
      obtain ⟨after, hafter⟩ := Graph.ordinary_of_task hlater
      exact .next hbefore hafter (Graph.ordinary_succ hnode hlater)
        fun middle phase hlow hhigh => not_ordinary_between hnode hlater hlow hhigh
    | net index =>
      obtain ⟨read, mode, hread, rfl, heq⟩ := (Graph.mem_orderEdges_net hnode).mp horder
      obtain ⟨part, position, hphase, hreads⟩ := mem_reads.mp hread
      cases mode with
      | anyOf => simp [ReadMode.edge?] at heq
      | crossing => cases heq
      | waiting =>
        obtain rfl : read.node = next := congrArg Edge.target (Option.some.inj heq)
        obtain rfl := Option.some.inj (hnext.symm.trans hphase)
        exact .read hreads rfl (hplain _ (.inl rfl))
  · obtain ⟨write, deferred, hmem, rfl, heq⟩ := Graph.mem_writeEdges.mp hwrite
    have hmem := (Graph.mem_deferral.mp hmem).1
    obtain ⟨part, position, hphase, hwrites⟩ := mem_writes.mp hmem
    obtain rfl := Option.some.inj (hnode.symm.trans hphase)
    rcases heq with ⟨-, heq⟩ | ⟨-, heq⟩
    · obtain rfl : next = _ := congrArg Edge.target heq
      obtain rfl := Option.some.inj (hnext.symm.trans (Graph.net_of_write hmem))
      exact .write hwrites (hplain _ (.inr rfl))
    · cases heq

theorem precedes_of_relays (h : netlist.Relays (· = .waiting) task other) :
    Relation.TransGen netlist.Precedes task other := by
  cases h with
  | write hwrites hplain =>
    refine .single (precedes_of_write hwrites fun hdeferred => ?_)
    rw [hdeferred.1] at hplain
    cases hplain
  | read hreads hmode _ =>
    subst hmode
    exact .single (precedes_of_read hreads)
  | next hbefore hafter hlt _ => exact precedes_of_lt hbefore hafter hlt

end Netlist

namespace Graph

variable {netlist : Netlist} {node next index : Nat} {task other : Task}

theorem exists_task (h : next ∈ (ofNetlist netlist).plainTargets node) :
    ∃ task, netlist.tasks[node]? = some task :=
  ⟨_, List.getElem?_eq_getElem (lt_of_mem_edges (mem_plainTargets.mp h))⟩

theorem exists_task_of_cyclic (h : (ofNetlist netlist).Cyclic node) :
    ∃ task, netlist.tasks[node]? = some task := by
  obtain ⟨next, hmem, -⟩ := h
  exact exists_task hmem

theorem follows_of_plain (h : Reaches (ofNetlist netlist).plainTargets node next) :
    Reaches netlist.follows node next := by
  induction h with
  | refl => exact .refl _
  | head hmem _ ih => exact .head (Netlist.mem_follows_of_edge (mem_plainTargets.mp hmem)) ih

/-- A plain edge into a tri-state net comes from a phase that does not depend on the
net, so that it closes no cycle. -/
theorem not_cyclic_tristate (htask : netlist.tasks[node]? = some (.net index))
    (htristate : netlist.nets[index]?.any (·.tristate) = true) :
    ¬ (ofNetlist netlist).Cyclic node := by
  intro h
  obtain ⟨last, hreach, hedge⟩ := h.exists_last
  obtain ⟨task, hlast⟩ := exists_task hedge
  rcases mem_edges.mp (mem_plainTargets.mp hedge) with horder | hwrite
  · obtain ⟨other, hother, hfeeds⟩ := feeds_of_follows hlast
      (List.mem_append_left _ (List.mem_map_of_mem horder))
    obtain rfl := Option.some.inj (htask.symm.trans hother)
    cases task with
    | net other => cases hfeeds
    | phase part position =>
      obtain ⟨⟨later, hlater⟩, heq⟩ := (mem_orderEdges_phase hlast).mp horder
      obtain rfl : node = last + 1 := congrArg Edge.target heq
      cases hlater.symm.trans htask
  · obtain ⟨write, deferred, hmem, rfl, heq⟩ := mem_writeEdges.mp hwrite
    obtain ⟨hwrites, rfl⟩ := mem_deferral.mp hmem
    rcases heq with ⟨hwaits, heq⟩ | ⟨-, heq⟩
    · obtain rfl : node = _ := congrArg Edge.target heq
      obtain rfl := Task.net.inj (Option.some.inj ((net_of_write hwrites).symm.trans htask))
      have hfollows : Reaches netlist.follows (netlist.phaseTasks.length + write.net) write.node :=
        follows_of_plain hreach
      simp only [isDeferred, htristate, Bool.true_and, decide_eq_false_iff_not] at hwaits
      exact hwaits ((mem_reach_iff (List.getElem?_eq_some_iff.mp htask).1
        fun _ _ => Netlist.lt_of_follows).mpr hfollows)
    · cases heq

end Graph

/-! ## The report -/

theorem reports_iff_loops_ne_nil (netlist : Netlist) :
    (∃ names, Diagnostic.combinationalLoop names ∈ (compile netlist).diagnostics) ↔
      (Graph.ofNetlist netlist).place.loops ≠ [] := by
  constructor
  · rintro ⟨names, hnames⟩ hnone
    obtain ⟨members, hmembers, -⟩ := List.mem_map.mp hnames
    rw [hnone] at hmembers
    cases hmembers
  · intro hsome
    obtain ⟨members, hmembers⟩ := List.exists_mem_of_ne_nil _ hsome
    exact ⟨_, List.mem_map_of_mem hmembers⟩

theorem reports_iff_cyclic (netlist : Netlist) :
    (∃ names, Diagnostic.combinationalLoop names ∈ (compile netlist).diagnostics) ↔
      ∃ node, (Graph.ofNetlist netlist).Cyclic node := by
  have hclosed := Graph.closed_ofNetlist netlist
  have hself := Graph.not_mem_plainTargets_self netlist
  rw [reports_iff_loops_ne_nil]
  constructor
  · intro hsome
    obtain ⟨members, hmembers⟩ := List.exists_mem_of_ne_nil _ hsome
    obtain ⟨hfound, honLoop⟩ := Graph.looped_place hclosed hself members hmembers
    obtain ⟨node, hnode⟩ := List.exists_mem_of_ne_nil _ hfound
    exact ⟨node, (honLoop node hnode).cyclic⟩
  · rintro ⟨node, hcyclic⟩
    refine Graph.loops_ne_nil_of_cyclic hclosed hself (fun u v hedge => ?_) hcyclic
    exact Graph.size_ofNetlist ▸ Graph.lt_of_mem_edges (Graph.mem_plainTargets.mp hedge)

/-- A loop is reported exactly where the plain edges contain a cycle, and what is
reported lies on cycles. None of them goes through a tri-state net, so that feedback
over a bus is no loop. -/
theorem compile_reports_cycles (netlist : Netlist) :
    let graph := Graph.ofNetlist netlist
    ((∃ names, Diagnostic.combinationalLoop names ∈ (compile netlist).diagnostics) ↔
      ∃ node, graph.Cyclic node) ∧
    (∀ diagnostic ∈ (compile netlist).diagnostics, ∃ members, members ≠ [] ∧
      (∀ node ∈ members, graph.Cyclic node) ∧
      diagnostic = loopDiagnostic netlist graph members) ∧
    ∀ node index, graph.task node = .net index →
      netlist.nets[index]?.any (·.tristate) = true → ¬ graph.Cyclic node := by
  intro graph
  refine ⟨reports_iff_cyclic netlist, fun diagnostic hdiagnostic => ?_, ?_⟩
  · obtain ⟨members, hmembers, rfl⟩ := List.mem_map.mp hdiagnostic
    obtain ⟨hfound, honLoop⟩ := Graph.looped_place (Graph.closed_ofNetlist netlist)
      (Graph.not_mem_plainTargets_self netlist) members hmembers
    exact ⟨members, hfound, fun node hnode => (honLoop node hnode).cyclic, rfl⟩
  · intro node index htask htristate hcyclic
    obtain ⟨task, hnode⟩ := Graph.exists_task_of_cyclic hcyclic
    obtain rfl : task = .net index := (Graph.task_ofNetlist hnode).symm.trans htask
    exact Graph.not_cyclic_tristate hnode htristate hcyclic

/-! ## Chains of tasks -/

namespace Netlist

open Relation

variable {netlist : Netlist} {node next : Nat} {task other : Task}

theorem reaches_of_chain (h : TransGen netlist.Precedes task other) :
    ∃ u next v, netlist.tasks[u]? = some task ∧ netlist.tasks[v]? = some other ∧
      next ∈ (Graph.ofNetlist netlist).plainTargets u ∧
      Reaches (Graph.ofNetlist netlist).plainTargets next v := by
  induction h with
  | single h =>
    obtain ⟨u, v, hu, hv, hedge⟩ := h
    exact ⟨u, v, v, hu, hv, hedge, .refl v⟩
  | tail _ h ih =>
    obtain ⟨u, next, v, hu, hv, hedge, hrest⟩ := ih
    obtain ⟨w, x, hw, hx, hlast⟩ := h
    obtain rfl := node_unique hw hv
    exact ⟨u, next, x, hu, hx, hedge, hrest.tail hlast⟩

/-- Along a plain cycle every edge passes something on. -/
theorem relays_of_reaches {start : Nat} (hcyclic : (Graph.ofNetlist netlist).Cyclic start)
    (hreach : Reaches (Graph.ofNetlist netlist).plainTargets node next)
    (hto : Reaches (Graph.ofNetlist netlist).plainTargets start node)
    (hback : Reaches (Graph.ofNetlist netlist).plainTargets next start)
    (hnode : netlist.tasks[node]? = some task) (hnext : netlist.tasks[next]? = some other) :
    ReflTransGen (netlist.Relays (· = .waiting)) task other := by
  have hplain : ∀ {place here}, Reaches (Graph.ofNetlist netlist).plainTargets start place →
      Reaches (Graph.ofNetlist netlist).plainTargets place start →
      netlist.tasks[place]? = some here → ∀ index, here = .net index →
      netlist.nets[index]?.any (·.tristate) = false := by
    rintro place here hforth hrest hplace index rfl
    rw [← Bool.not_eq_true]
    exact fun htristate => Graph.not_cyclic_tristate hplace htristate (hcyclic.step hforth hrest)
  induction hreach generalizing task with
  | refl =>
    obtain rfl := Option.some.inj (hnode.symm.trans hnext)
    exact .refl
  | @head u v w hedge hrest ih =>
    obtain ⟨middle, hmiddle⟩ : ∃ middle, netlist.tasks[v]? = some middle :=
      ⟨_, List.getElem?_eq_getElem
        (Graph.size_ofNetlist ▸ (Graph.closed_ofNetlist netlist).lt hedge)⟩
    have hpass : netlist.Relays (· = .waiting) task middle := by
      refine relays_of_plain hnode hmiddle (fun index hindex => ?_) hedge
      rcases hindex with rfl | rfl
      · exact hplain hto ((Reaches.head hedge hrest).trans hback) hnode index rfl
      · exact hplain (hto.tail hedge) (hrest.trans hback) hmiddle index rfl
    exact .head hpass (ih (hto.tail hedge) hback hmiddle hnext)

/-- From a phase one gets to a later phase of its part, or to a net. -/
theorem later_or_net {allowed : ReadMode → Prop} {part position : Nat}
    (h : TransGen (netlist.Relays allowed) (.phase part position) other) :
    (∃ later, position < later ∧ other = .phase part later) ∨
      ∃ index, TransGen (netlist.Relays allowed) (.phase part position) (.net index) ∧
        ReflTransGen (netlist.Relays allowed) (.net index) other := by
  induction h with
  | single h =>
    cases h with
    | write hwrites hplain => exact .inr ⟨_, .single (.write hwrites hplain), .refl⟩
    | next _ _ hlt _ => exact .inl ⟨_, hlt, rfl⟩
  | tail hchain h ih =>
    rcases ih with ⟨later, hlt, rfl⟩ | ⟨index, hfirst, hrest⟩
    · cases h with
      | write hwrites hplain =>
        exact .inr ⟨_, hchain.tail (.write hwrites hplain), .refl⟩
      | next _ _ hnext _ => exact .inl ⟨_, hlt.trans hnext, rfl⟩
    · exact .inr ⟨index, hfirst, hrest.tail h⟩

/-- A cycle of tasks goes through a net, since the phases of a part are in order. -/
theorem exists_net_of_cycle {allowed : ReadMode → Prop}
    (h : TransGen (netlist.Relays allowed) task task) :
    ∃ index, TransGen (netlist.Relays allowed) (.net index) (.net index) := by
  cases task with
  | net index => exact ⟨index, h⟩
  | phase part position =>
    rcases later_or_net h with ⟨later, hlt, heq⟩ | ⟨index, hto, hback⟩
    · obtain ⟨-, rfl⟩ := Task.phase.inj heq
      exact absurd hlt (Nat.lt_irrefl _)
    · exact ⟨index, TransGen.trans_right hback hto⟩

/-- A loop is reported exactly where tasks that pass something on, over nets without
tri-state drivers and by reads that are waited for, close into a cycle with a net. -/
theorem compile_reports_waiting_cycles (netlist : Netlist) :
    (∃ names, Diagnostic.combinationalLoop names ∈ (compile netlist).diagnostics) ↔
      ∃ index, TransGen (netlist.Relays (· = .waiting)) (.net index) (.net index) := by
  rw [reports_iff_cyclic]
  constructor
  · rintro ⟨node, hcyclic⟩
    obtain ⟨task, hnode⟩ := Graph.exists_task_of_cyclic hcyclic
    obtain ⟨next, hedge, hrest⟩ := id hcyclic
    obtain ⟨middle, hnext⟩ : ∃ middle, netlist.tasks[next]? = some middle :=
      ⟨_, List.getElem?_eq_getElem
        (Graph.size_ofNetlist ▸ (Graph.closed_ofNetlist netlist).lt hedge)⟩
    have hchain : ReflTransGen (netlist.Relays (· = .waiting)) middle task :=
      relays_of_reaches hcyclic hrest (.head hedge (.refl _)) (.refl _) hnext hnode
    have hfirst : ReflTransGen (netlist.Relays (· = .waiting)) task middle :=
      relays_of_reaches hcyclic (.head hedge (.refl _)) (.refl _) hrest hnode hnext
    have hne : middle ≠ task := by
      rintro rfl
      obtain rfl := node_unique hnode hnext
      exact Graph.not_mem_plainTargets_self netlist node hedge
    have hstep := (reflTransGen_iff_eq_or_transGen.mp hfirst).resolve_left hne
    exact exists_net_of_cycle (hstep.trans_left hchain)
  · rintro ⟨index, hcycle⟩
    have hchain := hcycle.lift' id fun _ _ => precedes_of_relays
    obtain ⟨u, next, v, hu, hv, hedge, hrest⟩ := reaches_of_chain hchain
    obtain rfl := node_unique hu hv
    exact ⟨u, next, hedge, hrest⟩

/-! ## A loop that is not seen -/

/-- An adder that counts upwards: its sum is one of its operands. -/
def selfFed : Schematic where
  components :=
    [⟨"k", Builtin.constant.id, .obj [("width", .int 8), ("value", .int 1)]⟩,
      ⟨"add", Builtin.adder.id, .obj [("width", .int 8)]⟩]
  wires := [⟨"b", [⟨"k", "out"⟩, ⟨"add", "b"⟩]⟩, ⟨"w", [⟨"add", "out"⟩, ⟨"add", "a"⟩]⟩]

/-- The adder drives a net and reads it: a cycle with a net, without any tri-state
driver, of which nothing is reported. -/
theorem selfFed_unreported :
    let netlist := flatten Library.builtin selfFed
    TransGen (netlist.Relays (· ≠ .anyOf)) (.net 1) (.net 1) ∧
      (compile netlist).diagnostics = [] := by
  intro netlist
  have hphase : netlist.Ordinary 1 0 { reads := [0, 1], writes := [2] } :=
    ⟨by decide +kernel, rfl⟩
  have hreads : netlist.Reads 1 0 0 1 .crossing :=
    ⟨_, hphase, by decide, by decide +kernel, by decide +kernel⟩
  have hwrites : netlist.Writes 1 0 2 1 := ⟨_, hphase, by decide, by decide +kernel⟩
  refine ⟨.head (.read hreads (by decide) (by decide +kernel)) (.single ?_), by decide +kernel⟩
  exact .write hwrites (by decide +kernel)

end Netlist

end Breadboard
