import Breadboard.Proofs.Cover
import Breadboard.Proofs.Drivers
import Breadboard.Proofs.Reachable
import Breadboard.Proofs.Tally
import Breadboard.Proofs.Turning

/-!
# Nothing floats too early

A dynamic net waits for one of its drivers, and a copy phase for one of the nets it may
copy. Unless its block is forced, what it waits for has happened in the same settle
(`Netlist.lowered_of_queued`). The steps that bring such a counter down are found along
the edges of the graph: into a net these come from the phases that drive it
(`Graph.driver_of_edge`), into a phase from the nets of its any-of ports
(`Graph.choice_of_edge`).

A driver that drives when its phase is done still does so when its net is resolved,
since no further phase of its part runs in between. So a net with a counter of its own
that counts no driver was forced, and so was a copy phase that ran before all of its
nets (`floats_only_when_flushed`). A net further down in a block does not wait for
its own drivers there, and floats without being forced (`settle_floats_behind_counter`).
-/

namespace Breadboard

namespace Graph

variable {netlist : Netlist} {source node index part position : Nat} {kind : EdgeKind} {task : Task}

/-- An edge into a net that is decided at run time comes from a phase that drives the
net, which is then a tri-state net. -/
theorem driver_of_edge (hedge : ⟨node, kind⟩ ∈ (ofNetlist netlist).edges source)
    (hkind : kind ≠ .plain) (htask : netlist.tasks[source]? = some task)
    (hnet : netlist.tasks[node]? = some (.net index)) :
    ∃ part position port, task = .phase part position ∧ kind = .drive port ∧
      netlist.Writes part position port index ∧
      netlist.nets[index]?.any (·.tristate) = true := by
  rcases mem_edges.mp hedge with horder | hwrite
  · cases task with
    | phase part position =>
      obtain ⟨-, heq⟩ := (mem_orderEdges_phase htask).mp horder
      exact absurd (congrArg Edge.kind heq) hkind
    | net other =>
      obtain ⟨_, hphase, hfeeds⟩ := feeds_of_follows htask
        (List.mem_append_left _ (List.mem_map_of_mem horder))
      obtain rfl := Option.some.inj (hnet.symm.trans hphase)
      cases hfeeds
  · obtain ⟨write, deferred, hmem, rfl, heq⟩ := mem_writeEdges.mp hwrite
    have hwrites := (mem_deferral.mp hmem).1
    obtain ⟨part, position, hphase, hdrives⟩ := Netlist.mem_writes.mp hwrites
    obtain rfl := Option.some.inj (htask.symm.trans hphase)
    rcases heq with ⟨-, heq⟩ | ⟨⟨other, hother, hsame⟩, heq⟩
    · exact absurd (congrArg Edge.kind heq) hkind
    · obtain rfl : node = _ := congrArg Edge.target heq
      obtain rfl := Task.net.inj (Option.some.inj ((net_of_write hwrites).symm.trans hnet))
      obtain ⟨hother, hdeferred⟩ := mem_deferral.mp hother
      simp only [isDeferred, Bool.true_eq, Bool.and_eq_true] at hdeferred
      exact ⟨part, position, write.port, rfl, congrArg Edge.kind heq, hdrives, hsame ▸ hdeferred.1⟩

/-- An edge into a phase that is decided at run time comes from the net of one of its
any-of ports. -/
theorem choice_of_edge (hedge : ⟨node, kind⟩ ∈ (ofNetlist netlist).edges source)
    (hkind : kind ≠ .plain) (htask : netlist.tasks[source]? = some task)
    (hphase : netlist.tasks[node]? = some (.phase part position)) :
    ∃ port index, task = .net index ∧ netlist.Reads part position port index .anyOf := by
  rcases mem_edges.mp hedge with horder | hwrite
  · cases task with
    | phase other place =>
      obtain ⟨-, heq⟩ := (mem_orderEdges_phase htask).mp horder
      exact absurd (congrArg Edge.kind heq) hkind
    | net index =>
      obtain ⟨read, mode, hread, rfl, heq⟩ := (mem_orderEdges_net htask).mp horder
      obtain ⟨other, place, howner, hreads⟩ := Netlist.mem_reads.mp hread
      cases mode with
      | crossing => cases heq
      | waiting => exact absurd (congrArg Edge.kind (Option.some.inj heq)).symm hkind
      | anyOf =>
        obtain rfl : read.node = node := congrArg Edge.target (Option.some.inj heq)
        obtain ⟨rfl, rfl⟩ := Task.phase.inj (Option.some.inj (howner.symm.trans hphase))
        exact ⟨read.port, read.net, rfl, hreads⟩
  · obtain ⟨write, deferred, hmem, -, heq⟩ := mem_writeEdges.mp hwrite
    have hnet := net_of_write (mem_deferral.mp hmem).1
    rcases heq with ⟨-, heq⟩ | ⟨-, heq⟩
    · exact absurd (congrArg Edge.kind heq) hkind
    · obtain rfl : node = _ := congrArg Edge.target heq
      cases hnet.symm.trans hphase

/-- A phase with a wired any-of port has a counter of its own. -/
theorem isDynamic_of_anyOf {port : Nat} (hreads : netlist.Reads part position port index .anyOf)
    (hphase : netlist.tasks[node]? = some (.phase part position)) :
    (ofNetlist netlist).isDynamic node = true := by
  have hnet : netlist.tasks[netlist.phaseTasks.length + index]? = some (.net index) :=
    Netlist.node_net.mpr ⟨rfl, Netlist.readNet_lt hreads.choose_spec.2.2.1⟩
  have hedge : (⟨node, .oneOf⟩ : Edge) ∈
      (ofNetlist netlist).edges (netlist.phaseTasks.length + index) :=
    mem_edges.mpr (.inl ((mem_orderEdges_net hnet).mpr ⟨⟨node, port, index⟩, .anyOf,
      Netlist.mem_reads.mpr ⟨part, position, hphase, hreads⟩, rfl, rfl⟩))
  exact isDynamic_of_edge hedge (by simp)

end Graph

namespace Netlist

variable {netlist : Netlist} {state initial : State} {part position port index block counter : Nat}
  {ref : PortRef} {found : Block} {first : Step} {left right : List Task} {task : Task}

/-! ## Blocks with a counter of their own -/

theorem opened_place (netlist : Netlist) :
    Placement.Opened (Graph.ofNetlist netlist) (Graph.ofNetlist netlist).place :=
  Graph.opened_place (Graph.closed_ofNetlist netlist)

theorem exists_firing (hblock : block < (compile netlist).blocks.length) (state : State) :
    ∃ firing ∈ (settle netlist (compile netlist) state).2, firing.block = block := by
  have hran : block ∈ netlist.executed state :=
    (netlist.executed_perm state).mem_iff.mpr (List.mem_range.mpr hblock)
  exact List.mem_map.mp hran

theorem initial_of_oneOf (hfound : (compile netlist).blocks[block]? = some found) {count : Nat}
    (hcount : .oneOf count ∈ found.counters) :
    ((compile netlist).blocks.getD block default).initial[1]? = some 1 := by
  obtain ⟨-, -, hcounters⟩ := Placement.getElem?_blocks hfound
  rw [List.getD_eq_getElem?_getD, hfound, Option.getD_some, Block.initial, List.getElem?_map]
  rcases netlist.opened_place.choices hfound with htail | ⟨node, -, -, -, -, htail⟩
  · rw [hcounters, List.tail_cons] at htail
    rw [hcounters, htail] at hcount
    simp at hcount
  · rw [hcounters, List.tail_cons] at htail
    rw [hcounters, htail]
    rfl

/-- A counter is brought down along an edge to the first task of its block. -/
theorem edge_of_lowers (hfound : (compile netlist).blocks[block]? = some found)
    (hfirst : found.steps.head? = some first)
    (h : Settling.Lowers netlist (compile netlist) initial left task block counter) :
    ∃ source node trigger, netlist.tasks[source]? = some task ∧
      netlist.tasks[node]? = some first.task ∧
      ⟨node, Trigger.kind trigger⟩ ∈ (Graph.ofNetlist netlist).edges source ∧
      Settling.applies netlist ((left ++ [task]).foldl (State.perform netlist) initial) task
        trigger = true := by
  obtain ⟨other, hother, step, hstep, rfl, target, htarget, rfl, -, happlies⟩ := h
  obtain ⟨place, hplace⟩ := List.getElem?_of_mem hother
  obtain ⟨-, source, node, found', first', hsource, hedge, hfound', hfirst', hnode, -⟩ :=
    netlist.opened_place.decrements (Graph.sound_place (Graph.closed_ofNetlist netlist)).1 hplace
      hstep htarget
  obtain rfl := Option.some.inj (hfound.symm.trans hfound')
  obtain rfl := Option.some.inj (hfirst.symm.trans hfirst')
  have hlt := Graph.lt_of_mem_edges hedge
  have hlt' : node < netlist.tasks.length :=
    Graph.size_ofNetlist ▸ Graph.closed_ofNetlist netlist source _ hedge
  refine ⟨source, node, target.trigger, ?_, ?_, hedge, happlies⟩
  · rw [hsource, List.getElem?_eq_getElem hlt, Graph.task_ofNetlist (List.getElem?_eq_getElem hlt)]
  · rw [hnode, List.getElem?_eq_getElem hlt', Graph.task_ofNetlist (List.getElem?_eq_getElem hlt')]

/-- Unless it was forced, a block with a counter of its own ran behind a task that
leads to its first one. -/
theorem forced_or_lowered (state : State) (hfound : (compile netlist).blocks[block]? = some found)
    (hfirst : found.steps.head? = some first) {count : Nat}
    (hcount : .oneOf count ∈ found.counters) :
    ⟨block, true⟩ ∈ (settle netlist (compile netlist) state).2 ∨
      ∃ left task right later source node trigger,
        netlist.trace state = left ++ task :: right ++ first.task :: later ∧
        netlist.tasks[source]? = some task ∧ netlist.tasks[node]? = some first.task ∧
        ⟨node, Trigger.kind trigger⟩ ∈ (Graph.ofNetlist netlist).edges source ∧
        Settling.applies netlist (netlist.after state (left ++ [task])) task trigger = true := by
  obtain ⟨hlt, -⟩ := List.getElem?_eq_some_iff.mp hfound
  obtain ⟨⟨ran, forced⟩, hfiring, rfl⟩ := exists_firing hlt state
  cases forced with
  | true => exact .inl hfiring
  | false =>
    obtain ⟨left, task, right, later, htrace, hlowers⟩ :=
      lowered_of_queued hfiring rfl Nat.one_ne_zero (initial_of_oneOf hfound hcount)
    obtain ⟨source, node, trigger, hsource, hnode, hedge, happlies⟩ :=
      edge_of_lowers hfound hfirst hlowers
    obtain ⟨rest, hrest⟩ : ∃ rest, (compile netlist).tasksOf ran = first.task :: rest := by
      rw [Schedule.tasksOf, List.getD_eq_getElem?_getD, hfound, Option.getD_some]
      obtain ⟨tail, htail⟩ := List.head?_eq_some_iff.mp hfirst
      exact ⟨tail.map (·.task), by rw [htail, List.map_cons]⟩
    refine .inr ⟨left, task, right, rest ++ later, source, node, trigger, ?_, hsource, hnode, hedge,
      happlies⟩
    rw [htrace, hrest, List.cons_append]

/-! ## Nets -/

/-- A pin that drives behind the last phase of its part goes on driving. -/
theorem isDriving_between (hwired : netlist.Wired) (h : State.Sound netlist state)
    {middle : List Task} (htrace : netlist.trace state = left ++ (middle ++ right)) {port : Port}
    (hport : netlist.port? ref = some port) {placed : Part}
    (hpart : netlist.parts[ref.part]? = some placed)
    (hlast : .phase ref.part placed.device.last ∈ left)
    (hdrives : Net.isDriving netlist (netlist.after state left) ref = true) :
    Net.isDriving netlist (netlist.after state (left ++ middle)) ref = true := by
  have hturn := turn_between hwired h htrace hport hpart hlast
  obtain ⟨henabled, hfacing⟩ := Prod.mk.inj hturn
  rw [isDriving_eq hport, Pin.drives] at hdrives ⊢
  rw [henabled, hfacing]
  exact hdrives

theorem verdict_pos {net : Net} (hnet : netlist.nets[index]? = some net)
    (htristate : net.tristate = true) (hsource : ref ∈ net.sources)
    (hdrives : Net.isDriving netlist state ref = true) : 0 < (state.verdict netlist index).2 := by
  have hmem : ref ∈ net.driving netlist state := List.mem_filter.mpr ⟨hsource, hdrives⟩
  rw [verdict_tristate hnet htristate]
  split
  · exact Nat.one_pos
  · exact List.length_pos_of_mem hmem

/-- A phase that writes is the last one of its part. -/
theorem last_of_writes (hwired : netlist.Wired) (hwrites : netlist.Writes part position port index)
    {placed : Part} (hpart : netlist.parts[part]? = some placed) :
    position = placed.device.last := by
  obtain ⟨phase, hphase, hport, -⟩ := hwrites
  rcases last_or_bridge hwired hpart hphase with hlast | ⟨hbridge, rfl⟩
  · exact hlast
  · obtain rfl := Option.some.inj (hphase.1.symm.trans (turn_ordinary hwired hpart hbridge).1)
    cases hport

/-- A net with a counter of its own that counts no driver was forced. -/
theorem forced_of_floating (hwired : netlist.Wired) (h : State.Sound netlist state)
    (hfound : (compile netlist).blocks[block]? = some found)
    (hfirst : found.steps.head? = some first) (htask : first.task = .net index) {count : Nat}
    (hcount : .oneOf count ∈ found.counters)
    (hzero : ((netlist.final state).net index).enabledCount = 0) :
    ⟨block, true⟩ ∈ (settle netlist (compile netlist) state).2 := by
  rcases forced_or_lowered state hfound hfirst hcount with hforced | hlowered
  · exact hforced
  obtain ⟨left, task, right, later, source, node, trigger, htrace, hsource, hnode, hedge,
    happlies⟩ := hlowered
  rw [htask] at htrace hnode
  obtain ⟨part, position, port, rfl, hkind, hwrites, htristate⟩ :=
    Graph.driver_of_edge hedge trigger.kind_ne_plain hsource hnode
  obtain rfl : trigger = .driving port := by
    cases trigger with
    | fired => cases hkind
    | driving other => exact congrArg Trigger.driving (EdgeKind.drive.inj hkind)
  obtain ⟨-, -, -, hdriven⟩ := id hwrites
  obtain ⟨hbound, hlisted⟩ := Option.filter_eq_some_iff.mp hdriven
  obtain ⟨found', hport, -⟩ := Option.bind_eq_some_iff.mp hbound
  obtain ⟨placed, hpart, -⟩ := part_of_port hport
  obtain ⟨net, hnet, hmem⟩ := (Option.any_eq_true _ _).mp hlisted
  have hlast := last_of_writes hwired hwrites hpart
  subst hlast
  have hindex := (List.getElem?_eq_some_iff.mp hnet).1
  have hsplit : netlist.trace state =
      (left ++ [.phase part placed.device.last]) ++ (right ++ .net index :: later) := by
    rw [htrace]
    simp
  have hdrives := isDriving_between hwired h hsplit hport hpart (by simp) happlies
  have hcut : netlist.trace state =
      (left ++ [.phase part placed.device.last] ++ right) ++ .net index :: later := by
    rw [hsplit, List.append_assoc, List.append_assoc, List.append_assoc]
  have hpos := verdict_pos hnet (by simpa [hnet] using htristate)
    (of_decide_eq_true hmem) hdrives
  rw [net_final hwired h hcut hindex] at hzero
  exact absurd hzero (Nat.pos_iff_ne_zero.mp hpos)

/-! ## Phases -/

/-- A phase with a wired any-of port that runs before all of the nets of these ports was
forced. -/
theorem forced_of_early {phase : Phase} (hphase : netlist.Ordinary part position phase)
    (hreads : netlist.Reads part position port index .anyOf)
    (hblock : .phase part position ∈ (compile netlist).tasksOf block)
    (hearly : ∀ port ∈ phase.anyOf, ∀ index, netlist.readNet? ⟨part, port⟩ = some index →
      ¬ Before (netlist.trace state) (.net index) (.phase part position)) :
    ⟨block, true⟩ ∈ (settle netlist (compile netlist) state).2 := by
  have hlt : block < (compile netlist).blocks.length := by
    by_contra hnone
    rw [tasksOf_compile, if_neg hnone] at hblock
    cases hblock
  have hfound := List.getElem?_eq_getElem hlt
  rw [tasksOf_compile, if_pos hlt] at hblock
  obtain ⟨node, hmember, hnode⟩ := List.mem_map.mp hblock
  have hplaced : node < netlist.tasks.length := by
    have hsound := (Graph.sound_place (Graph.closed_ofNetlist netlist)).1
    obtain ⟨slot, hslot, -, rfl⟩ := Placement.mem_members.mp hmember
    exact Graph.size_ofNetlist ▸ hsound.bound _
      (List.mem_append_left _ (List.mem_map_of_mem hslot))
  have htask : netlist.tasks[node]? = some (.phase part position) := by
    rw [← hnode, List.getElem?_eq_getElem hplaced,
      Graph.task_ofNetlist (List.getElem?_eq_getElem hplaced)]
  obtain ⟨-, htail, first, hfirst, hopens⟩ := netlist.opened_place.counter hfound hmember
    (Graph.isDynamic_of_anyOf hreads htask)
  rw [hnode] at hopens
  have hcount := List.mem_of_mem_tail (htail ▸ List.mem_singleton_self _)
  rcases forced_or_lowered state hfound hfirst hcount with hforced | hlowered
  · exact hforced
  obtain ⟨left, task, right, later, source, other, trigger, htrace, hsource, hother, hedge, -⟩ :=
    hlowered
  rw [hopens] at htrace hother
  obtain ⟨choice, net, rfl, hchoice⟩ :=
    Graph.choice_of_edge hedge trigger.kind_ne_plain hsource hother
  obtain ⟨phase', hphase', -, hnet, hmode⟩ := hchoice
  obtain rfl := Option.some.inj (hphase.1.symm.trans hphase'.1)
  have hanyOf : choice ∈ phase.anyOf := by
    by_contra hnone
    rw [if_neg hnone] at hmode
    split at hmode <;> cases hmode
  refine absurd ?_ (hearly choice hanyOf net hnet)
  rw [htrace]
  exact .of_append (List.mem_append_right _ (List.mem_cons_self ..)) (List.mem_cons_self ..)

end Netlist

/-! ## Simulations -/

namespace Simulation

variable {simulation : Simulation}

theorem firings_settle (simulation : Simulation) : simulation.settle.firings =
    (Breadboard.settle simulation.netlist simulation.schedule simulation.state).2 := by
  unfold settle
  dsimp only
  split <;> rfl

/-- The net of an any-of port that is wired. -/
theorem exists_reads_of_bound {netlist : Netlist} (hwired : netlist.Wired)
    {part position port : Nat} {phase : Phase} (hphase : netlist.Ordinary part position phase)
    (hport : port ∈ phase.anyOf) (hbound : (netlist.port? ⟨part, port⟩).any (·.bound) = true) :
    ∃ index, netlist.Reads part position port index .anyOf := by
  obtain ⟨placed, hpart, hfound⟩ := Netlist.part_of_phase hphase
  have hbridge : placed.device = .bridge := by
    by_contra hother
    rw [(hwired.regularAt hpart).anyOf hfound hother] at hport
    cases hport
  obtain ⟨found, hplace, hwire⟩ := (Option.any_eq_true _ _).mp hbound
  obtain ⟨index, hindex⟩ := Option.isSome_iff_exists.mp hwire
  have hside : port = 2 ∨ port = 3 := by
    obtain ⟨hphases, -⟩ := (hwired.regularAt hpart).bridge hbridge
    rw [hphases] at hfound
    rcases position with _ | _ | position
    · obtain rfl := Option.some.inj hfound
      cases hport
    · obtain rfl := Option.some.inj hfound
      simpa using hport
    · cases hfound
  have hinput : found.type.input = true := by
    obtain ⟨first, second, hfirst, hsecond, htype, htype'⟩ :=
      Netlist.bridge_ports hwired hpart hbridge true
    rcases hside with rfl | rfl
    · rw [Option.some.inj (hplace.symm.trans hfirst), htype]
      rfl
    · rw [Option.some.inj (hplace.symm.trans hsecond), htype']
      rfl
  exact ⟨index, phase, hphase, List.mem_append_right _ hport,
    hwired.readNet hplace hinput hindex, by rw [if_pos hport]⟩

/-- In a settle, a net that opens a block with a counter of its own counts no driver only
if the block was forced. A phase with a wired any-of port runs before all nets of its any-of
ports only if its block was forced. A block is forced only when no block is queued, and
then it is the first one that waits for no other block to finish. -/
theorem floats_only_when_flushed (h : simulation.Reachable) :
    let netlist := simulation.netlist
    let schedule := simulation.schedule
    (∀ block found first index count, schedule.blocks[block]? = some found →
      found.steps.head? = some first → first.task = .net index →
      Counter.oneOf count ∈ found.counters →
      (simulation.settle.state.net index).enabledCount = 0 →
      ⟨block, true⟩ ∈ simulation.settle.firings) ∧
    (∀ part position phase port block, netlist.Ordinary part position phase →
      port ∈ phase.anyOf → (netlist.port? ⟨part, port⟩).any (·.bound) = true →
      .phase part position ∈ schedule.tasksOf block →
      (∀ other ∈ phase.anyOf, ∀ index, netlist.readNet? ⟨part, other⟩ = some index →
        ¬ Before (schedule.trace simulation.settle.executed) (.net index)
          (.phase part position)) →
      ⟨block, true⟩ ∈ simulation.settle.firings) ∧
    ∀ turn firing, simulation.settle.firings[turn]? = some firing → firing.forced = true →
      let now := (Settling.start netlist schedule simulation.state).advance netlist schedule turn
      now.queue = [] ∧ now.Waits firing.block ∧
        ∀ other < firing.block, ¬ now.Waits other := by
  intro netlist schedule
  have hcoherent := h.coherent
  have hwired := hcoherent.flat.wired
  have hschedule : schedule = compile netlist := hcoherent.schedule
  have hfirings : simulation.settle.firings =
      (Breadboard.settle netlist (compile netlist) simulation.state).2 := by
    rw [firings_settle, hcoherent.schedule]
  rw [hfirings, hschedule]
  refine ⟨fun block found first index count hfound hfirst htask hcount hzero => ?_,
    fun part position phase port block hphase hport hbound hblock hearly => ?_,
    fun turn firing hturn hforced => ?_⟩
  · rw [hcoherent.tracked_settle.agrees.net] at hzero
    exact Netlist.forced_of_floating hwired hcoherent.sound hfound hfirst htask hcount hzero
  · obtain ⟨index, hreads⟩ := exists_reads_of_bound hwired hphase hport hbound
    rw [executed_settle hcoherent.schedule] at hearly
    exact Netlist.forced_of_early hphase hreads hblock hearly
  · obtain ⟨-, after, hnext⟩ := Netlist.exists_turn hturn
    exact Settling.least_of_forced hnext hforced

/-- A bus behind two loops, with a bridge on it that nothing else keeps waiting, and
another bus between the loops. -/
def stalledBridges : Schematic where
  components :=
    [⟨"br", Builtin.bridge.id, .null⟩, ⟨"a1", Builtin.adder.id, .null⟩,
      ⟨"a2", Builtin.adder.id, .null⟩, ⟨"s1", Builtin.buffer.id, .null⟩,
      ⟨"br2", Builtin.bridge.id, .null⟩, ⟨"a3", Builtin.adder.id, .null⟩,
      ⟨"a4", Builtin.adder.id, .null⟩, ⟨"s2", Builtin.buffer.id, .null⟩]
  wires :=
    [⟨"m1", [⟨"a1", "out"⟩, ⟨"a2", "a"⟩, ⟨"s1", "in"⟩]⟩, ⟨"m2", [⟨"a2", "out"⟩, ⟨"a1", "a"⟩]⟩,
      ⟨"x", [⟨"s1", "out"⟩, ⟨"br2", "a"⟩, ⟨"a3", "b"⟩]⟩,
      ⟨"n1", [⟨"a3", "out"⟩, ⟨"a4", "a"⟩, ⟨"s2", "in"⟩]⟩, ⟨"n2", [⟨"a4", "out"⟩, ⟨"a3", "a"⟩]⟩,
      ⟨"a", [⟨"s2", "out"⟩, ⟨"br", "a"⟩]⟩]

/-- Bus `x` floats, and the copy phase of `br` runs before bus `a` is resolved: both were
forced. -/
theorem floats_only_when_flushed_stalled :
    let simulation := ofNetlist (flatten Library.builtin stalledBridges)
    ⟨4, true⟩ ∈ simulation.settle.firings ∧ ⟨1, true⟩ ∈ simulation.settle.firings := by
  intro simulation
  have hreachable : simulation.Reachable := reachable_ofNetlist (by decide +kernel)
  obtain ⟨hnet, hphase, -⟩ := floats_only_when_flushed hreachable
  have hordinary : simulation.netlist.Ordinary 0 1 { writes := [2, 3], anyOf := [2, 3] } :=
    ⟨by decide +kernel, rfl⟩
  have hbefore : ∀ port ∈ [2, 3], ∀ index ∈ simulation.netlist.readNet? ⟨0, port⟩,
      ¬ Before (simulation.schedule.trace simulation.settle.executed) (.net index)
        (.phase 0 1) := by
    decide +kernel
  refine ⟨?_, hphase 0 1 _ 2 1 hordinary (by decide) (by decide +kernel) (by decide +kernel)
    hbefore⟩
  have hfound : simulation.schedule.blocks[4]? =
      some (simulation.schedule.blocks.getD 4 default) := by
    have hlength : 4 < simulation.schedule.blocks.length := by decide +kernel
    simp [List.getD_eq_getElem?_getD, hlength]
  exact hnet 4 _ ⟨.net 2, [⟨2, 1, .fired⟩]⟩ 2 2 hfound (by decide +kernel) rfl (by decide +kernel)
    (by decide +kernel)

/-- A bus with a feedback, and a buffer that stays disabled behind it. -/
def tappedBus : Schematic where
  components :=
    [⟨"one", Builtin.constant.id, .obj [("value", .int 1)]⟩, ⟨"x", Builtin.buffer.id, .null⟩,
      ⟨"s", Builtin.buffer.id, .null⟩, ⟨"add", Builtin.adder.id, .null⟩,
      ⟨"y", Builtin.buffer.id, .null⟩]
  wires :=
    [⟨"e", [⟨"one", "out"⟩, ⟨"x", "en"⟩, ⟨"x", "in"⟩]⟩,
      ⟨"a", [⟨"x", "out"⟩, ⟨"y", "out"⟩, ⟨"s", "in"⟩, ⟨"add", "a"⟩]⟩, ⟨"c", [⟨"s", "out"⟩]⟩,
      ⟨"f", [⟨"add", "out"⟩, ⟨"y", "in"⟩]⟩]

/-- Net `c` stands in the block of bus `a`, which carries a counter for the drivers of the
bus. It floats although the block was not forced. -/
theorem settle_floats_behind_counter :
    let simulation := ofNetlist (flatten Library.builtin tappedBus)
    (simulation.netlist.nets.getD 2 default).tristate = true ∧
      .net 2 ∈ simulation.schedule.tasksOf 1 ∧
      Counter.oneOf 2 ∈ (simulation.schedule.blocks.getD 1 default).counters ∧
      (simulation.settle.state.net 2).enabledCount = 0 ∧
      ⟨1, true⟩ ∉ simulation.settle.firings := by
  decide +kernel

end Simulation

end Breadboard
