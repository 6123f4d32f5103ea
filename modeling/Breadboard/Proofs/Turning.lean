import Breadboard.Proofs.Loops
import Breadboard.Proofs.Wired

/-!
# A bridge turns before it copies

A settle carries every task out once (`Netlist.not_mem_split`), and only a bridge has two
ordinary phases. Its copy phase drives the nets that it also reads, so that none of them can
wait for it (`Netlist.deferred_of_copy`). No edge leads on from there, the copy phase lies on
no loop, and it is never placed before the phase it waits for (`Netlist.turn_before_copy`). So
the last phase of a part is the last one in every settle, whatever loops a circuit has
(`Netlist.not_mem_behind`).
-/

namespace Breadboard

namespace Netlist

variable {netlist : Netlist} {state : State} {part position port index node : Nat} {placed : Part}
  {ref : PortRef} {task : Task} {left right : List Task} {phase before after : Phase}

/-! ## The tasks of a settle -/

theorem mem_trace : task ∈ netlist.trace state ↔ task ∈ netlist.tasks :=
  (netlist.trace_perm state).mem_iff

theorem ordinary_of_mem_trace (h : .phase part position ∈ netlist.trace state) :
    ∃ phase, netlist.Ordinary part position phase := by
  rcases List.mem_append.mp (mem_trace.mp h) with h | h
  · obtain ⟨_, _, phase, hphase, heq⟩ := mem_phaseTasks.mp h
    obtain ⟨rfl, rfl⟩ := Task.phase.inj heq
    exact ⟨phase, hphase⟩
  · simp at h

theorem ordinary_of_mem_left (htrace : netlist.trace state = left ++ right)
    (h : .phase part position ∈ left) : ∃ phase, netlist.Ordinary part position phase :=
  ordinary_of_mem_trace (htrace ▸ List.mem_append_left _ h)

theorem ordinary_of_mem_right (htrace : netlist.trace state = left ++ right)
    (h : .phase part position ∈ right) : ∃ phase, netlist.Ordinary part position phase :=
  ordinary_of_mem_trace (htrace ▸ List.mem_append_right _ h)

theorem exists_split_phase {phase : Phase} (h : netlist.Ordinary part position phase)
    (state : State) : ∃ left right, netlist.trace state = left ++ .phase part position :: right :=
  List.append_of_mem (mem_trace.mpr (mem_tasks_phase h))

/-- A task runs once. -/
theorem not_mem_split (htrace : netlist.trace state = left ++ task :: right) :
    task ∉ left ∧ task ∉ right := by
  have hnodup := netlist.trace_nodup state
  rw [htrace] at hnodup
  obtain ⟨-, hright, hdisjoint⟩ := List.nodup_append.mp hnodup
  exact ⟨fun hmem => hdisjoint _ hmem _ (List.mem_cons_self ..) rfl, (List.nodup_cons.mp hright).1⟩

/-- What has run is not still to come. -/
theorem not_mem_right (htrace : netlist.trace state = left ++ right) (htask : task ∈ left) :
    task ∉ right := by
  have hnodup := netlist.trace_nodup state
  rw [htrace] at hnodup
  exact fun hmem => (List.nodup_append.mp hnodup).2.2 _ htask _ hmem rfl

/-- What runs before a task is what stands in front of it. -/
theorem before_iff_mem_left {first second : Task}
    (htrace : netlist.trace state = left ++ second :: right) :
    Before (netlist.trace state) first second ↔ first ∈ left := by
  have hnodup := netlist.trace_nodup state
  rw [htrace] at hnodup ⊢
  exact ⟨fun h => h.mem_left hnodup, Before.of_mem_left⟩

/-! ## The phases of a part -/

/-- A phase which is not the last one of its part is the first one of a bridge. -/
theorem last_or_bridge (hwired : netlist.Wired) (hpart : netlist.parts[part]? = some placed)
    (hphase : netlist.Ordinary part position phase) :
    position = placed.device.last ∨ placed.device = .bridge ∧ position = 0 := by
  obtain ⟨owner, howner, hfound⟩ := part_of_phase hphase
  obtain rfl := Option.some.inj (howner.symm.trans hpart)
  rcases (hwired.regularAt hpart).cases hfound hphase.2 with ⟨hlast, -⟩ | ⟨hbridge, hzero, -⟩
  · exact Or.inl hlast
  · exact Or.inr ⟨hbridge, hzero⟩

/-- From a phase an edge leads to the next one of its part. -/
theorem precedes_succ (hbefore : netlist.Ordinary part position before)
    (hafter : netlist.Ordinary part (position + 1) after) :
    netlist.Precedes (.phase part position) (.phase part (position + 1)) := by
  obtain ⟨first, hfirst⟩ := List.getElem?_of_mem
    (mem_phaseTasks.mpr ⟨part, position, before, hbefore, rfl⟩)
  obtain ⟨second, hsecond⟩ := List.getElem?_of_mem
    (mem_phaseTasks.mpr ⟨part, position + 1, after, hafter, rfl⟩)
  have hlt : first < second := by
    rcases Nat.lt_trichotomy first second with h | rfl | h
    · exact h
    · obtain ⟨-, heq⟩ := Task.phase.inj (Option.some.inj (hfirst.symm.trans hsecond))
      omega
    · have hearlier := earlier_of_lt hsecond hfirst h
      simp only [Earlier] at hearlier
      omega
  -- nothing fits between the two
  have hnext : second = first + 1 := by
    by_contra hne
    have hmiddle := List.getElem?_eq_getElem
      (Nat.lt_trans (by omega : first + 1 < second) (List.getElem?_eq_some_iff.mp hsecond).1)
    obtain ⟨_, _, _, -, heq⟩ := mem_phaseTasks.mp (List.mem_of_getElem? hmiddle)
    rw [heq] at hmiddle
    have hearlier := earlier_of_lt hfirst hmiddle (Nat.lt_succ_self first)
    have hlater := earlier_of_lt hmiddle hsecond (by omega)
    simp only [Earlier] at hearlier hlater
    omega
  subst hnext
  refine ⟨first, first + 1, node_phase.mpr hfirst, node_phase.mpr hsecond,
    Graph.mem_plainTargets.mpr (Graph.mem_edges.mpr (Or.inl ?_))⟩
  exact (Graph.mem_orderEdges_phase (node_phase.mpr hfirst)).mpr
    ⟨⟨position + 1, node_phase.mpr hsecond⟩, rfl⟩

/-- The first phase of a bridge, in which it turns. -/
theorem turn_ordinary (hwired : netlist.Wired) (hpart : netlist.parts[part]? = some placed)
    (hbridge : placed.device = .bridge) : netlist.Ordinary part 0 { reads := [0, 1] } := by
  refine phase_of_part hpart ?_ rfl
  rw [((hwired.regularAt hpart).bridge hbridge).1]
  rfl

/-- The last phase of a bridge, in which it copies. -/
theorem copy_ordinary (hwired : netlist.Wired) (hpart : netlist.parts[part]? = some placed)
    (hbridge : placed.device = .bridge) :
    netlist.Ordinary part 1 { writes := [2, 3], anyOf := [2, 3] } := by
  refine phase_of_part hpart ?_ rfl
  rw [((hwired.regularAt hpart).bridge hbridge).1]
  rfl

theorem bridge_ports (hwired : netlist.Wired) (hpart : netlist.parts[part]? = some placed)
    (hbridge : placed.device = .bridge) (forward : Bool) :
    ∃ source target, netlist.port? ⟨part, (Device.bridgeSides forward).1⟩ = some source ∧
      netlist.port? ⟨part, (Device.bridgeSides forward).2⟩ = some target ∧
      source.type = .dataBus ∧ target.type = .dataBus := by
  obtain ⟨-, width, hports⟩ := (hwired.regularAt hpart).bridge hbridge
  have hside : ∀ side, side = 2 ∨ side = 3 →
      ∃ port, netlist.port? ⟨part, side⟩ = some port ∧ port.type = .dataBus := by
    intro side hside
    have hdecl : ∃ decl, (placed.ports.map (·.toPortDecl))[side]? = some decl ∧
        decl.type = .dataBus := by
      rw [hports]
      rcases hside with rfl | rfl <;> exact ⟨_, rfl, rfl⟩
    obtain ⟨decl, hdecl, htype⟩ := hdecl
    rw [List.getElem?_map] at hdecl
    obtain ⟨port, hport, rfl⟩ := Option.map_eq_some_iff.mp hdecl
    exact ⟨port, Option.bind_eq_some_iff.mpr ⟨placed, hpart, hport⟩, htype⟩
  obtain ⟨first, hfirst, htype⟩ := hside 2 (Or.inl rfl)
  obtain ⟨second, hsecond, htype'⟩ := hside 3 (Or.inr rfl)
  cases forward with
  | true => exact ⟨first, second, hfirst, hsecond, htype, htype'⟩
  | false => exact ⟨second, first, hsecond, hfirst, htype', htype⟩

/-- What a bridge drives it also reads, so that it is not waited for. -/
theorem deferred_of_copy (hwired : netlist.Wired) (hpart : netlist.parts[part]? = some placed)
    (hbridge : placed.device = .bridge) (hwrites : netlist.Writes part 1 port index) :
    netlist.Deferred part 1 index := by
  have hordinary := copy_ordinary hwired hpart hbridge
  obtain ⟨phase, hphase, hport, hdriven⟩ := hwrites
  obtain rfl := Option.some.inj (hphase.1.symm.trans hordinary.1)
  obtain ⟨found, hfound, htype⟩ : ∃ found, netlist.port? ⟨part, port⟩ = some found ∧
      found.type = .dataBus := by
    obtain ⟨first, second, hfirst, hsecond, htype, htype'⟩ := bridge_ports hwired hpart hbridge true
    rcases List.mem_pair.mp hport with rfl | rfl
    · exact ⟨first, hfirst, htype⟩
    · exact ⟨second, hsecond, htype'⟩
  obtain ⟨hbound, hsource⟩ := Option.filter_eq_some_iff.mp hdriven
  rw [hfound, Option.bind_some] at hbound
  obtain ⟨net, hnet, hmem⟩ := (Option.any_eq_true _ _).mp hsource
  obtain ⟨same, hattached, -⟩ := hwired.source hnet (of_decide_eq_true hmem)
  obtain rfl := Option.some.inj (hattached.found.symm.trans hfound)
  refine ⟨(Option.any_eq_true _ _).mpr ⟨net, hnet, hattached.tristate (by rw [htype]; rfl)⟩,
    .single (.read (⟨_, hordinary, ?_, ?_, ?_⟩ : netlist.Reads part 1 port index .anyOf) nofun)⟩
  · exact hport
  · exact hwired.readNet hfound (by rw [htype]; rfl) hbound
  · rw [if_pos]
    exact hport

theorem plainTargets_copy (hwired : netlist.Wired) (hpart : netlist.parts[part]? = some placed)
    (hbridge : placed.device = .bridge) (htask : netlist.tasks[node]? = some (.phase part 1)) :
    (Graph.ofNetlist netlist).plainTargets node = [] := by
  refine List.eq_nil_iff_forall_not_mem.mpr fun target htarget => ?_
  rcases Graph.mem_edges.mp (Graph.mem_plainTargets.mp htarget) with hedge | hedge
  · obtain ⟨⟨later, hlater⟩, -⟩ := (Graph.mem_orderEdges_phase htask).mp hedge
    have hlt := Graph.ordinary_succ htask hlater
    obtain ⟨phase, hphase⟩ := Graph.ordinary_of_task hlater
    rcases last_or_bridge hwired hpart hphase with hlast | ⟨-, hzero⟩
    · rw [hbridge] at hlast
      have hone : later = 1 := hlast
      omega
    · omega
  · obtain ⟨write, deferred, hdeferral, rfl, hplain | ⟨-, hdrive⟩⟩ := Graph.mem_writeEdges.mp hedge
    · obtain ⟨hwrite, hfalse⟩ := Graph.mem_deferral.mp hdeferral
      obtain ⟨owner, position, howner, hwrites⟩ := mem_writes.mp hwrite
      obtain ⟨rfl, rfl⟩ := Task.phase.inj (Option.some.inj (howner.symm.trans htask))
      have htrue :=
        (isDeferred_iff hwrite htask).mpr (deferred_of_copy hwired hpart hbridge hwrites)
      rw [← hfalse, hplain.1] at htrue
      cases htrue
    · cases hdrive

/-- In every settle a bridge turns before it copies. -/
theorem turn_before_copy (hwired : netlist.Wired) (hpart : netlist.parts[part]? = some placed)
    (hbridge : placed.device = .bridge) (state : State) :
    Before (netlist.trace state) (.phase part 0) (.phase part 1) := by
  obtain ⟨u, v, hfirst, hsecond, hedge⟩ :=
    precedes_succ (turn_ordinary hwired hpart hbridge) (copy_ordinary hwired hpart hbridge)
  have hsource : u < (Graph.ofNetlist netlist).size :=
    Graph.size_ofNetlist ▸ Graph.lt_of_mem_edges (Graph.mem_plainTargets.mp hedge)
  rw [← Graph.task_ofNetlist hfirst, ← Graph.task_ofNetlist hsecond]
  rcases Graph.position_lt_or_released (Graph.closed_ofNetlist netlist)
    (Graph.not_mem_plainTargets_self netlist) hedge hsource with hlt | ⟨_, _, -, -, hreleased, -⟩
  · exact before_trace hedge hlt
  · obtain ⟨other, hne, hreach, -⟩ := hreleased.onLoop
    cases hreach with
    | refl => exact absurd rfl hne
    | head hmem _ =>
      rw [plainTargets_copy hwired hpart hbridge hsecond] at hmem
      cases hmem

/-- Behind the last phase of a part none of its phases runs, with loops or without. -/
theorem not_mem_behind (hwired : netlist.Wired) (htrace : netlist.trace state = left ++ right)
    (hpart : netlist.parts[part]? = some placed)
    (hlast : .phase part placed.device.last ∈ left) (position : Nat) :
    .phase part position ∉ right := by
  intro hmem
  have hnodup := netlist.trace_nodup state
  rw [htrace] at hnodup
  have hlater := Before.of_append hlast hmem
  obtain ⟨phase, hphase⟩ := ordinary_of_mem_right htrace hmem
  rcases last_or_bridge hwired hpart hphase with rfl | ⟨hbridge, rfl⟩
  · exact hlater.ne hnodup rfl
  · have hearlier := turn_before_copy hwired hpart hbridge state
    rw [htrace] at hearlier
    rw [hbridge] at hlater
    exact hearlier.asymm hnodup hlater

end Netlist

end Breadboard
