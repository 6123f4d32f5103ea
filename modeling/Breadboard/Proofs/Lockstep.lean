import Breadboard.Proofs.Trace

/-!
# Two settles in step

Which block runs next is decided by the counters, and these look at the state in
one way only: a step that drives a pin in fact releases the net behind it
(`Settling.applies`). So two settles of a netlist run the same tasks in the same
order as long as their steps agree on that (`Netlist.trace_congr`).

The second settle is the first one with another state in it throughout
(`Settling.withState`).
-/

namespace Breadboard

namespace Settling

variable {netlist : Netlist} {schedule : Schedule} {settling : Settling} {state : State}

/-- The same point of a settle, in another state. -/
def withState (settling : Settling) (state : State) : Settling :=
  { settling with state }

theorem foldl_decrement_withState {α : Type} (targets : List α) (block counter : α → Nat) :
    ∀ settling : Settling,
      targets.foldl (fun settling target => settling.decrement (block target) (counter target))
        (settling.withState state) =
      (targets.foldl (fun settling target => settling.decrement (block target) (counter target))
        settling).withState state := by
  induction targets with
  | nil => exact fun _ => rfl
  | cons target targets ih => exact fun settling => ih (settling.decrement _ _)

theorem runStep_withState {step : Step}
    (h : ∀ trigger, applies netlist (settling.state.perform netlist step.task) step.task trigger =
      applies netlist (state.perform netlist step.task) step.task trigger) :
    (settling.withState state).runStep netlist step =
      (settling.runStep netlist step).withState (state.perform netlist step.task) := by
  have hfilter : (step.decrements.filter fun target =>
      applies netlist (state.perform netlist step.task) step.task target.trigger) =
      step.decrements.filter fun target =>
        applies netlist (settling.state.perform netlist step.task) step.task target.trigger :=
    List.filter_congr fun target _ => (h target.trigger).symm
  exact (congrArg (fun targets : List Decrement => targets.foldl
    (fun settling target => settling.decrement target.block target.counter)
    (settling.withState (state.perform netlist step.task))) hfilter).trans
      (foldl_decrement_withState _ Decrement.block Decrement.counter
        { settling with state := settling.state.perform netlist step.task })

theorem next_withState : (settling.withState state).next =
    settling.next.map fun (firing, after) => (firing, after.withState state) := by
  obtain ⟨held, progress, queue, firings⟩ := settling
  cases queue with
  | cons block queue => rfl
  | nil =>
    simp only [next, withState, Option.map_map]
    rfl

/-! ## What has run -/

theorem executed_runBlock (firing : Firing) :
    (settling.runBlock netlist schedule firing).executed = settling.executed ++ [firing.block] := by
  have hsteps : ∀ (steps : List Step) (settling : Settling),
      (steps.foldl (Settling.runStep netlist) settling).firings = settling.firings := by
    intro steps
    induction steps with
    | nil => exact fun _ => rfl
    | cons step steps ih => exact fun settling => (ih _).trans (runStep_eq netlist settling step).2
  have hdone := foldl_decrement_eq (schedule.blocks.getD firing.block default).successors id
    (fun _ => 0) ((schedule.blocks.getD firing.block default).steps.foldl (runStep netlist)
      { settling with
        progress := settling.progress.modify firing.block fun progress =>
          { progress with executed := true }
        firings := settling.firings ++ [firing] })
  rw [executed, executed, ← List.map_singleton (f := Firing.block), ← List.map_append]
  exact congrArg _ (hdone.2.trans (hsteps _ _))

theorem executed_next {firing : Firing} {after : Settling}
    (hnext : settling.next = some (firing, after)) :
    after.executed = settling.executed ∧ after.state = settling.state := by
  unfold next at hnext
  split at hnext
  · obtain ⟨-, rfl⟩ := Prod.mk.inj (Option.some.inj hnext)
    exact ⟨rfl, rfl⟩
  · obtain ⟨_, -, heq⟩ := Option.map_eq_some_iff.mp hnext
    obtain ⟨-, rfl⟩ := Prod.mk.inj heq
    exact ⟨rfl, rfl⟩

theorem trace_runBlock (netlist : Netlist) (schedule : Schedule) (settling : Settling)
    (firing : Firing) :
    schedule.trace (settling.runBlock netlist schedule firing).executed =
      schedule.trace settling.executed ++ schedule.tasksOf firing.block := by
  rw [executed_runBlock, Schedule.trace, List.flatMap_append, List.flatMap_singleton]
  rfl

/-- What has run stays the beginning of what will have run. -/
theorem executed_advance (netlist : Netlist) (schedule : Schedule) (turns : Nat) :
    ∀ settling : Settling,
      settling.executed <+: (settling.advance netlist schedule turns).executed := by
  induction turns with
  | zero => exact fun settling => List.prefix_refl _
  | succ turns ih =>
    intro settling
    rw [advance]
    cases hnext : settling.next with
    | none => exact List.prefix_refl _
    | some found =>
      obtain ⟨firing, after⟩ := found
      have hrest := ih (after.runBlock netlist schedule firing)
      rw [executed_runBlock, (executed_next hnext).1] at hrest
      exact (List.prefix_append ..).trans hrest

theorem trace_advance (netlist : Netlist) (schedule : Schedule) (turns : Nat) (settling : Settling) :
    schedule.trace settling.executed <+:
      schedule.trace (settling.advance netlist schedule turns).executed := by
  obtain ⟨rest, hrest⟩ := executed_advance netlist schedule turns settling
  rw [← hrest, Schedule.trace, Schedule.trace, List.flatMap_append]
  exact List.prefix_append ..

end Settling

namespace Netlist

variable {netlist : Netlist} {first second : State} {left : List Task}

/-- The two settles agree on what a task does to the counters behind it. -/
def Agree (netlist : Netlist) (first second : State) (left : List Task) (task : Task) : Prop :=
  ∀ trigger, Settling.applies netlist (netlist.after first (left ++ [task])) task trigger =
    Settling.applies netlist (netlist.after second (left ++ [task])) task trigger

theorem foldl_runStep (steps : List Step) : ∀ (left : List Task) {settling : Settling},
    settling.state = netlist.after first left →
    (∀ front task back, steps.map (·.task) = front ++ task :: back →
      netlist.Agree first second (left ++ front) task) →
    steps.foldl (Settling.runStep netlist) (settling.withState (netlist.after second left)) =
      (steps.foldl (Settling.runStep netlist) settling).withState
        (netlist.after second (left ++ steps.map (·.task))) := by
  induction steps with
  | nil =>
    intro left settling _ _
    rw [List.map_nil, List.append_nil]
    rfl
  | cons step steps ih =>
    intro left settling hstate hagree
    have hstep : netlist.Agree first second left step.task := by
      have hfirst := hagree [] step.task (steps.map (·.task)) rfl
      rwa [List.append_nil] at hfirst
    rw [List.foldl_cons, List.foldl_cons, Settling.runStep_withState, ← after_snoc,
      ih (left ++ [step.task]), List.map_cons, List.append_assoc, List.singleton_append]
    · rw [(Settling.runStep_eq netlist settling step).1, hstate, after_snoc]
    · intro front task back hsplit
      rw [List.append_assoc]
      exact hagree (step.task :: front) task back (by rw [List.map_cons, hsplit, List.cons_append])
    · intro trigger
      rw [hstate, ← after_snoc, ← after_snoc]
      exact hstep trigger

theorem runBlock_withState {schedule : Schedule} {settling : Settling} {firing : Firing}
    (second : State) (hstate : settling.state = netlist.after first left)
    (hagree : ∀ front task back, schedule.tasksOf firing.block = front ++ task :: back →
      netlist.Agree first second (left ++ front) task) :
    (settling.withState (netlist.after second left)).runBlock netlist schedule firing =
      (settling.runBlock netlist schedule firing).withState
        (netlist.after second (left ++ schedule.tasksOf firing.block)) := by
  let marked : Settling := { settling with
    progress := settling.progress.modify firing.block fun progress =>
      { progress with executed := true }
    firings := settling.firings ++ [firing] }
  have hmarked : marked.state = netlist.after first left := hstate
  have hsteps := foldl_runStep (schedule.blocks.getD firing.block default).steps left hmarked hagree
  exact (congrArg (fun settling => (schedule.blocks.getD firing.block default).successors.foldl
    (fun settling next => settling.decrement next 0) settling) hsteps).trans
      (Settling.foldl_decrement_withState _ id (fun _ => 0) _)

theorem state_runBlock {schedule : Schedule} {settling : Settling} {firing : Firing}
    (hstate : settling.state = netlist.after first left) :
    (settling.runBlock netlist schedule firing).state =
      netlist.after first (left ++ schedule.tasksOf firing.block) := by
  have hsame : (settling.withState (netlist.after first left)).runBlock netlist schedule firing =
      (settling.runBlock netlist schedule firing).withState
        (netlist.after first (left ++ schedule.tasksOf firing.block)) :=
    runBlock_withState first hstate fun _ _ _ _ _ => rfl
  rw [← hstate] at hsame
  exact congrArg Settling.state hsame

/-- Two settles that agree run on in the same way. -/
theorem advance_withState {schedule : Schedule} {whole other : List Nat}
    (hagree : ∀ {left : List Task} {task : Task} {right : List Task},
      schedule.trace whole = left ++ task :: right →
        left <+: schedule.trace other → netlist.Agree first second left task) (turns : Nat) :
    ∀ {settling : Settling}, settling.state = netlist.after first (schedule.trace settling.executed) →
      (settling.advance netlist schedule turns).executed = whole →
      ((settling.withState (netlist.after second (schedule.trace settling.executed))).advance
        netlist schedule turns).executed = other →
      other = whole := by
  induction turns with
  | zero => rintro settling hstate rfl rfl; rfl
  | succ turns ih =>
    intro settling hstate hwhole hother
    rw [Settling.advance] at hwhole hother
    rw [Settling.next_withState] at hother
    cases hnext : settling.next with
    | none =>
      rw [hnext] at hwhole hother
      exact hother.symm.trans hwhole
    | some found =>
      obtain ⟨firing, after⟩ := found
      obtain ⟨hexecuted, hkeep⟩ := Settling.executed_next hnext
      rw [hnext] at hwhole hother
      dsimp only [Option.map_some] at hwhole hother
      rw [← hexecuted] at hstate hother
      rw [← hkeep] at hstate
      have hthis := Settling.trace_advance netlist schedule turns
        (after.runBlock netlist schedule firing)
      have hthat := Settling.trace_advance netlist schedule turns
        ((after.withState (netlist.after second (schedule.trace after.executed))).runBlock netlist
          schedule firing)
      rw [hwhole, Settling.trace_runBlock] at hthis
      rw [hother, Settling.trace_runBlock] at hthat
      rw [runBlock_withState second hstate, ← Settling.trace_runBlock netlist] at hother
      · refine ih ?_ hwhole hother
        rw [Settling.trace_runBlock]
        exact state_runBlock hstate
      · intro front task back hsplit
        obtain ⟨rest, hrest⟩ := hthis
        have hwhole : schedule.trace whole =
            (schedule.trace after.executed ++ front) ++ task :: (back ++ rest) := by
          rw [← hrest, hsplit]
          simp
        refine hagree hwhole (List.IsPrefix.trans ?_ hthat)
        · refine (List.prefix_append_right_inj _).mpr ?_
          rw [hsplit]
          exact List.prefix_append ..

/-- As long as two settles agree they run the same blocks. -/
theorem executed_congr (hagree : ∀ {left : List Task} {task : Task} {right : List Task},
    netlist.trace first = left ++ task :: right → left <+: netlist.trace second →
      netlist.Agree first second left task) :
    netlist.executed second = netlist.executed first := by
  have hstart : (Settling.start netlist (compile netlist) first).state =
      netlist.after first ((compile netlist).trace []) := rfl
  exact advance_withState hagree (compile netlist).blocks.length hstart
    (netlist.executed_eq first).symm (netlist.executed_eq second).symm

/-- And so they run the same tasks. -/
theorem trace_congr (hagree : ∀ {left : List Task} {task : Task} {right : List Task},
    netlist.trace first = left ++ task :: right → left <+: netlist.trace second →
      netlist.Agree first second left task) :
    netlist.trace second = netlist.trace first := by
  rw [trace, trace, executed_congr hagree]

end Netlist

end Breadboard
