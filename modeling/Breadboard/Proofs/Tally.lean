import Breadboard.Proofs.Firing

/-!
# What brings a counter down

`Settling.Tallied` accounts for every counter beside counter 0 and for every queued
block: such a counter stands where it started unless a step that has run brought it
down, and a queued block has nothing left to wait for. Each part of a turn keeps it,
whether counters stand at zero already or not.

A turn takes the next block either out of the queue or, when that is empty, by force.
`next_of_firing` finds the turn of each block in the list of those that ran, so that a
block with a counter of this kind was forced, or an earlier step of the same settle
brought the counter down (`Netlist.lowered_of_queued`).
-/

namespace Breadboard

namespace Settling

variable {netlist : Netlist} {schedule : Schedule} {initial : State} {tasks : List Task}
  {settling after : Settling} {firing : Firing} {block counter turn : Nat}

/-- After these tasks the step of one more brings a counter of a block down. -/
def Lowers (netlist : Netlist) (schedule : Schedule) (initial : State) (left : List Task)
    (task : Task) (block counter : Nat) : Prop :=
  ∃ found ∈ schedule.blocks, ∃ step ∈ found.steps, step.task = task ∧
    ∃ target ∈ step.decrements, target.block = block ∧ target.counter = counter ∧
      applies netlist ((left ++ [task]).foldl (State.perform netlist) initial) task
        target.trigger = true

/-- One of these tasks brings the counter down. -/
def Lowered (netlist : Netlist) (schedule : Schedule) (initial : State) (tasks : List Task)
    (block counter : Nat) : Prop :=
  ∃ left task right, tasks = left ++ task :: right ∧
    Lowers netlist schedule initial left task block counter

theorem Lowered.append (h : Lowered netlist schedule initial tasks block counter)
    (more : List Task) : Lowered netlist schedule initial (tasks ++ more) block counter := by
  obtain ⟨left, task, right, rfl, hlowers⟩ := h
  exact ⟨left, task, right ++ more, by simp, hlowers⟩

structure Tallied (netlist : Netlist) (schedule : Schedule) (initial : State)
    (tasks : List Task) (settling : Settling) : Prop where
  state : settling.state = tasks.foldl (State.perform netlist) initial
  length : settling.progress.length = schedule.blocks.length
  counter : ∀ block < schedule.blocks.length, ∀ counter, counter ≠ 0 →
    (settling.entry block).remaining[counter]? =
        (schedule.blocks.getD block default).initial[counter]? ∨
      Lowered netlist schedule initial tasks block counter
  queue : ∀ block ∈ settling.queue, block < schedule.blocks.length ∧
    ∀ count ∈ (settling.entry block).remaining, count = 0

namespace Tallied

theorem decrement (h : Tallied netlist schedule initial tasks settling)
    (hlowered : counter ≠ 0 → Lowered netlist schedule initial tasks block counter) :
    Tallied netlist schedule initial tasks (settling.decrement block counter) := by
  have hkeep : ∀ other ∈ settling.queue, other < schedule.blocks.length ∧
      ∀ count ∈ ((settling.decrement block counter).entry other).remaining, count = 0 := by
    intro other hother
    obtain ⟨hlt, hzero⟩ := h.queue other hother
    refine ⟨hlt, fun count hcount => ?_⟩
    rw [entry_decrement (h.length ▸ hlt)] at hcount
    split at hcount
    · obtain ⟨position, hposition⟩ := List.getElem?_of_mem hcount
      rw [List.getElem?_modify] at hposition
      obtain ⟨held, hheld, rfl⟩ := Option.map_eq_some_iff.mp hposition
      have hnone := hzero held (List.mem_of_getElem? hheld)
      split <;> omega
    · exact hzero count hcount
  refine ⟨h.state, by simp [Settling.decrement, h.length], fun other hother position hne => ?_, ?_⟩
  · rw [entry_decrement (h.length ▸ hother)]
    split
    · next hsame =>
      subst hsame
      by_cases hposition : counter = position
      · subst hposition
        exact .inr (hlowered hne)
      · simpa [List.getElem?_modify, hposition] using h.counter block hother position hne
    · exact h.counter other hother position hne
  · rcases queue_decrement settling block counter with hqueue | ⟨hqueue, -, hlt, hdue⟩
    · rw [hqueue]
      exact hkeep
    · rw [hqueue]
      intro other hother
      rcases List.mem_append.mp hother with hother | hother
      · exact hkeep other hother
      · obtain rfl := List.mem_singleton.mp hother
        simp only [Progress.isDue, Bool.and_eq_true, List.all_eq_true, decide_eq_true_eq] at hdue
        exact ⟨h.length ▸ hlt, hdue.2⟩

theorem foldl_decrement {α : Type} (block counter : α → Nat) (targets : List α) :
    ∀ {settling : Settling}, Tallied netlist schedule initial tasks settling →
      (∀ target ∈ targets, counter target ≠ 0 →
        Lowered netlist schedule initial tasks (block target) (counter target)) →
      Tallied netlist schedule initial tasks (targets.foldl
        (fun settling target => settling.decrement (block target) (counter target)) settling) := by
  induction targets with
  | nil => exact fun h _ => h
  | cons target targets ih =>
    intro settling h hlowered
    exact ih (h.decrement (hlowered target (List.mem_cons_self ..)))
      fun other hother => hlowered other (List.mem_cons_of_mem _ hother)

/-- The counters that a step brings down have then been brought down by it. -/
theorem runStep {found : Block} {step : Step}
    (h : Tallied netlist schedule initial tasks settling) (hfound : found ∈ schedule.blocks)
    (hstep : step ∈ found.steps) :
    Tallied netlist schedule initial (tasks ++ [step.task]) (settling.runStep netlist step) := by
  have hstate : settling.state.perform netlist step.task =
      (tasks ++ [step.task]).foldl (State.perform netlist) initial := by
    rw [List.foldl_append, ← h.state]
    rfl
  have hperformed : Tallied netlist schedule initial (tasks ++ [step.task])
      { settling with state := settling.state.perform netlist step.task } :=
    ⟨hstate, h.length, fun block hblock counter hne =>
      (h.counter block hblock counter hne).imp_right (·.append _), h.queue⟩
  refine hperformed.foldl_decrement Decrement.block Decrement.counter _ fun target htarget _ => ?_
  obtain ⟨hmem, happlies⟩ := List.mem_filter.mp htarget
  refine ⟨tasks, step.task, [], rfl, found, hfound, step, hstep, rfl, target, hmem, rfl, rfl, ?_⟩
  rw [← hstate]
  exact happlies

theorem foldl_steps {found : Block} (hfound : found ∈ schedule.blocks) (steps : List Step) :
    ∀ {tasks : List Task} {settling : Settling},
      Tallied netlist schedule initial tasks settling → (∀ step ∈ steps, step ∈ found.steps) →
      Tallied netlist schedule initial (tasks ++ steps.map (·.task))
        (steps.foldl (Settling.runStep netlist) settling) := by
  induction steps with
  | nil =>
    intro tasks settling h _
    simpa using h
  | cons step steps ih =>
    intro tasks settling h hsteps
    have hrest := ih (h.runStep hfound (hsteps step (List.mem_cons_self ..)))
      fun other hother => hsteps other (List.mem_cons_of_mem _ hother)
    rwa [List.append_assoc, List.singleton_append] at hrest

/-- Marking a block leaves all counters as they are. -/
theorem mark (h : Tallied netlist schedule initial tasks settling) (block : Nat)
    (firings : List Firing) : Tallied netlist schedule initial tasks
      { settling with
        progress := settling.progress.modify block fun progress =>
          { progress with executed := true }
        firings } := by
  have hentry : ∀ other < schedule.blocks.length,
      ((settling.progress.modify block fun progress =>
        { progress with executed := true }).getD other default).remaining =
          (settling.entry other).remaining := by
    intro other hother
    rw [← h.length] at hother
    by_cases heq : block = other <;> simp [entry, List.getD_eq_getElem?_getD, hother, heq]
  refine ⟨h.state, by simp [h.length], fun other hother position hne => ?_, fun other hother => ?_⟩
  · rw [entry, hentry other hother]
    exact h.counter other hother position hne
  · obtain ⟨hlt, hzero⟩ := h.queue other hother
    refine ⟨hlt, ?_⟩
    rw [entry, hentry other hlt]
    exact hzero

theorem runBlock (h : Tallied netlist schedule initial tasks settling)
    (hbound : firing.block < schedule.blocks.length) :
    Tallied netlist schedule initial (tasks ++ schedule.tasksOf firing.block)
      (settling.runBlock netlist schedule firing) := by
  have hfound : schedule.blocks.getD firing.block default ∈ schedule.blocks := by
    rw [List.getD_eq_getElem?_getD, List.getElem?_eq_getElem hbound]
    exact List.getElem_mem hbound
  have hsteps := (h.mark firing.block (settling.firings ++ [firing])).foldl_steps hfound _
    fun step hstep => hstep
  exact hsteps.foldl_decrement id (fun _ => 0) _ fun _ _ hne => absurd rfl hne

/-- A block that was not forced had nothing left to wait for. -/
theorem next (h : Tallied netlist schedule initial tasks settling)
    (hnext : settling.next = some (firing, after)) :
    firing.block < schedule.blocks.length ∧
      (firing.forced = false → ∀ count ∈ (settling.entry firing.block).remaining, count = 0) ∧
      Tallied netlist schedule initial tasks after := by
  cases hqueue : settling.queue with
  | cons block queue =>
    simp only [Settling.next, hqueue, Option.some.injEq, Prod.mk.injEq] at hnext
    obtain ⟨rfl, rfl⟩ := hnext
    obtain ⟨hlt, hzero⟩ := h.queue block (hqueue ▸ List.mem_cons_self ..)
    exact ⟨hlt, fun _ => hzero, h.state, h.length, h.counter, fun other hother =>
      h.queue other (hqueue ▸ List.mem_cons_of_mem _ hother)⟩
  | nil =>
    simp only [Settling.next, hqueue, Option.map_eq_some_iff, Prod.mk.injEq] at hnext
    obtain ⟨block, hfind, rfl, rfl⟩ := hnext
    obtain ⟨hlt, -⟩ := List.findIdx?_eq_some_iff_getElem.mp hfind
    exact ⟨h.length ▸ hlt, ⟨fun hforced => Bool.noConfusion hforced, h⟩⟩

theorem start (netlist : Netlist) (schedule : Schedule) (state : State) :
    Tallied netlist schedule (Settling.start netlist schedule state).state []
      (Settling.start netlist schedule state) := by
  have hentry : ∀ block < schedule.blocks.length,
      (Settling.start netlist schedule state).entry block =
        { remaining := (schedule.blocks.getD block default).initial } := by
    intro block hblock
    simp [Settling.start, entry, List.getD_eq_getElem?_getD, hblock]
  refine ⟨rfl, by simp [Settling.start], fun block hblock counter _ => .inl ?_,
    fun block hblock => ?_⟩
  · rw [hentry block hblock]
  · obtain ⟨hlt, hdue⟩ := List.mem_filter.mp hblock
    refine ⟨by simpa using hlt, ?_⟩
    obtain ⟨progress, hprogress, hisDue⟩ := (Option.any_eq_true _ _).mp hdue
    simp only [Progress.isDue, Bool.and_eq_true, List.all_eq_true, decide_eq_true_eq] at hisDue
    intro count hcount
    refine hisDue.2 count ?_
    rwa [entry, List.getD_eq_getElem?_getD,
      show (Settling.start netlist schedule state).progress[block]? = some progress from
        hprogress] at hcount

end Tallied

/-! ## Turns -/

theorem firings_runStep_foldl (netlist : Netlist) (steps : List Step) : ∀ settling : Settling,
    (steps.foldl (Settling.runStep netlist) settling).firings = settling.firings := by
  induction steps with
  | nil => exact fun _ => rfl
  | cons step steps ih => exact fun settling => (ih _).trans (runStep_eq netlist settling step).2

theorem firings_runBlock (netlist : Netlist) (schedule : Schedule) (firing : Firing)
    (settling : Settling) : (settling.runBlock netlist schedule firing).firings =
      settling.firings ++ [firing] := by
  rw [runBlock]
  refine (foldl_decrement_eq _ id (fun _ => 0) _).2.trans ?_
  exact firings_runStep_foldl netlist _ _

theorem firings_next (hnext : settling.next = some (firing, after)) :
    after.firings = settling.firings := by
  unfold next at hnext
  split at hnext
  · obtain ⟨-, rfl⟩ := Prod.mk.inj (Option.some.inj hnext)
    rfl
  · obtain ⟨_, -, heq⟩ := Option.map_eq_some_iff.mp hnext
    obtain ⟨-, rfl⟩ := Prod.mk.inj heq
    rfl

theorem advance_succ (hnext : settling.next = some (firing, after)) (turns : Nat) :
    settling.advance netlist schedule (turns + 1) =
      (after.runBlock netlist schedule firing).advance netlist schedule turns := by
  rw [Settling.advance, hnext]

theorem executed_turn (hnext : settling.next = some (firing, after)) :
    (after.runBlock netlist schedule firing).executed = settling.executed ++ [firing.block] := by
  rw [executed, firings_runBlock, firings_next hnext, List.map_append, executed]
  rfl

/-- What ran stays at the front of the list of firings. -/
theorem firings_prefix (netlist : Netlist) (schedule : Schedule) (turns : Nat) :
    ∀ settling : Settling, ∃ later,
      (settling.advance netlist schedule turns).firings = settling.firings ++ later := by
  induction turns with
  | zero => exact fun settling => ⟨[], (List.append_nil _).symm⟩
  | succ turns ih =>
    intro settling
    cases hnext : settling.next with
    | none => exact ⟨[], by rw [advance_of_next_eq_none hnext, List.append_nil]⟩
    | some found =>
      obtain ⟨firing, after⟩ := found
      obtain ⟨later, hlater⟩ := ih (after.runBlock netlist schedule firing)
      rw [firings_runBlock, firings_next hnext, List.append_assoc] at hlater
      exact ⟨[firing] ++ later, by rw [advance_succ hnext, hlater]⟩

/-- Each firing was chosen in the turn of its place. -/
theorem next_of_firing (turns : Nat) : ∀ {turn : Nat} {settling : Settling},
    (settling.advance netlist schedule turns).firings[settling.firings.length + turn]? =
        some firing →
      turn < turns ∧ ∃ after,
        (settling.advance netlist schedule turn).next = some (firing, after) := by
  have hbehind : ∀ {settling : Settling} {turn : Nat},
      settling.firings[settling.firings.length + turn]? ≠ some firing := by
    intro settling turn h
    rw [List.getElem?_eq_none (Nat.le_add_right _ _)] at h
    cases h
  induction turns with
  | zero => exact fun h => absurd h hbehind
  | succ turns ih =>
    intro turn settling h
    cases hnext : settling.next with
    | none =>
      rw [advance_of_next_eq_none hnext] at h
      exact absurd h hbehind
    | some found =>
      obtain ⟨chosen, after⟩ := found
      have hran : (after.runBlock netlist schedule chosen).firings =
          settling.firings ++ [chosen] := by
        rw [firings_runBlock, firings_next hnext]
      rw [advance_succ hnext] at h
      cases turn with
      | zero =>
        obtain ⟨later, hlater⟩ :=
          firings_prefix netlist schedule turns (after.runBlock netlist schedule chosen)
        rw [hlater, hran] at h
        have hsame : chosen = firing := by simpa using h
        exact ⟨Nat.succ_pos turns, after, hsame ▸ hnext⟩
      | succ turn =>
        have hplace : (after.runBlock netlist schedule chosen).firings.length + turn =
            settling.firings.length + (turn + 1) := by
          rw [hran, List.length_append, List.length_singleton]
          omega
        rw [← hplace] at h
        obtain ⟨hlt, hchosen⟩ := ih h
        rw [advance_succ hnext]
        exact ⟨Nat.succ_lt_succ hlt, hchosen⟩

theorem Tallied.advance (turns : Nat) : ∀ {settling : Settling},
    Tallied netlist schedule initial (schedule.trace settling.executed) settling →
      Tallied netlist schedule initial
        (schedule.trace (settling.advance netlist schedule turns).executed)
        (settling.advance netlist schedule turns) := by
  induction turns with
  | zero => exact fun h => h
  | succ turns ih =>
    intro settling h
    cases hnext : settling.next with
    | none => rwa [advance_of_next_eq_none hnext]
    | some found =>
      obtain ⟨firing, after⟩ := found
      obtain ⟨hbound, -, hafter⟩ := h.next hnext
      rw [advance_succ hnext]
      refine ih ?_
      rw [executed_turn hnext, Schedule.trace, List.flatMap_append, List.flatMap_singleton]
      exact hafter.runBlock hbound

/-! ## Forced blocks -/

/-- A block that has not run and waits for no other block to finish. -/
def Waits (settling : Settling) (block : Nat) : Prop :=
  ∃ progress, settling.progress[block]? = some progress ∧ progress.executed = false ∧
    progress.remaining.head? = some 0

/-- With an empty queue the first such block is forced. -/
theorem least_of_forced (hnext : settling.next = some (firing, after))
    (hforced : firing.forced = true) :
    settling.queue = [] ∧ settling.Waits firing.block ∧
      ∀ other < firing.block, ¬ settling.Waits other := by
  cases hqueue : settling.queue with
  | cons block queue =>
    simp only [next, hqueue, Option.some.injEq, Prod.mk.injEq] at hnext
    obtain ⟨rfl, rfl⟩ := hnext
    cases hforced
  | nil =>
    simp only [next, hqueue, Option.map_eq_some_iff, Prod.mk.injEq] at hnext
    obtain ⟨block, hfind, rfl, rfl⟩ := hnext
    obtain ⟨hlt, hfound, hfirst⟩ := List.findIdx?_eq_some_iff_getElem.mp hfind
    simp only [Bool.and_eq_true, Bool.not_eq_true', decide_eq_true_eq] at hfound hfirst
    refine ⟨rfl, ⟨_, List.getElem?_eq_getElem hlt, hfound⟩, fun other hother hwaits => ?_⟩
    obtain ⟨progress, hprogress, hopen⟩ := hwaits
    obtain ⟨_, rfl⟩ := List.getElem?_eq_some_iff.mp hprogress
    exact hfirst other hother hopen

end Settling

namespace Netlist

variable {netlist : Netlist} {state : State} {firing : Firing}

/-- A settle after a number of turns. -/
def turned (netlist : Netlist) (state : State) (turn : Nat) : Settling :=
  (Settling.start netlist (compile netlist) state).advance netlist (compile netlist) turn

theorem exists_turn {turn : Nat}
    (h : (settle netlist (compile netlist) state).2[turn]? = some firing) :
    turn < (compile netlist).blocks.length ∧
      ∃ after, (netlist.turned state turn).next = some (firing, after) := by
  refine Settling.next_of_firing (compile netlist).blocks.length ?_
  rw [show (Settling.start netlist (compile netlist) state).firings.length = 0 from rfl,
    Nat.zero_add]
  exact h

/-- A block that was not forced had each of its counters brought down before it ran. -/
theorem lowered_of_queued (hfiring : firing ∈ (settle netlist (compile netlist) state).2)
    (hqueued : firing.forced = false) {counter count : Nat} (hne : counter ≠ 0)
    (hcount : ((compile netlist).blocks.getD firing.block default).initial[counter]? =
      some (count + 1)) :
    ∃ left task right later, netlist.trace state =
        left ++ task :: right ++ ((compile netlist).tasksOf firing.block ++ later) ∧
      Settling.Lowers netlist (compile netlist) (Settling.start netlist (compile netlist) state).state
        left task firing.block counter := by
  obtain ⟨turn, hturn⟩ := List.getElem?_of_mem hfiring
  obtain ⟨hlt, after, hnext⟩ := exists_turn hturn
  have htallied : Settling.Tallied netlist (compile netlist)
      (Settling.start netlist (compile netlist) state).state
      ((compile netlist).trace (netlist.turned state turn).executed) (netlist.turned state turn) :=
    Settling.Tallied.advance turn (Settling.Tallied.start netlist (compile netlist) state)
  obtain ⟨hbound, hzero, -⟩ := htallied.next hnext
  have hexecuted : ∃ later, netlist.executed state =
      (netlist.turned state turn).executed ++ [firing.block] ++ later := by
    obtain ⟨more, hmore⟩ : ∃ more, (compile netlist).blocks.length = turn + (more + 1) :=
      ⟨(compile netlist).blocks.length - turn - 1, by omega⟩
    have hdone : netlist.settled state =
        (after.runBlock netlist (compile netlist) firing).advance netlist (compile netlist) more := by
      rw [settled, hmore, Settling.advance_add, ← Settling.advance_succ hnext]
      rfl
    obtain ⟨later, hlater⟩ := Settling.firings_prefix netlist (compile netlist) more
      (after.runBlock netlist (compile netlist) firing)
    refine ⟨later.map (·.block), ?_⟩
    rw [executed_eq, hdone, Settling.executed, hlater, List.map_append, ← Settling.executed,
      Settling.executed_turn hnext]
  obtain ⟨later, hlater⟩ := hexecuted
  rcases htallied.counter firing.block hbound counter hne with hsame | hlowered
  · rw [hcount] at hsame
    have hnone := hzero hqueued _ (List.mem_of_getElem? hsame)
    cases hnone
  · obtain ⟨left, task, right, htasks, hlowers⟩ := hlowered
    refine ⟨left, task, right, (compile netlist).trace later, ?_, hlowers⟩
    rw [← htasks, trace, hlater, Schedule.trace, Schedule.trace, Schedule.trace,
      List.flatMap_append, List.flatMap_append, List.flatMap_singleton, List.append_assoc]

end Netlist

end Breadboard
