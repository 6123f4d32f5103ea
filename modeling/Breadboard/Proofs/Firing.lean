import Breadboard.Proofs.Blocks
import Breadboard.Proofs.Graph
import Breadboard.Simulation.Settle
import Mathlib.Data.Nat.Find

/-!
# Every block fires once

A settle is a queue of blocks and their counters. `Counting` ties counter 0 of
every block to a number it should be at, and is kept by every decrement:
decrements of other counters do not touch it, and each successor of a finished
block comes down by one. `Fired` is the invariant between two turns: counter 0
of a block is the number of its predecessors that have not run, and all
predecessors of a block that ran stand before it.

As predecessors have smaller numbers, the first block that has not run waits
for nothing but a dynamic node, so a turn always finds a block
(`Fired.next_isSome`). As many turns as there are blocks therefore run each
once (`fired_advance`), after which the settle has nothing left to do
(`Fired.next_eq_none`).
-/

namespace Breadboard

/-! ## The trace of a settle -/

namespace Schedule

/-- The tasks of a block. -/
def tasksOf (schedule : Schedule) (block : Nat) : List Task :=
  (schedule.blocks.getD block default).steps.map (·.task)

/-- The tasks of some blocks, in the order in which these ran. -/
def trace (schedule : Schedule) (executed : List Nat) : List Task :=
  executed.flatMap schedule.tasksOf

end Schedule

namespace Settling

variable {netlist : Netlist} {schedule : Schedule} {predecessors : Nat → List Nat}
  {settling after : Settling} {initial : State} {firing : Firing} {waiting : Nat → Nat}
  {ran : List Nat} {block counter : Nat}

def executed (settling : Settling) : List Nat :=
  settling.firings.map (·.block)

def entry (settling : Settling) (block : Nat) : Progress :=
  settling.progress.getD block default

theorem entry_eq_getElem (h : block < settling.progress.length) :
    settling.entry block = settling.progress[block] := by
  rw [entry, List.getD_eq_getElem?_getD, List.getElem?_eq_getElem h]
  rfl

/-! ## Decrements -/

@[simp] theorem state_decrement : (settling.decrement block counter).state = settling.state := rfl

@[simp] theorem firings_decrement :
    (settling.decrement block counter).firings = settling.firings := rfl

theorem entry_decrement {other : Nat} (hother : other < settling.progress.length) :
    (settling.decrement block counter).entry other =
      if block = other then
        { settling.entry other with
          remaining := (settling.entry other).remaining.modify counter (· - 1) }
      else settling.entry other := by
  by_cases h : block = other <;> simp [decrement, entry, List.getD_eq_getElem?_getD, hother, h]

/-- A decrement queues at most its own block, and only if that is due. -/
theorem queue_decrement (settling : Settling) (block counter : Nat) :
    (settling.decrement block counter).queue = settling.queue ∨
      (settling.decrement block counter).queue = settling.queue ++ [block] ∧
        block ∉ settling.queue ∧ block < settling.progress.length ∧
        ((settling.decrement block counter).entry block).isDue = true := by
  unfold decrement
  dsimp only
  split
  · next hdue =>
    simp only [Bool.and_eq_true, decide_eq_true_eq, Option.any_eq_true] at hdue
    obtain ⟨⟨progress, hprogress, hisDue⟩, hfresh⟩ := hdue
    refine Or.inr ⟨rfl, hfresh, ?_, ?_⟩
    · simpa using (List.getElem?_eq_some_iff.mp hprogress).1
    · rw [entry, List.getD_eq_getElem?_getD, hprogress]
      exact hisDue
  · exact Or.inl rfl

/-- Counter 0 of every block stands at a given number. Only blocks that may run
are queued. -/
structure Counting (size : Nat) (waiting : Nat → Nat) (ran : List Nat)
    (settling : Settling) : Prop where
  length : settling.progress.length = size
  head : ∀ block < size, (settling.entry block).remaining.head? = some (waiting block)
  marked : ∀ block < size, (settling.entry block).executed = true ↔ block ∈ ran
  queue : ∀ block ∈ settling.queue, block < size ∧ block ∉ ran ∧ waiting block = 0
  nodup : settling.queue.Nodup

theorem Counting.congr {size : Nat} {other : Nat → Nat} (h : Counting size waiting ran settling)
    (hsame : ∀ block < size, waiting block = other block) : Counting size other ran settling := by
  refine ⟨h.length, ?_, h.marked, ?_, h.nodup⟩
  · intro block hblock
    rw [← hsame block hblock]
    exact h.head block hblock
  · intro block hblock
    obtain ⟨hlt, hfresh, hzero⟩ := h.queue block hblock
    exact ⟨hlt, hfresh, hsame block hlt ▸ hzero⟩

theorem head?_modify (list : List Nat) (counter : Nat) :
    (list.modify counter (· - 1)).head? =
      list.head?.map fun head => if counter = 0 then head - 1 else head := by
  cases list with
  | nil => cases counter <;> rfl
  | cons head rest => cases counter <;> simp

theorem head_eq_zero {progress : Progress} {head : Nat} (hdue : progress.isDue = true)
    (hhead : progress.remaining.head? = some head) : head = 0 := by
  simp only [Progress.isDue, Bool.and_eq_true, List.all_eq_true, decide_eq_true_eq] at hdue
  exact hdue.2 head (List.mem_of_mem_head? hhead)

theorem Counting.decrement {size : Nat} (h : Counting size waiting ran settling)
    (block counter : Nat) :
    Counting size (fun other => if other = block ∧ counter = 0 then waiting other - 1
      else waiting other) ran (settling.decrement block counter) := by
  have hhead : ∀ other < size, ((settling.decrement block counter).entry other).remaining.head? =
      some (if other = block ∧ counter = 0 then waiting other - 1 else waiting other) := by
    intro other hother
    rw [entry_decrement (h.length ▸ hother)]
    by_cases hblock : block = other
    · by_cases hcounter : counter = 0 <;>
        simp [hblock, hcounter, head?_modify, h.head other hother]
    · simp [hblock, Ne.symm hblock, h.head other hother]
  have hmarked : ∀ other < size,
      (((settling.decrement block counter).entry other).executed = true ↔ other ∈ ran) := by
    intro other hother
    rw [entry_decrement (h.length ▸ hother), ← h.marked other hother]
    split <;> rfl
  have hkeep : ∀ other ∈ settling.queue, other < size ∧ other ∉ ran ∧
      (if other = block ∧ counter = 0 then waiting other - 1 else waiting other) = 0 := by
    intro other hother
    obtain ⟨hlt, hfresh, hzero⟩ := h.queue other hother
    refine ⟨hlt, hfresh, ?_⟩
    split <;> omega
  refine ⟨by simp [Settling.decrement, h.length], hhead, hmarked, ?_, ?_⟩
  · rcases queue_decrement settling block counter
      with hqueue | ⟨hqueue, -, hlt, hdue⟩
    · rw [hqueue]
      exact hkeep
    · rw [hqueue]
      intro other hother
      rcases List.mem_append.mp hother with hother | hother
      · exact hkeep other hother
      · obtain rfl := List.mem_singleton.mp hother
        rw [h.length] at hlt
        refine ⟨hlt, ?_, head_eq_zero hdue (hhead other hlt)⟩
        rw [← hmarked other hlt]
        simp only [Progress.isDue, Bool.and_eq_true, Bool.not_eq_true'] at hdue
        rw [hdue.1]
        exact Bool.false_ne_true
  · rcases queue_decrement settling block counter
      with hqueue | ⟨hqueue, hfresh, -, -⟩
    · rw [hqueue]
      exact h.nodup
    · rw [hqueue]
      exact List.nodup_append.mpr ⟨h.nodup, List.nodup_singleton _,
        fun a ha b hb heq => hfresh (by rwa [heq, List.mem_singleton.mp hb] at ha)⟩

/-- The dynamic counters are none of counter 0. -/
theorem Counting.foldl_dynamic {size : Nat} {targets : List Decrement} :
    ∀ {settling : Settling}, Counting size waiting ran settling →
      (∀ target ∈ targets, target.counter ≠ 0) →
      Counting size waiting ran (targets.foldl
        (fun settling target => settling.decrement target.block target.counter) settling) := by
  induction targets with
  | nil => exact fun h _ => h
  | cons target targets ih =>
    intro settling h hne
    refine ih ?_ fun other hother => hne other (List.mem_cons_of_mem _ hother)
    have hstep := h.decrement target.block target.counter
    simpa [hne target (List.mem_cons_self ..)] using hstep

/-- Every block named once comes down by one. -/
theorem Counting.foldl_successors {size : Nat} {blocks : List Nat} :
    ∀ {waiting : Nat → Nat} {settling : Settling}, Counting size waiting ran settling →
      blocks.Nodup →
      Counting size (fun other => if other ∈ blocks then waiting other - 1 else waiting other)
        ran (blocks.foldl (fun settling next => settling.decrement next 0) settling) := by
  induction blocks with
  | nil =>
    intro waiting settling h _
    simpa using h
  | cons block blocks ih =>
    intro waiting settling h hnodup
    obtain ⟨hfresh, hnodup⟩ := List.nodup_cons.mp hnodup
    have hrest := ih (h.decrement block 0) hnodup
    have hsame : (fun other => if other ∈ block :: blocks then waiting other - 1
        else waiting other) = fun other => if other ∈ blocks then
          (if other = block ∧ 0 = 0 then waiting other - 1 else waiting other) - 1
        else if other = block ∧ 0 = 0 then waiting other - 1 else waiting other := by
      funext other
      by_cases hblock : other = block
      · subst hblock
        simp [hfresh]
      · simp [hblock]
    rw [hsame]
    exact hrest

/-- A block that starts is marked, and is queued no more. -/
theorem Counting.mark {size : Nat} (h : Counting size waiting ran settling)
    (hqueue : block ∉ settling.queue) (firings : List Firing) :
    Counting size waiting (ran ++ [block])
      { settling with
        progress := settling.progress.modify block fun progress =>
          { progress with executed := true }
        firings } := by
  have hentry : ∀ other < size, (settling.progress.modify block fun progress =>
      { progress with executed := true }).getD other default =
        if block = other then { settling.entry other with executed := true }
        else settling.entry other := by
    intro other hother
    rw [← h.length] at hother
    by_cases heq : block = other <;> simp [entry, List.getD_eq_getElem?_getD, hother, heq]
  refine ⟨by simp [h.length], ?_, ?_, ?_, h.nodup⟩
  · intro other hother
    rw [entry, hentry other hother, ← h.head other hother]
    split <;> rfl
  · intro other hother
    rw [entry, hentry other hother, List.mem_append, List.mem_singleton]
    by_cases heq : block = other
    · simp [heq]
    · rw [if_neg heq, h.marked other hother]
      exact ⟨Or.inl, fun hmem => hmem.resolve_right (Ne.symm heq)⟩
  · intro other hother
    obtain ⟨hlt, hfresh, hzero⟩ := h.queue other hother
    refine ⟨hlt, ?_, hzero⟩
    rw [List.mem_append, List.mem_singleton]
    rintro (hmem | rfl)
    · exact hfresh hmem
    · exact hqueue hother

/-! ## Steps -/

theorem foldl_decrement_eq {α : Type} (targets : List α) (block counter : α → Nat) :
    ∀ settling : Settling,
      (targets.foldl (fun settling target => settling.decrement (block target) (counter target))
        settling).state = settling.state ∧
      (targets.foldl (fun settling target => settling.decrement (block target) (counter target))
        settling).firings = settling.firings := by
  induction targets with
  | nil => exact fun _ => ⟨rfl, rfl⟩
  | cons target targets ih => exact fun settling => ih _

theorem Counting.withState {size : Nat} (h : Counting size waiting ran settling) (state : State) :
    Counting size waiting ran { settling with state } :=
  ⟨h.length, h.head, h.marked, h.queue, h.nodup⟩

theorem Counting.runStep {size : Nat} {step : Step} (h : Counting size waiting ran settling)
    (netlist : Netlist) (hstep : ∀ target ∈ step.decrements, target.counter ≠ 0) :
    Counting size waiting ran (settling.runStep netlist step) := by
  refine (h.withState _).foldl_dynamic fun target htarget => hstep target ?_
  exact (List.mem_filter.mp htarget).1

theorem runStep_eq (netlist : Netlist) (settling : Settling) (step : Step) :
    (settling.runStep netlist step).state = settling.state.perform netlist step.task ∧
      (settling.runStep netlist step).firings = settling.firings :=
  foldl_decrement_eq _ Decrement.block Decrement.counter _

/-- The steps of a block do their work and leave counter 0 of every block alone. -/
theorem Counting.foldl_steps {size : Nat} {steps : List Step} (netlist : Netlist) :
    ∀ {settling : Settling}, Counting size waiting ran settling →
      (∀ step ∈ steps, ∀ target ∈ step.decrements, target.counter ≠ 0) →
      Counting size waiting ran (steps.foldl (Settling.runStep netlist) settling) ∧
        (steps.foldl (Settling.runStep netlist) settling).state =
          (steps.map (·.task)).foldl (State.perform netlist) settling.state ∧
        (steps.foldl (Settling.runStep netlist) settling).firings = settling.firings := by
  induction steps with
  | nil => exact fun h _ => ⟨h, rfl, rfl⟩
  | cons step steps ih =>
    intro settling h hne
    obtain ⟨hcounting, hstate, hfirings⟩ :=
      ih (h.runStep netlist (hne step (List.mem_cons_self ..)))
        fun other hother => hne other (List.mem_cons_of_mem _ hother)
    obtain ⟨hstep, hkeep⟩ := runStep_eq netlist settling step
    refine ⟨hcounting, ?_, hfirings.trans hkeep⟩
    rw [List.foldl_cons, hstate, hstep, List.map_cons, List.foldl_cons]

/-! ## Turns -/

structure Fired (netlist : Netlist) (schedule : Schedule) (predecessors : Nat → List Nat)
    (initial : State) (settling : Settling) : Prop where
  counting : Counting schedule.blocks.length
    (fun block => ((predecessors block).filter (· ∉ settling.executed)).length)
    settling.executed settling
  nodup : settling.executed.Nodup
  bound : ∀ block ∈ settling.executed, block < schedule.blocks.length
  waited : ∀ block ∈ settling.executed, ∀ other ∈ predecessors block,
    Before settling.executed other block
  state : settling.state =
    (schedule.trace settling.executed).foldl (State.perform netlist) initial

theorem length_filter_append {list : List Nat} (hnodup : list.Nodup) (hfresh : block ∉ ran) :
    (list.filter (· ∉ ran ++ [block])).length =
      if block ∈ list then (list.filter (· ∉ ran)).length - 1
      else (list.filter (· ∉ ran)).length := by
  have hfilter : list.filter (· ∉ ran ++ [block]) = (list.filter (· ∉ ran)).erase block := by
    rw [(hnodup.filter _).erase_eq_filter, List.filter_filter]
    refine List.filter_congr fun other _ => ?_
    simp [bne, beq_eq_decide, and_comm]
  rw [hfilter, List.length_erase]
  simp [hfresh]

/-- Running a block whose predecessors have all run. -/
theorem Fired.runBlock (firing : Firing) (hlayered : Layered schedule.blocks predecessors)
    (h : Fired netlist schedule predecessors initial settling)
    (hbound : firing.block < schedule.blocks.length) (hfresh : firing.block ∉ settling.executed)
    (hready : ∀ other ∈ predecessors firing.block, other ∈ settling.executed)
    (hqueue : firing.block ∉ settling.queue) :
    Fired netlist schedule predecessors initial (settling.runBlock netlist schedule firing) ∧
      (settling.runBlock netlist schedule firing).executed =
        settling.executed ++ [firing.block] := by
  have hmark := h.counting.mark hqueue (settling.firings ++ [firing])
  obtain ⟨hsteps, hstate, hfirings⟩ := hmark.foldl_steps netlist
    (hlayered.decrements firing.block)
  have hdone := hsteps.foldl_successors (hlayered.successors_nodup firing.block)
  obtain ⟨hstate', hfirings'⟩ := foldl_decrement_eq
    (schedule.blocks.getD firing.block default).successors id (fun _ => 0)
    ((schedule.blocks.getD firing.block default).steps.foldl (Settling.runStep netlist)
      { settling with
        progress := settling.progress.modify firing.block fun progress =>
          { progress with executed := true }
        firings := settling.firings ++ [firing] })
  have hexecuted : (settling.runBlock netlist schedule firing).executed =
      settling.executed ++ [firing.block] := by
    rw [executed, executed, ← List.map_singleton (f := Firing.block), ← List.map_append]
    exact congrArg _ (hfirings'.trans hfirings)
  refine ⟨⟨?_, ?_, ?_, ?_, ?_⟩, hexecuted⟩
  · rw [hexecuted]
    refine hdone.congr fun other hother => ?_
    rw [length_filter_append (hlayered.nodup other) hfresh]
    simp only [hlayered.mem_successors firing.block hbound other, hother, true_and]
  · rw [hexecuted]
    exact List.nodup_append.mpr ⟨h.nodup, List.nodup_singleton _,
      fun a ha b hb heq => hfresh (by rwa [heq, List.mem_singleton.mp hb] at ha)⟩
  · rw [hexecuted]
    intro block hblock
    rcases List.mem_append.mp hblock with hblock | hblock
    · exact h.bound block hblock
    · rwa [List.mem_singleton.mp hblock]
  · rw [hexecuted]
    intro block hblock other hother
    rcases List.mem_append.mp hblock with hblock | hblock
    · exact (h.waited block hblock other hother).trans_sublist (List.sublist_append_left ..)
    · obtain rfl := List.mem_singleton.mp hblock
      exact Before.of_mem_left (hready other hother)
  · rw [hexecuted, Schedule.trace, List.flatMap_append, List.foldl_append, ← Schedule.trace,
      ← h.state, List.flatMap_singleton]
    exact hstate'.trans hstate

/-! ## The next block -/

/-- The block chosen next is one that may run, and it leaves the queue. -/
theorem Fired.next (hlayered : Layered schedule.blocks predecessors)
    (h : Fired netlist schedule predecessors initial settling)
    (hnext : settling.next = some (firing, after)) :
    Fired netlist schedule predecessors initial (after.runBlock netlist schedule firing) ∧
      (after.runBlock netlist schedule firing).executed =
        settling.executed ++ [firing.block] := by
  have hready : ∀ block < schedule.blocks.length,
      ((predecessors block).filter (· ∉ settling.executed)).length = 0 →
        ∀ other ∈ predecessors block, other ∈ settling.executed := by
    intro block _ hzero other hother
    have := List.filter_eq_nil_iff.mp (List.eq_nil_of_length_eq_zero hzero) other hother
    simpa using this
  cases hqueue : settling.queue with
  | cons block queue =>
    simp only [Settling.next, hqueue, Option.some.injEq, Prod.mk.injEq] at hnext
    obtain ⟨rfl, rfl⟩ := hnext
    have hmem : block ∈ settling.queue := by simp [hqueue]
    obtain ⟨hlt, hfresh, hzero⟩ := h.counting.queue block hmem
    have hnodup := h.counting.nodup
    rw [hqueue] at hnodup
    have hafter : Fired netlist schedule predecessors initial { settling with queue } := by
      refine ⟨⟨h.counting.length, h.counting.head, h.counting.marked, ?_,
        (List.nodup_cons.mp hnodup).2⟩, h.nodup, h.bound, h.waited, h.state⟩
      intro other hother
      exact h.counting.queue other (by rw [hqueue]; exact List.mem_cons_of_mem _ hother)
    exact hafter.runBlock ⟨block, false⟩ hlayered hlt hfresh
      (hready block hlt hzero) (List.nodup_cons.mp hnodup).1
  | nil =>
    simp only [Settling.next, hqueue, Option.map_eq_some_iff, Prod.mk.injEq] at hnext
    obtain ⟨block, hfind, rfl, rfl⟩ := hnext
    obtain ⟨hlt, hfound, -⟩ := List.findIdx?_eq_some_iff_getElem.mp hfind
    simp only [Bool.and_eq_true, Bool.not_eq_true', decide_eq_true_eq] at hfound
    have hbound : block < schedule.blocks.length := h.counting.length ▸ hlt
    rw [← entry_eq_getElem hlt] at hfound
    have hzero := Option.some.inj ((h.counting.head block hbound).symm.trans hfound.2)
    refine h.runBlock ⟨block, true⟩ hlayered hbound ?_ (hready block hbound hzero) ?_
    · rw [← h.counting.marked block hbound, hfound.1]
      exact Bool.false_ne_true
    · simp [hqueue]

/-- While blocks are left, one of them may run: the first one is never stuck. -/
theorem Fired.next_isSome (hlayered : Layered schedule.blocks predecessors)
    (h : Fired netlist schedule predecessors initial settling)
    (hleft : settling.executed.length < schedule.blocks.length) :
    settling.next.isSome = true := by
  have hexists := exists_lt_not_mem hleft
  obtain ⟨hbound, hfresh⟩ := Nat.find_spec hexists
  have hready : (predecessors (Nat.find hexists)).filter (· ∉ settling.executed) = [] := by
    refine List.filter_eq_nil_iff.mpr fun other hother => ?_
    have hlower := hlayered.lower _ other hother
    have hmin := Nat.find_min hexists hlower
    simpa using fun hmem => hmin ⟨by omega, hmem⟩
  cases hqueue : settling.queue with
  | cons block queue => simp [Settling.next, hqueue]
  | nil =>
    simp only [Settling.next, hqueue, Option.isSome_map, List.findIdx?_isSome, List.any_eq_true]
    have hlt : Nat.find hexists < settling.progress.length := by
      rw [h.counting.length]
      exact hbound
    refine ⟨settling.progress[Nat.find hexists], List.getElem_mem hlt, ?_⟩
    have hhead := h.counting.head _ hbound
    have hmarked := mt (h.counting.marked _ hbound).mp hfresh
    rw [hready] at hhead
    rw [entry_eq_getElem hlt] at hhead hmarked
    simp [hhead, hmarked]

theorem Fired.executed_perm (h : Fired netlist schedule predecessors initial settling)
    (hdone : settling.executed.length = schedule.blocks.length) :
    settling.executed.Perm (List.range schedule.blocks.length) :=
  perm_range h.nodup h.bound hdone

/-- With every block run nothing is left to do. -/
theorem Fired.next_eq_none (h : Fired netlist schedule predecessors initial settling)
    (hdone : settling.executed.length = schedule.blocks.length) : settling.next = none := by
  have hall : ∀ block < schedule.blocks.length, block ∈ settling.executed := fun block hblock =>
    (h.executed_perm hdone).mem_iff.mpr (List.mem_range.mpr hblock)
  cases hqueue : settling.queue with
  | cons block queue =>
    obtain ⟨hlt, hfresh, -⟩ := h.counting.queue block (by simp [hqueue])
    exact absurd (hall block hlt) hfresh
  | nil =>
    simp only [Settling.next, hqueue, Option.map_eq_none_iff, List.findIdx?_eq_none_iff]
    intro progress hprogress
    obtain ⟨block, hlt, rfl⟩ := List.getElem_of_mem hprogress
    have hbound : block < schedule.blocks.length := h.counting.length ▸ hlt
    rw [← entry_eq_getElem hlt, (h.counting.marked block hbound).mpr (hall block hbound)]
    rfl

/-! ## The whole run -/

theorem Fired.start (netlist : Netlist) (hlayered : Layered schedule.blocks predecessors)
    (state : State) :
    Fired netlist schedule predecessors (Settling.start netlist schedule state).state
      (Settling.start netlist schedule state) := by
  have hentry : ∀ block < schedule.blocks.length,
      (Settling.start netlist schedule state).entry block =
        { remaining := (schedule.blocks.getD block default).initial } := by
    intro block hblock
    simp [Settling.start, entry, List.getD_eq_getElem?_getD, hblock]
  have hhead : ∀ block < schedule.blocks.length,
      ((Settling.start netlist schedule state).entry block).remaining.head? =
        some ((predecessors block).filter (· ∉ ([] : List Nat))).length := by
    intro block hblock
    rw [hentry block hblock, hlayered.counter block hblock]
    simp
  refine ⟨⟨by simp [Settling.start], hhead, ?_, ?_, List.nodup_range.filter _⟩, List.nodup_nil,
    by simp [Settling.start, executed], by simp [Settling.start, executed], rfl⟩
  · intro block hblock
    rw [hentry block hblock]
    simp [Settling.start, executed]
  · intro block hblock
    obtain ⟨hlt, hdue⟩ := List.mem_filter.mp hblock
    have hbound : block < schedule.blocks.length := by simpa using hlt
    refine ⟨hbound, by simp [Settling.start, executed], ?_⟩
    refine head_eq_zero ?_ (hhead block hbound)
    obtain ⟨progress, hprogress, hisDue⟩ := (Option.any_eq_true _ _).mp hdue
    rw [entry, List.getD_eq_getElem?_getD]
    exact (congrArg (fun found => (found.getD default).isDue) hprogress).trans hisDue

theorem Fired.advance (hlayered : Layered schedule.blocks predecessors) (turns : Nat) :
    ∀ {settling : Settling}, Fired netlist schedule predecessors initial settling →
      settling.executed.length + turns ≤ schedule.blocks.length →
      Fired netlist schedule predecessors initial (settling.advance netlist schedule turns) ∧
        (settling.advance netlist schedule turns).executed.length =
          settling.executed.length + turns := by
  induction turns with
  | zero => exact fun h _ => ⟨h, rfl⟩
  | succ turns ih =>
    intro settling h hroom
    obtain ⟨⟨firing, after⟩, hnext⟩ :=
      Option.isSome_iff_exists.mp (h.next_isSome hlayered (by omega))
    obtain ⟨hrun, hexecuted⟩ := h.next hlayered hnext
    have hlength : (after.runBlock netlist schedule firing).executed.length =
        settling.executed.length + 1 := by
      rw [hexecuted, List.length_append, List.length_singleton]
    obtain ⟨hresult, hcount⟩ := ih hrun (by omega)
    have hunfold : settling.advance netlist schedule (turns + 1) =
        (after.runBlock netlist schedule firing).advance netlist schedule turns := by
      rw [Settling.advance, hnext]
    rw [hunfold]
    exact ⟨hresult, by omega⟩

theorem advance_of_next_eq_none (h : settling.next = none) (turns : Nat) :
    settling.advance netlist schedule turns = settling := by
  cases turns with
  | zero => rfl
  | succ turns => simp [Settling.advance, h]

theorem advance_add (turns more : Nat) : ∀ settling : Settling,
    settling.advance netlist schedule (turns + more) =
      (settling.advance netlist schedule turns).advance netlist schedule more := by
  induction turns with
  | zero =>
    intro settling
    rw [Nat.zero_add]
    rfl
  | succ turns ih =>
    intro settling
    cases hnext : settling.next with
    | none => simp only [advance_of_next_eq_none hnext]
    | some found => simp [Nat.add_right_comm, Settling.advance, hnext, ih]

end Settling

/-! ## Compiled schedules -/

namespace Netlist

variable {netlist : Netlist} {state : State} {first second : Task}

/-- The end of a settle of a netlist. -/
def settled (netlist : Netlist) (state : State) : Settling :=
  (Settling.start netlist (compile netlist) state).advance netlist (compile netlist)
    (compile netlist).blocks.length

/-- The blocks as they run in a settle of a netlist. -/
def executed (netlist : Netlist) (state : State) : List Nat :=
  (settle netlist (compile netlist) state).2.map (·.block)

/-- The tasks as they run in a settle of a netlist. -/
def trace (netlist : Netlist) (state : State) : List Task :=
  (compile netlist).trace (netlist.executed state)

theorem layered_compile (netlist : Netlist) : Layered (compile netlist).blocks
    ((Graph.ofNetlist netlist).place.predecessors (Graph.ofNetlist netlist)) :=
  Placement.layered_blocks (Graph.sound_place (Graph.closed_ofNetlist netlist)).1

theorem settle_eq (netlist : Netlist) (state : State) :
    settle netlist (compile netlist) state =
      ((netlist.settled state).state, (netlist.settled state).firings) := rfl

theorem executed_eq (netlist : Netlist) (state : State) :
    netlist.executed state = (netlist.settled state).executed := by
  rw [executed, settle_eq, Settling.executed]

theorem trace_eq (netlist : Netlist) (state : State) : netlist.trace state =
    (netlist.executed state).flatMap (compile netlist).tasksOf := rfl

theorem fired_settled (netlist : Netlist) (state : State) :
    Settling.Fired netlist (compile netlist)
      ((Graph.ofNetlist netlist).place.predecessors (Graph.ofNetlist netlist))
      (Settling.start netlist (compile netlist) state).state (netlist.settled state) ∧
      (netlist.settled state).executed.length = (compile netlist).blocks.length := by
  have hstart := Settling.Fired.start netlist (layered_compile netlist) state
  have hzero : (Settling.start netlist (compile netlist) state).executed.length = 0 := rfl
  obtain ⟨hfired, hlength⟩ := hstart.advance (layered_compile netlist)
    (compile netlist).blocks.length (by omega)
  rw [hzero, Nat.zero_add] at hlength
  exact ⟨hfired, hlength⟩

theorem tasksOf_compile (block : Nat) : (compile netlist).tasksOf block =
    if block < (compile netlist).blocks.length then
      ((Graph.ofNetlist netlist).place.members block).map (Graph.ofNetlist netlist).task
    else [] := by
  have hlength : (compile netlist).blocks.length = (Graph.ofNetlist netlist).place.blockCount :=
    Placement.length_blocks
  have hblocks : (compile netlist).blocks =
    (Graph.ofNetlist netlist).place.blocks (Graph.ofNetlist netlist) := rfl
  rw [Schedule.tasksOf, hlength, hblocks]
  split
  · next h =>
    rw [Placement.blocks_eq h, List.map_map]
    rfl
  · next h =>
    rw [Placement.blocks_eq_default h]
    rfl

theorem executed_perm (netlist : Netlist) (state : State) :
    (netlist.executed state).Perm (List.range (compile netlist).blocks.length) := by
  rw [executed_eq]
  exact (fired_settled netlist state).1.executed_perm (fired_settled netlist state).2

/-- Every task runs, and once. -/
theorem trace_perm (netlist : Netlist) (state : State) :
    (netlist.trace state).Perm netlist.tasks := by
  have hclosed := Graph.closed_ofNetlist netlist
  have hmembers := Placement.flatMap_members_perm (Graph.sound_place hclosed).1
  have horder := Graph.order_place_perm hclosed
  have hcount : (compile netlist).blocks.length = (Graph.ofNetlist netlist).place.blockCount :=
    Placement.length_blocks
  have htasks : (List.range (compile netlist).blocks.length).flatMap (compile netlist).tasksOf =
      ((List.range (Graph.ofNetlist netlist).place.blockCount).flatMap
        (Graph.ofNetlist netlist).place.members).map (Graph.ofNetlist netlist).task := by
    rw [List.map_flatMap, hcount]
    refine List.flatMap_congr fun block hblock => ?_
    rw [tasksOf_compile, hcount, if_pos (List.mem_range.mp hblock)]
  have hblocks := (netlist.executed_perm state).flatMap_right (compile netlist).tasksOf
  rw [htasks, ← trace_eq] at hblocks
  have hall := hblocks.trans ((hmembers.trans horder).map (Graph.ofNetlist netlist).task)
  rw [Graph.map_task_ofNetlist] at hall
  exact hall

theorem trace_nodup (netlist : Netlist) (state : State) : (netlist.trace state).Nodup :=
  (netlist.trace_perm state).nodup_iff.mpr netlist.nodup_tasks

theorem settle_eq_foldl (netlist : Netlist) (state : State) :
    (settle netlist (compile netlist) state).1 =
      (netlist.trace state).foldl (State.perform netlist)
        (Settling.start netlist (compile netlist) state).state := by
  rw [settle_eq, trace, executed_eq]
  exact (fired_settled netlist state).1.state

/-- An edge that the placement honours is honoured by every settle. -/
theorem before_trace {u v : Nat} (hedge : v ∈ (Graph.ofNetlist netlist).plainTargets u)
    (hlt : (Graph.ofNetlist netlist).place.position u <
      (Graph.ofNetlist netlist).place.position v) :
    Before (netlist.trace state) ((Graph.ofNetlist netlist).task u)
      ((Graph.ofNetlist netlist).task v) := by
  have hclosed := Graph.closed_ofNetlist netlist
  have hmem := Graph.mem_plainTargets.mp hedge
  have hsource : u ∈ (Graph.ofNetlist netlist).predecessors .plain v :=
    Graph.mem_predecessors.mpr ⟨Graph.size_ofNetlist ▸ Graph.lt_of_mem_edges hmem, hmem⟩
  have hnode : v ∈ (Graph.ofNetlist netlist).place.order :=
    (Graph.order_place_perm hclosed).mem_iff.mpr (List.mem_range.mpr (hclosed u _ hmem))
  obtain ⟨first, second, hfirst, hsecond, hbound, hcases⟩ :=
    Placement.before_or_mem_predecessors (Graph.sound_place hclosed).1 hnode hsource hlt
  have hcount : (compile netlist).blocks.length = (Graph.ofNetlist netlist).place.blockCount :=
    Placement.length_blocks
  have hran : second ∈ netlist.executed state :=
    (netlist.executed_perm state).mem_iff.mpr (List.mem_range.mpr (hcount ▸ hbound))
  have htasks : ∀ block < (Graph.ofNetlist netlist).place.blockCount,
      (compile netlist).tasksOf block =
        ((Graph.ofNetlist netlist).place.members block).map (Graph.ofNetlist netlist).task := by
    intro block hblock
    rw [tasksOf_compile, if_pos (hcount ▸ hblock)]
  rw [trace_eq]
  rcases hcases with ⟨rfl, hbefore⟩ | hpredecessor
  · refine Before.flatMap_of_mem hran ?_
    rw [htasks first hbound]
    exact hbefore.map _
  · rw [executed_eq] at hran
    have hbefore := (fired_settled netlist state).1.waited second hran first hpredecessor
    rw [← executed_eq] at hbefore
    refine hbefore.flatMap ?_ ?_
    · have hlower : first < second := (layered_compile netlist).lower _ _ hpredecessor
      rw [htasks first (Nat.lt_trans hlower hbound)]
      exact List.mem_map_of_mem hfirst
    · rw [htasks second hbound]
      exact List.mem_map_of_mem hsecond

/-- Without a loop the placement honours every edge. -/
theorem position_lt (hloops : (compile netlist).diagnostics = []) {u v : Nat}
    (hedge : v ∈ (Graph.ofNetlist netlist).plainTargets u) :
    (Graph.ofNetlist netlist).place.position u < (Graph.ofNetlist netlist).place.position v := by
  have hclosed := Graph.closed_ofNetlist netlist
  have hsound := (Graph.sound_place hclosed).1
  have hmem := Graph.mem_plainTargets.mp hedge
  have hnone : (Graph.ofNetlist netlist).place.loops = [] := List.map_eq_nil_iff.mp hloops
  have hnode : v ∈ (Graph.ofNetlist netlist).place.order :=
    (Graph.order_place_perm hclosed).mem_iff.mpr (List.mem_range.mpr (hclosed u _ hmem))
  have hbefore := hsound.waited hnone v hnode u
    (Graph.mem_predecessors.mpr ⟨Graph.size_ofNetlist ▸ Graph.lt_of_mem_edges hmem, hmem⟩)
  exact hbefore.idxOf_lt (Placement.nodup_order hsound)

theorem before_of_precedes (state : State) (hloops : (compile netlist).diagnostics = [])
    (h : netlist.Precedes first second) : Before (netlist.trace state) first second := by
  obtain ⟨u, v, hfirst, hsecond, hedge⟩ := h
  rw [← Graph.task_ofNetlist hfirst, ← Graph.task_ofNetlist hsecond]
  exact before_trace hedge (position_lt hloops hedge)

theorem before_of_chain (state : State) (hloops : (compile netlist).diagnostics = [])
    (h : Relation.TransGen netlist.Precedes first second) :
    Before (netlist.trace state) first second := by
  induction h with
  | single h => exact before_of_precedes state hloops h
  | tail _ h ih => exact ih.trans (netlist.trace_nodup state) (before_of_precedes state hloops h)

/-- Every settle ends, runs every block once and with it every task, and honours
every plain edge whose source was placed first; without loops these are all. -/
theorem settle_runs_every_block_once (netlist : Netlist) (state : State) :
    let schedule := compile netlist
    let graph := Graph.ofNetlist netlist
    let start := Settling.start netlist schedule state
    let done := start.advance netlist schedule schedule.blocks.length
    let trace := schedule.trace ((settle netlist schedule state).2.map (·.block))
    (done.next = none ∧ ∀ turns,
      start.advance netlist schedule (schedule.blocks.length + turns) = done) ∧
    ((settle netlist schedule state).2.map (·.block)).Perm (List.range schedule.blocks.length) ∧
    trace.Perm netlist.tasks ∧
    (settle netlist schedule state).1 = trace.foldl (State.perform netlist) start.state ∧
    (∀ u v, v ∈ graph.plainTargets u → graph.place.position u < graph.place.position v →
      Before trace (graph.task u) (graph.task v)) ∧
    (schedule.diagnostics = [] → ∀ u v, v ∈ graph.plainTargets u →
      Before trace (graph.task u) (graph.task v)) := by
  obtain ⟨hfired, hlength⟩ := netlist.fired_settled state
  have hnone := hfired.next_eq_none hlength
  refine ⟨⟨hnone, fun turns => ?_⟩, netlist.executed_perm state, netlist.trace_perm state,
    netlist.settle_eq_foldl state, fun u v => before_trace, fun hloops u v hedge => ?_⟩
  · exact (Settling.advance_add ..).trans (Settling.advance_of_next_eq_none hnone turns)
  · exact before_trace hedge (position_lt hloops hedge)

end Netlist

end Breadboard
