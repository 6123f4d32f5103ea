import Breadboard.Proofs.GuardedOperation
import Breadboard.Demo

/-!
# No trap is ever met

A session starts a circuit and answers requests: inputs are set, cells of memories read
and written, and the circuit settles, latches, steps, is reset, rebuilt and traced. One
request leaves the simulation ready for the next (`Ready.serve`), and while the clock can
go on no request meets a trap (`guardedServe_eq`). So a whole session of fewer ticks than
there are words meets none (`guardedSession_eq`): no table is indexed beyond its end,
nothing underflows, no remainder is taken by zero, no shift is too far, and a choice is
never made from nothing.
-/

namespace Breadboard

namespace Simulation

/-- What can be asked of a simulation. -/
inductive Request where
  | setInput (path : String) (value : Word)
  | readRam (path : String) (addr : Nat)
  | writeRam (path : String) (addr : Nat) (value : Word)
  | settle
  | latch
  | step
  | reset (hard : Bool)
  | rebuild (library : Library) (schematic : Schematic)
  | traceUsage
  | trackUsage (enabled : Bool)

/-- What comes back: the value of a cell where one was asked for and found, or why nothing
was found. -/
abbrev Reply := Except LookupError (Option Word)

/-- Where nothing was found the simulation stays as it is. -/
def replied (simulation : Simulation) : Except LookupError Simulation → Simulation × Reply
  | .ok next => (next, .ok none)
  | .error error => (simulation, .error error)

/-- A simulation that cannot be rebuilt stays as it is. -/
def serve (simulation : Simulation) : Request → Simulation × Reply
  | .setInput path value => simulation.replied (simulation.setInput path value)
  | .readRam path addr => (simulation, simulation.readRam path addr)
  | .writeRam path addr value => simulation.replied (simulation.writeRam path addr value)
  | .settle => (simulation.settle, .ok none)
  | .latch => (simulation.latch, .ok none)
  | .step => (simulation.step, .ok none)
  | .reset hard => (simulation.reset hard, .ok none)
  | .rebuild library schematic =>
    ((simulation.rebuild library schematic).toOption.getD simulation, .ok none)
  | .traceUsage => (simulation.traceUsage, .ok none)
  | .trackUsage enabled => (simulation.withUsageTracking enabled, .ok none)

/-- Serve some requests in turn, and collect the replies. -/
def session (simulation : Simulation) : List Request → Simulation × List Reply
  | [] => (simulation, [])
  | request :: requests =>
    let (next, reply) := simulation.serve request
    let (last, replies) := next.session requests
    (last, reply :: replies)

/-! ## Guarded sessions -/

def guardedServe (simulation : Simulation) : Request → Guarded (Simulation × Reply)
  | .setInput path value => do
    return simulation.replied (← simulation.guardedSetInput path value)
  | .readRam path addr => do return (simulation, ← simulation.guardedReadRam path addr)
  | .writeRam path addr value => do
    return simulation.replied (← simulation.guardedWriteRam path addr value)
  | .settle => do return (← simulation.guardedSettle, .ok none)
  | .latch => do return (← simulation.guardedLatch, .ok none)
  | .step => do return (← simulation.guardedStep, .ok none)
  | .reset hard => do return (← simulation.guardedReset hard, .ok none)
  | .rebuild library schematic => do
    return (← simulation.guardedRebuild library schematic, .ok none)
  | .traceUsage => do return (← simulation.guardedTrace, .ok none)
  | .trackUsage enabled => do
    let simulation := { simulation with trackUsage := enabled }
    if enabled then return (← simulation.guardedTrace, .ok none)
    else return (simulation, .ok none)

def guardedSession (simulation : Simulation) :
    List Request → Guarded (Simulation × List Reply)
  | [] => return (simulation, [])
  | request :: requests => do
    let (next, reply) ← simulation.guardedServe request
    let (last, replies) ← next.guardedSession requests
    return (last, reply :: replies)

/-- Start a circuit and serve requests. -/
def guardedRun (library : Library) (schematic : Schematic) (requests : List Request) :
    Guarded (Simulation × List Reply) := do
  (← guardedStart library schematic).guardedSession requests

/-- A circuit of built-in components and of schematics, none of which contains itself, whose
carries out all lie within their sums. -/
structure Operable (library : Library) (schematic : Schematic) : Prop where
  native : library.Native
  acyclic : library.Acyclic
  carries : ∀ part ∈ (flatten library schematic).parts, part.device.overshifts = false

theorem Operable.fault {library : Library} {schematic : Schematic}
    (h : Operable library schematic) : (flatten library schematic).fault? = none :=
  Netlist.fault?_eq_none_iff.mpr h.carries

/-- What a simulation is rebuilt to is as sensible. -/
def Request.Operable : Request → Prop
  | .rebuild library schematic => Simulation.Operable library schematic
  | _ => True

open Guarded (ok_bind)

variable {simulation next : Simulation} {library : Library} {schematic : Schematic}
  {request : Request}

/-! ## The clock -/

@[simp] theorem ticks_settle (simulation : Simulation) :
    simulation.settle.ticks = simulation.ticks := by
  unfold settle
  dsimp only
  split <;> rfl

theorem ticks_latch (simulation : Simulation) : simulation.latch.ticks = simulation.ticks + 1 :=
  rfl

/-- A circuit that has not halted latches in a step. -/
theorem ticks_step (h : simulation.isHalted = false) :
    simulation.step.ticks = simulation.ticks + 1 := by
  obtain ⟨hhalted, -⟩ | ⟨-, -, hstep⟩ | ⟨-, -, hstep⟩ := simulation.step_cases
  · rw [h] at hhalted
    cases hhalted
  · rw [hstep, ticks_latch]
  · rw [hstep, ticks_settle, ticks_latch]

theorem Poked.ticks (h : simulation.Poked next) : next.ticks = simulation.ticks := by
  obtain ⟨_, _, _, _, _, rfl⟩ := h
  rfl

theorem ticks_le_step (simulation : Simulation) :
    simulation.ticks ≤ simulation.step.ticks := by
  cases hhalted : simulation.isHalted with
  | true => rw [step, if_pos hhalted]
  | false => exact Nat.le_of_lt (ticks_step hhalted ▸ Nat.lt_succ_self _)

/-- The clock never goes back. -/
theorem ticks_le_serve (simulation : Simulation) (request : Request) :
    simulation.ticks ≤ (simulation.serve request).1.ticks := by
  cases request with
  | setInput path value =>
    rw [serve]
    cases hnext : simulation.setInput path value with
    | error error => exact Nat.le_refl _
    | ok next =>
      rcases setInput_poked hnext with rfl | hpoked
      · exact Nat.le_refl _
      · exact Nat.le_of_eq hpoked.ticks.symm
  | writeRam path addr value =>
    rw [serve]
    cases hnext : simulation.writeRam path addr value with
    | error error => exact Nat.le_refl _
    | ok next =>
      rcases writeRam_poked hnext with rfl | hpoked
      · exact Nat.le_refl _
      · exact Nat.le_of_eq hpoked.ticks.symm
  | rebuild library schematic =>
    rw [serve, rebuild]
    dsimp only
    split
    · exact Nat.le_refl _
    · change simulation.ticks ≤ (settle _).ticks
      rw [ticks_settle]
  | settle => exact Nat.le_of_eq (ticks_settle _).symm
  | latch => exact Nat.le_succ _
  | step => exact simulation.ticks_le_step
  | reset hard =>
    change simulation.ticks ≤ (settle _).ticks
    rw [ticks_settle]
  | trackUsage enabled => cases enabled <;> exact Nat.le_refl _
  | readRam path addr => exact Nat.le_refl _
  | traceUsage => exact Nat.le_refl _

theorem ticks_le_session : ∀ (requests : List Request) (simulation : Simulation),
    simulation.ticks ≤ (simulation.session requests).1.ticks := by
  intro requests
  induction requests with
  | nil => exact fun simulation => Nat.le_refl _
  | cons request requests ih =>
    exact fun simulation => Nat.le_trans (simulation.ticks_le_serve request) (ih _)

/-! ## One request -/

theorem guardedStep_eq (h : simulation.Ready) (hticks : simulation.step.ticks < UInt64.size) :
    simulation.guardedStep = .ok simulation.step := by
  rw [guardedStep, step]
  cases hhalted : simulation.isHalted with
  | true => rfl
  | false =>
    rw [ticks_step hhalted] at hticks
    rw [if_neg Bool.false_ne_true, if_neg Bool.false_ne_true,
      guardedLatch_eq h.sturdy hticks, ok_bind]
    dsimp only
    split
    · rfl
    · exact guardedSettle_eq h.latch.sturdy

theorem Ready.replied (h : simulation.Ready) {result : Except LookupError Simulation}
    (hresult : ∀ next, result = .ok next → next.Ready) : (simulation.replied result).1.Ready := by
  cases result with
  | error error => exact h
  | ok next => exact hresult next rfl

/-- A request that can be served leaves the simulation ready for the next one. -/
theorem Ready.serve (h : simulation.Ready) (hrequest : request.Operable) :
    (simulation.serve request).1.Ready := by
  cases request with
  | setInput path value => exact h.replied fun next hnext => h.setInput hnext
  | readRam path addr => exact h
  | writeRam path addr value => exact h.replied fun next hnext => h.writeRam hnext
  | settle => exact h.settle
  | latch => exact h.latch
  | step => exact h.step
  | reset hard => exact h.reset hard
  | rebuild library schematic =>
    rw [Simulation.serve]
    cases hnext : simulation.rebuild library schematic with
    | error fault => exact h
    | ok next => exact h.rebuild hrequest.native hnext
  | traceUsage => exact h.traceUsage
  | trackUsage enabled => exact h.withUsageTracking enabled

/-- One request meets no trap. -/
theorem guardedServe_eq (h : simulation.Ready) (hrequest : request.Operable)
    (hticks : (simulation.serve request).1.ticks < UInt64.size) :
    simulation.guardedServe request = .ok (simulation.serve request) := by
  have hsturdy := h.sturdy
  cases request with
  | setInput path value => rw [guardedServe, guardedSetInput_eq hsturdy]; rfl
  | readRam path addr => rw [guardedServe, guardedReadRam_eq hsturdy]; rfl
  | writeRam path addr value => rw [guardedServe, guardedWriteRam_eq hsturdy]; rfl
  | settle => rw [guardedServe, guardedSettle_eq hsturdy]; rfl
  | latch => rw [guardedServe, guardedLatch_eq hsturdy hticks]; rfl
  | step => rw [guardedServe, guardedStep_eq h hticks]; rfl
  | reset hard => rw [guardedServe, guardedReset_eq hsturdy]; rfl
  | rebuild library schematic =>
    have hnext := simulation.rebuild_eq hrequest.fault
    rw [guardedServe, guardedRebuild_eq hsturdy hrequest.native hrequest.acyclic hnext]
    rfl
  | traceUsage =>
    rw [guardedServe, guardedTrace_eq hsturdy.flat hsturdy.schedule hsturdy.held.sound h.executed]
    rfl
  | trackUsage enabled =>
    cases enabled with
    | false => rfl
    | true =>
      have htrace : guardedTrace { simulation with trackUsage := true } = _ :=
        guardedTrace_eq hsturdy.flat hsturdy.schedule hsturdy.held.sound h.executed
      rw [guardedServe, if_pos rfl, htrace]
      rfl

/-! ## Sessions -/

/-- The requests of a session meet no trap, one after another. -/
theorem guardedSession_eq {requests : List Request} (h : simulation.Ready)
    (hrequests : ∀ request ∈ requests, request.Operable)
    (hticks : (simulation.session requests).1.ticks < UInt64.size) :
    simulation.guardedSession requests = .ok (simulation.session requests) := by
  induction requests generalizing simulation with
  | nil => rfl
  | cons request requests ih =>
    have hrequest := hrequests request (List.mem_cons_self ..)
    have hserve := guardedServe_eq h hrequest
      (Nat.lt_of_le_of_lt (ticks_le_session requests _) hticks)
    rw [guardedSession, hserve, ok_bind]
    dsimp only
    rw [ih (h.serve hrequest) (fun request hmem => hrequests request (List.mem_cons_of_mem _ hmem))
      hticks]
    rfl

/-- Neither starting a circuit nor anything that is done with it afterwards meets a trap. -/
theorem no_trap {requests : List Request} (h : Operable library schematic)
    (hrequests : ∀ request ∈ requests, request.Operable)
    (hticks : ((ofNetlist (flatten library schematic)).session requests).1.ticks < UInt64.size) :
    start library schematic = .ok (ofNetlist (flatten library schematic)) ∧
      guardedRun library schematic requests =
        .ok ((ofNetlist (flatten library schematic)).session requests) := by
  refine ⟨start_eq h.fault, ?_⟩
  rw [guardedRun, guardedStart_eq h.native h.acyclic h.fault, ok_bind]
  exact guardedSession_eq (.start h.native h.fault) hrequests hticks

/-- A circuit with hierarchy is rebuilt to one with a memory, which is written, read and
addressed beyond its end. -/
theorem no_trap_demo :
    let requests : List Request :=
      [.setInput "x" 7, .step, .traceUsage, .rebuild Demo.library Demo.bus, .writeRam "ram" 3 77,
        .setInput "en_x" 0, .setInput "addr" 3, .setInput "oe" 1, .settle, .latch, .reset false,
        .readRam "ram" 3, .readRam "ram" 99, .readRam "probe" 0]
    ∃ last, guardedRun Demo.library Demo.hierarchy requests = .ok last ∧
      last.2.drop 11 = [.ok (some 77), .ok none, .error (.wrongKind "probe" .ram)] ∧
      last.1.ticks = 2 := by
  intro requests
  have hnative : Demo.library.Native :=
    (Library.composed_builtin.addSchematic (by decide) Demo.incrementer).native
  have hacyclic : Demo.library.Acyclic := Library.acyclic_of_rank
    (fun id => if id = "demo/inc" then 1 else 0) (by decide +kernel)
  have hoperable : Operable Demo.library Demo.hierarchy :=
    ⟨hnative, hacyclic, by decide +kernel⟩
  have hbus : Operable Demo.library Demo.bus := ⟨hnative, hacyclic, by decide +kernel⟩
  have hrequests : ∀ request ∈ requests, request.Operable := by
    simp [requests, Request.Operable, hbus]
  obtain ⟨-, hrun⟩ := no_trap hoperable hrequests (by decide +kernel)
  exact ⟨_, hrun, by decide +kernel, by decide +kernel⟩

end Simulation

end Breadboard
