import Breadboard.Demo
import Breadboard.Proofs.Parallel
import Breadboard.Proofs.Unused

/-!
# Inputs that influence nothing

After a settle, usage tells which pins the result depends on. If the output of an input
is not used, then that input can be set to anything: once the circuit has settled,
probes, the halt and all pins that were used show what they would have shown anyway, and
the clock edge leaves the same in registers and memories
(`Simulation.settle_ignores_unused_input`). The circuit has to be static.
-/

namespace Breadboard

/-! ## Marks do not depend on values -/

namespace State

/-- The pins of two states are the same apart from their values. -/
structure Akin (netlist : Netlist) (first second : State) : Prop where
  sound : Sound netlist first
  sound' : Sound netlist second
  bare : ∀ ref, (first.pin ref).bare = (second.pin ref).bare

namespace Akin

variable {netlist : Netlist} {first second : State} {p : PortType → Pin → Bool}

theorem of_port (hsound : Sound netlist first) (hsound' : Sound netlist second)
    (hbare : ∀ ref port, netlist.port? ref = some port →
      (first.pin ref).bare = (second.pin ref).bare) : Akin netlist first second := by
  refine ⟨hsound, hsound', fun ref => ?_⟩
  cases hport : netlist.port? ref with
  | none => rw [pin_eq_default hsound hport, pin_eq_default hsound' hport]
  | some port => exact hbare ref port hport

theorem used (h : Akin netlist first second) (ref : PortRef) :
    (first.pin ref).used = (second.pin ref).used :=
  (Pin.bare_eq_iff.mp (h.bare ref)).2.2.1

theorem markPin (h : Akin netlist first second)
    (hp : ∀ type pin other, pin.bare = other.bare → p type pin = p type other) (ref : PortRef) :
    Akin netlist (first.markPin netlist p ref) (second.markPin netlist p ref) := by
  refine .of_port ((tracked_markPin p first ref).sound h.sound)
    ((tracked_markPin p second ref).sound h.sound') fun other port hport => ?_
  have hbare := h.bare other
  rw [pin_markPin h.sound hport, pin_markPin h.sound' hport, hp _ _ _ hbare]
  split
  · obtain ⟨henabled, hfacing, -, hresolved⟩ := Pin.bare_eq_iff.mp hbare
    exact Pin.bare_eq_iff.mpr ⟨henabled, hfacing, rfl, hresolved⟩
  · exact hbare

theorem foldl {α : Type} {mark : State → α → State}
    (hmark : ∀ {first second : State} (item : α), Akin netlist first second →
      Akin netlist (mark first item) (mark second item)) (items : List α) :
    ∀ {first second : State}, Akin netlist first second →
      Akin netlist (items.foldl mark first) (items.foldl mark second) := by
  induction items with
  | nil => exact id
  | cons item items ih => exact fun h => ih (hmark item h)

theorem traceTask (h : Akin netlist first second) (task : Task) :
    Akin netlist (first.traceTask netlist task) (second.traceTask netlist task) := by
  cases task with
  | phase part position =>
    simp only [State.traceTask, tracePhase, h.used]
    refine foldl (fun port h => ?_) _ h
    refine h.markPin (fun type pin other hbare => ?_) ⟨part, port⟩
    rw [Pin.isIgnored, Pin.isIgnored, (Pin.bare_eq_iff.mp hbare).1]
  | net index =>
    simp only [State.traceTask, traceNet, h.used]
    split
    · refine foldl (fun ref h => ?_) _ h
      refine h.markPin (fun type pin other hbare => ?_) ref
      rw [Pin.drives_of_bare hbare]
    · exact h

theorem traceUsage (h : Akin netlist first second) (schedule : Schedule) (executed : List Nat) :
    Akin netlist (first.traceUsage netlist schedule executed)
      (second.traceUsage netlist schedule executed) := by
  have hclear : Akin netlist (first.mapPins netlist fun _ pin => { pin with used := false })
      (second.mapPins netlist fun _ pin => { pin with used := false }) := by
    refine .of_port (h.sound.mapPins _) (h.sound'.mapPins _) fun ref port hport => ?_
    rw [pin_mapPins h.sound hport, pin_mapPins h.sound' hport]
    obtain ⟨henabled, hfacing, -, hresolved⟩ := Pin.bare_eq_iff.mp (h.bare ref)
    exact Pin.bare_eq_iff.mpr ⟨henabled, hfacing, rfl, hresolved⟩
  refine foldl (fun step h => h.traceTask step.task) _ ?_
  rw [foldl_markLatched_eq, foldl_markLatched_eq]
  exact foldl (fun ref h => h.markPin (fun _ _ _ _ => rfl) ref) _ hclear

end Akin

end State

namespace Netlist

variable {netlist : Netlist} {relied : PortRef → Prop} {first second : State} {hidden : Nat}

namespace Apart

theorem pin (h : netlist.Apart relied hidden first second) {ref : PortRef} (hrelied : relied ref) :
    first.pin ref = second.pin ref :=
  Pin.eq_of_bare (h.bare ref) (h.value ref hrelied)

theorem traceUsage (h : netlist.Apart relied hidden first second) (schedule : Schedule)
    (executed : List Nat) : netlist.Apart relied hidden
      (first.traceUsage netlist schedule executed)
      (second.traceUsage netlist schedule executed) := by
  obtain ⟨hmatches, -⟩ := State.tracked_traceUsage schedule executed h.sound
  obtain ⟨hmatches', -⟩ := State.tracked_traceUsage schedule executed h.sound'
  have hakin : State.Akin netlist first second := ⟨h.sound, h.sound', h.bare⟩
  obtain ⟨hsound, hsound', hbare⟩ := hakin.traceUsage schedule executed
  refine ⟨hsound, hsound', hbare, fun ref hrelied => ?_, fun part hpart => ?_, ?_⟩
  · rw [hmatches.value, hmatches'.value]
    exact h.value ref hrelied
  · rw [hmatches.memory, hmatches'.memory]
    exact h.memory part hpart
  · rw [hmatches.status, hmatches'.status]
    exact h.status

/-- What the clock edge reads is used, so that it keeps states apart no further. -/
theorem latched (h : netlist.Apart relied hidden first second) (hflat : netlist.Flat)
    (hrelied : ∀ {part position index : Nat} {phase : Phase},
      netlist.phase? part position = some phase → phase.latch = true → index ∈ phase.reads →
      relied ⟨part, index⟩) {part : Nat} (hpart : part ≠ hidden) :
    ((netlist.latched first).part part).memory = ((netlist.latched second).part part).memory := by
  have hmemory := h.memory part hpart
  rw [(latched_latched hflat h.sound).memory, (latched_latched hflat h.sound').memory]
  split
  · next hlatches =>
    obtain ⟨phase, hphase, hlatch⟩ := mem_latchSteps.mp hlatches
    obtain ⟨placed, hplaced, hfound⟩ := Option.bind_eq_some_iff.mp hphase
    have hbuilt := hflat.built placed (List.mem_of_getElem? hplaced)
    have hstores := (hbuilt.position_of_latch hfound hlatch).2
    rw [State.effect_eq hplaced, State.effect_eq hplaced]
    refine congrArg Effect.memory (hbuilt.effect_of_looked hfound (fun hbridge => ?_) hmemory
      (fun index hread => ?_) fun index hread _ => h.value _ (hrelied hphase hlatch hread))
    · rw [hbridge] at hstores
      cases hstores
    · exact h.resolved ⟨part, index⟩
  · exact hmemory

end Apart

end Netlist

/-- An input has one port. -/
theorem Part.Built.port?_out {part : Part} {width : Nat} {initial : Word} (h : part.Built)
    (hinput : part.device = .input width initial) : part.port? "out" = some 0 := by
  rcases h.cases with ⟨builtin, args, hmade⟩ | ⟨hinert, -⟩
  · rw [hmade.device] at hinput
    have hports : part.port? "out" = (builtin.assemble args).ports.findIdx? (·.id = "out") := by
      rw [Part.port?, ← hmade.ports, List.findIdx?_map]
      rfl
    rw [hports]
    cases builtin with
    | input => rfl
    | _ => cases hinput
  · rw [hinert] at hinput
    cases hinput

/-! ## Simulations -/

namespace Simulation

variable {simulation changed : Simulation} {path : String} {value : Word} {index : Nat} {pin : Pin}

/-- Nothing has been done since the last settle but to look at what it used. -/
inductive Unmoved : Simulation → Prop where
  | rested {simulation : Simulation} : Rested simulation → Unmoved simulation
  | traceUsage {simulation : Simulation} : Unmoved simulation → Unmoved simulation.traceUsage
  | withUsageTracking {simulation : Simulation} (enabled : Bool) :
      Unmoved simulation → Unmoved (simulation.withUsageTracking enabled)

/-- The marks on the pins tell what the last settle used. -/
inductive Traced : Simulation → Prop where
  | rested {simulation : Simulation} :
      Rested simulation → simulation.trackUsage = true → Traced simulation
  | traceUsage {simulation : Simulation} : Unmoved simulation → Traced simulation.traceUsage
  | withUsageTracking {simulation : Simulation} :
      Unmoved simulation → Traced (simulation.withUsageTracking true)

@[simp] theorem trackUsage_settle (simulation : Simulation) :
    simulation.settle.trackUsage = simulation.trackUsage := by
  unfold settle
  dsimp only
  split <;> rfl

theorem Coherent.executed_settle (h : simulation.Coherent) :
    simulation.settle.executed = simulation.netlist.executed simulation.state :=
  Simulation.executed_settle h.schedule

theorem Coherent.state_settle (h : simulation.Coherent) : simulation.settle.state =
    if simulation.trackUsage then
      (simulation.netlist.final simulation.state).traceUsage simulation.netlist
        (compile simulation.netlist) (simulation.netlist.executed simulation.state)
    else simulation.netlist.final simulation.state := by
  unfold Simulation.settle Netlist.executed Netlist.final
  rw [h.schedule]
  generalize Breadboard.settle simulation.netlist (compile simulation.netlist) simulation.state =
    done
  dsimp only
  split <;> rfl

/-- The simulation stands where a settle has left it. -/
structure SettledFrom (before simulation : Simulation) : Prop where
  coherent : before.Coherent
  coherent' : simulation.Coherent
  netlist : before.netlist = simulation.netlist
  executed : simulation.executed = simulation.netlist.executed before.state
  agrees : simulation.state.Matches (simulation.netlist.final before.state)

namespace SettledFrom

variable {before : Simulation}

theorem settle (h : before.Coherent) : SettledFrom before before.settle := by
  refine ⟨h, h.settle, (netlist_settle _).symm, ?_, ?_⟩
  · rw [netlist_settle]
    exact h.executed_settle
  · rw [netlist_settle]
    exact h.tracked_settle.agrees

theorem traceUsage (h : SettledFrom before simulation) :
    SettledFrom before simulation.traceUsage :=
  ⟨h.coherent, h.coherent'.traceUsage, h.netlist, h.executed,
    (State.tracked_traceUsage _ _ h.coherent'.sound).agrees.trans h.agrees⟩

theorem withUsageTracking (h : SettledFrom before simulation) (enabled : Bool) :
    SettledFrom before (simulation.withUsageTracking enabled) := by
  have hcoherent := h.coherent'.withUsageTracking enabled
  cases enabled with
  | false => exact ⟨h.coherent, hcoherent, h.netlist, h.executed, h.agrees⟩
  | true => exact ⟨h.coherent, hcoherent, h.netlist, h.executed, h.traceUsage.agrees⟩

/-- Settling once more would change nothing. -/
theorem rests (h : SettledFrom before simulation) (hstatic : simulation.netlist.Static) :
    (simulation.netlist.final simulation.state).Matches simulation.state := by
  have hsound := h.coherent.sound
  have hloose := h.coherent.loose
  rw [h.netlist] at hsound hloose
  exact Netlist.matches_static h.coherent'.flat hstatic hsound hloose h.coherent'.sound h.agrees

end SettledFrom

theorem Unmoved.exists_settled (h : simulation.Unmoved) :
    ∃ before, SettledFrom before simulation := by
  induction h with
  | rested hrested =>
    obtain ⟨before, hbefore, rfl⟩ := hrested.exists_before
    exact ⟨before, .settle hbefore⟩
  | traceUsage _ ih =>
    obtain ⟨before, hsettled⟩ := ih
    exact ⟨before, hsettled.traceUsage⟩
  | withUsageTracking enabled _ ih =>
    obtain ⟨before, hsettled⟩ := ih
    exact ⟨before, hsettled.withUsageTracking enabled⟩

/-- The marks come from a walk through the last settle. -/
theorem Traced.exists_settled (h : simulation.Traced) : ∃ before begin,
    SettledFrom before simulation ∧ State.Sound simulation.netlist begin ∧
      simulation.state = begin.traceUsage simulation.netlist (compile simulation.netlist)
        (simulation.netlist.executed before.state) := by
  have htrace : ∀ {simulation before : Simulation}, SettledFrom before simulation →
      simulation.traceUsage.state = simulation.state.traceUsage simulation.netlist
        (compile simulation.netlist) (simulation.netlist.executed before.state) := by
    intro simulation before hsettled
    rw [← hsettled.executed, ← hsettled.coherent'.schedule]
    rfl
  cases h with
  | rested hrested htracks =>
    obtain ⟨before, hbefore, rfl⟩ := hrested.exists_before
    rw [trackUsage_settle] at htracks
    refine ⟨before, before.netlist.final before.state, .settle hbefore, ?_, ?_⟩
    · rw [netlist_settle]
      exact Netlist.sound_final hbefore.flat.wired hbefore.sound
    · rw [netlist_settle, hbefore.state_settle, if_pos htracks]
  | @traceUsage simulation hunmoved =>
    obtain ⟨before, hsettled⟩ := hunmoved.exists_settled
    exact ⟨before, simulation.state, hsettled.traceUsage, hsettled.coherent'.sound,
      htrace hsettled⟩
  | @withUsageTracking simulation hunmoved =>
    obtain ⟨before, hsettled⟩ := hunmoved.exists_settled
    have hstate := htrace hsettled
    exact ⟨before, simulation.state, hsettled.withUsageTracking true, hsettled.coherent'.sound,
      hstate⟩

/-! ## Another value in an input -/

/-- The simulations remember the same, but for what is in one input. -/
structure SameBut (hidden : Nat) (first second : Simulation) : Prop where
  netlist : first.netlist = second.netlist
  memory : ∀ part, part ≠ hidden →
    (first.state.part part).memory = (second.state.part part).memory
  input : ∃ value, (first.state.part hidden).memory = .input value
  input' : ∃ value, (second.state.part hidden).memory = .input value

/-- What is not an input reads the same. -/
theorem SameBut.partOf {α : Type} {hidden : Nat} {first second : Simulation}
    (h : SameBut hidden first second) (path : String) (kind : PartKind) {read : Memory → Option α}
    (hread : ∀ value, read (.input value) = none) :
    first.partOf path kind read = second.partOf path kind read := by
  unfold Simulation.partOf partAt
  rw [h.netlist]
  cases second.netlist.partAt? ⟨path⟩ with
  | none => rfl
  | some index =>
    dsimp only [bind, Except.bind]
    by_cases hindex : index = hidden
    · subst hindex
      obtain ⟨value, hvalue⟩ := h.input
      obtain ⟨value', hvalue'⟩ := h.input'
      rw [hvalue, hvalue', hread, hread]
    · rw [h.memory index hindex]

theorem SameBut.of_sound {hidden : Nat} {first second : Simulation} {placed : Part} {width : Nat}
    {initial : Word} (hsound : State.Sound first.netlist first.state)
    (hsound' : State.Sound second.netlist second.state) (hnetlist : first.netlist = second.netlist)
    (hmemory : ∀ part, part ≠ hidden →
      (first.state.part part).memory = (second.state.part part).memory)
    (hpart : first.netlist.parts[hidden]? = some placed)
    (hinput : placed.device = .input width initial) : SameBut hidden first second := by
  have hholds : ∀ {state : State}, State.Sound first.netlist state →
      ∃ value, (state.part hidden).memory = .input value := by
    intro state h
    have hfits := h.fits hpart
    rw [hinput] at hfits
    generalize (state.part hidden).memory = memory at hfits ⊢
    cases memory with
    | input value => exact ⟨value, rfl⟩
    | _ => exact hfits.elim
  rw [← hnetlist] at hsound'
  exact ⟨hnetlist, hmemory, hholds hsound, hholds hsound'⟩

/-- Two simulations of one circuit settle in such a way that nothing tells them apart but
pins that were not used, and what is in the input `hidden`. -/
structure SettleAlike (hidden : Nat) (first second : Simulation) : Prop where
  /-- Probes show the same. -/
  probe : ∀ path, first.settle.probeValue path = second.settle.probeValue path
  /-- The circuit halts in both cases and for the same reason, or in neither. -/
  status : first.settle.state.status = second.settle.state.status
  pin : ∀ ref, (first.state.pin ref).used = true →
    first.settle.state.pin ref = second.settle.state.pin ref
  /-- Behind the clock edge registers hold the same. -/
  register : ∀ path, first.settle.latch.registerValue path = second.settle.latch.registerValue path
  /-- Behind the clock edge memories hold the same. -/
  ram : ∀ path, first.settle.latch.ramCells path = second.settle.latch.ramCells path
  /-- So does every part before and behind the clock edge, whatever its path. -/
  memory : ∀ part, part ≠ hidden →
    (first.settle.state.part part).memory = (second.settle.state.part part).memory ∧
      (first.settle.latch.state.part part).memory = (second.settle.latch.state.part part).memory

theorem SettleAlike.refl (hidden : Nat) (simulation : Simulation) :
    SettleAlike hidden simulation simulation :=
  ⟨fun _ => rfl, rfl, fun _ _ => rfl, fun _ => rfl, fun _ => rfl, fun _ _ => ⟨rfl, rfl⟩⟩

theorem SettleAlike.of_same {hidden : Nat} {first second : Simulation}
    (hsettled : SameBut hidden first.settle second.settle)
    (hlatched : SameBut hidden first.settle.latch second.settle.latch)
    (hstatus : first.settle.state.status = second.settle.state.status)
    (hpin : ∀ ref, (first.state.pin ref).used = true →
      first.settle.state.pin ref = second.settle.state.pin ref) :
    SettleAlike hidden first second := by
  refine ⟨fun path => ?_, hstatus, hpin, fun path => ?_, fun path => ?_, fun part hpart =>
    ⟨hsettled.memory part hpart, hlatched.memory part hpart⟩⟩
  · rw [probeValue, probeValue, hsettled.partOf path .probe fun _ => rfl]
  · rw [registerValue, registerValue, hlatched.partOf path .register fun _ => rfl]
  · rw [ramCells, ramCells, hlatched.partOf path .ram fun _ => rfl]

section

variable {placed : Part} {width : Nat} {initial : Word}
  (hpart : simulation.netlist.parts[index]? = some placed)
  (hinput : placed.device = .input width initial)

include hpart hinput

theorem fits_input (value : Word) : ∀ owner, simulation.netlist.parts[index]? = some owner →
    owner.device.Fits (.input value) := by
  intro owner howner
  obtain rfl := Option.some.inj (howner.symm.trans hpart)
  rw [hinput]
  trivial

theorem Coherent.setMemory_input (h : simulation.Coherent) (value : Word) :
    (simulation.setMemory index (.input value)).Coherent :=
  h.setMemory (fits_input hpart hinput value)

/-- Setting an input that is not used. -/
theorem Traced.nudged (h : simulation.Traced) (hstatic : simulation.netlist.Static)
    (hunused : (simulation.state.pin ⟨index, 0⟩).used = false) (value : Word) :
    simulation.netlist.Nudged index simulation.state
      (simulation.setMemory index (.input value)).state := by
  obtain ⟨before, begin, hsettled, hbegin, hstate⟩ := h.exists_settled
  have hcoherent := hsettled.coherent'
  obtain ⟨hsound, hpin⟩ :=
    State.sound_setMemory hcoherent.sound (fits_input hpart hinput value)
  refine ⟨hcoherent.flat, hstatic, hsettled.rests hstatic, ?_, ⟨hcoherent.sound, hsound,
    fun ref => congrArg Pin.bare (hpin ref).symm, fun ref _ => congrArg Pin.value (hpin ref).symm,
    fun other hother => ?_, rfl⟩, ⟨placed, width, initial, hpart, hinput⟩, hunused⟩
  · rw [hstate]
    exact Netlist.covered_traceUsage hcoherent.flat hstatic hbegin rfl
  · rw [memory_setMemory hcoherent hpart, if_neg hother]

/-- Both settle, and look at what was used if they keep track of it. -/
theorem Coherent.apart_settle (h : simulation.Coherent)
    (hnudged : simulation.netlist.Nudged index simulation.state
      (simulation.setMemory index (.input value)).state) :
    simulation.netlist.Apart (simulation.netlist.Relied simulation.state) index
      simulation.settle.state (simulation.setMemory index (.input value)).settle.state := by
  have hsecond : (simulation.setMemory index (.input value)).settle.state =
      if simulation.trackUsage then
        (simulation.netlist.final (simulation.setMemory index (.input value)).state).traceUsage
          simulation.netlist (compile simulation.netlist)
          (simulation.netlist.executed (simulation.setMemory index (.input value)).state)
      else simulation.netlist.final (simulation.setMemory index (.input value)).state :=
    (h.setMemory_input hpart hinput value).state_settle
  rw [h.state_settle, hsecond, hnudged.executed_eq]
  split
  · exact hnudged.final.traceUsage ..
  · exact hnudged.final

theorem Coherent.settleAlike (h : simulation.Coherent)
    (hnudged : simulation.netlist.Nudged index simulation.state
      (simulation.setMemory index (.input value)).state) :
    SettleAlike index simulation (simulation.setMemory index (.input value)) := by
  have hapart := h.apart_settle hpart hinput hnudged
  have h' := h.setMemory_input hpart hinput value
  have hnetlist : simulation.settle.netlist =
      (simulation.setMemory index (.input value)).settle.netlist := by
    rw [netlist_settle, netlist_settle]
    rfl
  have hpart' : simulation.settle.netlist.parts[index]? = some placed := by
    rw [netlist_settle]
    exact hpart
  have hread : ∀ {part position port : Nat} {phase : Phase},
      simulation.netlist.phase? part position = some phase → phase.latch = true →
      port ∈ phase.reads → simulation.netlist.Relied simulation.state ⟨part, port⟩ :=
    fun hphase hlatch hread => Or.inl (hnudged.covered.latch hphase hlatch hread)
  have hlatched : ∀ part, part ≠ index →
      (simulation.settle.latch.state.part part).memory =
        ((simulation.setMemory index (.input value)).settle.latch.state.part part).memory := by
    intro part hne
    rw [h.latch_eq, h'.latch_eq]
    exact hapart.latched h.flat hread hne
  exact .of_same
    (.of_sound h.settle.sound h'.settle.sound hnetlist hapart.memory hpart' hinput)
    (.of_sound h.settle.latch.sound h'.settle.latch.sound hnetlist hlatched hpart' hinput)
    hapart.status fun ref hused => hapart.pin (Or.inl hused)

end

/-- An input of which the output was not used can be set to anything. -/
theorem settle_ignores_unused_input (htraced : simulation.Traced)
    (hstatic : simulation.netlist.Static) (hindex : simulation.partAt path = .ok index)
    (hpin : simulation.pinState? index "out" = some pin) (hunused : pin.used = false)
    (hset : simulation.setInput path value = .ok changed) :
    SettleAlike index simulation changed := by
  obtain ⟨before, -, hsettled, -⟩ := htraced.exists_settled
  have hcoherent := hsettled.coherent'
  obtain ⟨other, hother, hcases⟩ := setInput_cases hset
  obtain rfl : index = other := Except.ok.inj (hindex.symm.trans hother)
  rcases hcases with rfl | ⟨width, initial, hdevice, rfl⟩
  · exact .refl ..
  unfold pinState? at hpin
  obtain ⟨placed, hpart, hpin⟩ := Option.bind_eq_some_iff.mp hpin
  rw [device_getD hpart] at hdevice
  have hbuilt := hcoherent.flat.built placed (List.mem_of_getElem? hpart)
  rw [hbuilt.port?_out hdevice] at hpin
  obtain rfl : simulation.state.pin ⟨index, 0⟩ = pin := Option.some.inj hpin
  exact hcoherent.settleAlike hpart hdevice
    (htraced.nudged hpart hdevice hstatic hunused (trim width value))

/-- While a multiplexer shows its first input, its second one can be set to anything. -/
theorem settle_ignores_unused_input_mux :
    let simulation := (ofNetlist (flatten Library.builtin (Demo.mux 0))).withUsageTracking true
    ∃ changed, simulation.setInput "b" 7 = .ok changed ∧ SettleAlike 1 simulation changed := by
  have hrested : (ofNetlist (flatten Library.builtin (Demo.mux 0))).Rested :=
    .start Library.native_builtin (start_builtin (by decide +kernel))
  have hpin : ((ofNetlist (flatten Library.builtin (Demo.mux 0))).withUsageTracking true).pinState?
      1 "out" = some { value := 9, used := false } := by decide +kernel
  have hok : (((ofNetlist (flatten Library.builtin (Demo.mux 0))).withUsageTracking true).setInput
      "b" 7).isOk = true := by decide +kernel
  obtain ⟨changed, hset⟩ : ∃ changed, ((ofNetlist (flatten Library.builtin (Demo.mux
      0))).withUsageTracking true).setInput "b" 7 = .ok changed := by
    generalize Simulation.setInput _ "b" 7 = result at hok
    cases result with
    | ok changed => exact ⟨changed, rfl⟩
    | error error => cases hok
  exact ⟨changed, hset, settle_ignores_unused_input (.withUsageTracking (.rested hrested))
    (by decide +kernel) (by decide +kernel) hpin rfl hset⟩

end Simulation

end Breadboard
