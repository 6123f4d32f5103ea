import Breadboard.Proofs.Operations
import Breadboard.Proofs.Sharing
import Breadboard.Proofs.Tracking

/-!
# Reachable simulations

`Simulation.Reachable` lists everything that can be done with a simulation of
built-in components: starting it, with or without an earlier one to take values
over from, setting inputs and memories, settling, latching, stepping, resetting,
rebuilding and tracking usage. Whatever is done, the simulation stays coherent
(`Reachable.coherent`): its netlist is flat, its schedule belongs to it, its state
has a place for everything, and a pin that no wire touches counts as resolved.
-/

namespace Breadboard

theorem Edit.resolved_apply (edit : Edit) (pin : Pin) :
    (edit.apply pin).resolved = pin.resolved := by
  cases edit with
  | drive bidirectional value => cases value <;> rfl
  | _ => rfl

/-! ## Memories that fit -/

namespace Device

theorem fits_fresh (device : Device) : device.Fits device.fresh := by
  cases device with
  | ram addrWidth width =>
    intro cell hcell
    rw [Array.mem_replicate] at hcell
    rw [hcell.2]
    exact Builtin.trim_zero width
  | _ => trivial

theorem fits_reset {device : Device} {memory : Memory} (hard : Bool) (h : device.Fits memory) :
    device.Fits (device.reset hard memory) := by
  cases device with
  | ram addrWidth width =>
    cases memory with
    | ram cells =>
      cases hard with
      | false => exact h
      | true =>
        intro cell hcell
        rw [(Array.mem_replicate.mp hcell).2]
        exact Builtin.trim_zero width
    | _ => exact h.elim
  | scripted persistent phases => cases memory <;> trivial
  | register => trivial
  | _ => exact h

theorem fits_adopt (device : Device) (previous : Memory) : device.Fits (device.adopt previous) := by
  cases device with
  | ram addrWidth width =>
    cases previous with
    | ram cells =>
      intro cell hcell
      obtain ⟨position, rfl⟩ := Array.mem_ofFn.mp hcell
      exact trim_trim ..
    | _ => exact fits_fresh (.ram addrWidth width)
  | _ => cases previous <;> trivial

theorem Poked.fits {device : Device} {before after : Memory}
    (h : device.Poked before after) (hbefore : device.Fits before) : device.Fits after := by
  cases h with
  | input => trivial
  | ram addrWidth width addr value cells =>
    intro cell hcell
    rcases Array.mem_or_eq_of_mem_setIfInBounds hcell with hcell | rfl
    · exact hbefore cell hcell
    · exact trim_trim ..

end Device

/-- Pins that no wire touches are resolved. -/
def State.Loose (netlist : Netlist) (state : State) : Prop :=
  ∀ ref port, netlist.port? ref = some port → port.net = none → (state.pin ref).resolved = true

namespace Simulation

inductive Reachable : Simulation → Prop where
  | start {library : Library} {schematic : Schematic} {simulation : Simulation} :
      library.Native → Simulation.start library schematic = .ok simulation → Reachable simulation
  | startFrom {previous simulation : Simulation} {library : Library} {schematic : Schematic} :
      Reachable previous → library.Native →
      previous.startFrom library schematic = .ok simulation → Reachable simulation
  | withUsageTracking {simulation : Simulation} (enabled : Bool) :
      Reachable simulation → Reachable (simulation.withUsageTracking enabled)
  | traceUsage {simulation : Simulation} :
      Reachable simulation → Reachable simulation.traceUsage
  | setInput {simulation next : Simulation} {path : String} {value : Word} :
      Reachable simulation → simulation.setInput path value = .ok next → Reachable next
  | writeRam {simulation next : Simulation} {path : String} {addr : Nat} {value : Word} :
      Reachable simulation → simulation.writeRam path addr value = .ok next → Reachable next
  | settle {simulation : Simulation} : Reachable simulation → Reachable simulation.settle
  | latch {simulation : Simulation} : Reachable simulation → Reachable simulation.latch
  | step {simulation : Simulation} : Reachable simulation → Reachable simulation.step
  | reset {simulation : Simulation} (hard : Bool) :
      Reachable simulation → Reachable (simulation.reset hard)
  | rebuild {simulation next : Simulation} {library : Library} {schematic : Schematic} :
      Reachable simulation → library.Native → simulation.rebuild library schematic = .ok next →
      Reachable next

structure Coherent (simulation : Simulation) : Prop where
  flat : simulation.netlist.Flat
  schedule : simulation.schedule = compile simulation.netlist
  sound : State.Sound simulation.netlist simulation.state
  loose : State.Loose simulation.netlist simulation.state

end Simulation

namespace State

variable {netlist : Netlist} {state other : State} {ref : PortRef} {port : Port}

/-- No task concerns the resolved flag of a pin that no wire touches. -/
theorem resolved_perform (hwired : netlist.Wired) (h : Sound netlist state)
    (hport : netlist.port? ref = some port) (hunbound : port.net = none) (task : Task) :
    ((state.perform netlist task).pin ref).resolved = (state.pin ref).resolved := by
  cases task with
  | phase part position =>
    by_cases hne : ref.part = part
    · subst hne
      rw [pin_phase hwired h hport, Edit.resolved_apply]
    · rw [pin_phase_of_ne hwired hne]
  | net index =>
    rw [pin_net h hport]
    intro htarget
    cases hnet : netlist.nets[index]? with
    | none => simp [List.getD_eq_getElem?_getD, hnet, default, instInhabitedNet.default] at htarget
    | some net =>
      rw [List.getD_eq_getElem?_getD, hnet] at htarget
      obtain ⟨found, hattached⟩ := hwired.attached hnet (Or.inr htarget)
      obtain rfl := Option.some.inj (hattached.found.symm.trans hport)
      have hbound := hattached.bound
      rw [Port.bound, hunbound] at hbound
      cases hbound

theorem Loose.perform (hwired : netlist.Wired) (h : Sound netlist state)
    (hloose : Loose netlist state) (task : Task) : Loose netlist (state.perform netlist task) := by
  intro ref port hport hunbound
  rw [resolved_perform hwired h hport hunbound]
  exact hloose ref port hport hunbound

theorem Loose.foldl_perform (hwired : netlist.Wired) : ∀ (tasks : List Task) {state : State},
    Sound netlist state → Loose netlist state →
    Loose netlist (tasks.foldl (State.perform netlist) state) := by
  intro tasks
  induction tasks with
  | nil => exact fun _ h => h
  | cons task tasks ih => exact fun h hloose => ih (h.perform hwired.native) (hloose.perform hwired h task)

theorem Loose.matches (hloose : Loose netlist state) (h : other.Matches state) :
    Loose netlist other := by
  intro ref port hport hunbound
  rw [h.resolved ref]
  exact hloose ref port hport hunbound

theorem Loose.begun (h : Sound netlist state) (hloose : Loose netlist state) :
    Loose netlist (netlist.begun state) := by
  intro ref port hport hunbound
  rw [Netlist.pin_begun h hport]
  exact hloose ref port hport hunbound

/-! ## States that have not run yet -/

/-- A state with new pins and memories that fit. -/
theorem sound_of_new (hparts : state.parts.length = netlist.parts.length)
    (hnets : state.nets.length = netlist.nets.length)
    (hpart : ∀ {index : Nat} {placed : Part}, netlist.parts[index]? = some placed →
      (state.part index).pins = placed.ports.map (fun _ => {}) ∧
        placed.device.Fits (state.part index).memory) :
    Sound netlist state ∧ Loose netlist state := by
  refine ⟨⟨hparts, hnets, fun hplaced => ?_, fun hplaced => (hpart hplaced).2⟩,
    fun ref port hport _ => ?_⟩
  · rw [(hpart hplaced).1]
    exact List.length_map ..
  · obtain ⟨placed, hplaced, hplace⟩ := Netlist.part_of_port hport
    rw [State.pin, PartState.pin, (hpart hplaced).1, List.getD_eq_getElem?_getD,
      List.getElem?_map, hplace]
    rfl

theorem sound_fresh (netlist : Netlist) :
    Sound netlist (.fresh netlist) ∧ Loose netlist (.fresh netlist) := by
  refine sound_of_new (by simp [State.fresh]) (by simp [State.fresh]) fun {index placed} hplaced => ?_
  have hpart : (State.fresh netlist).part index =
      ⟨placed.ports.map fun _ => {}, placed.device.fresh⟩ := by
    simp [State.fresh, State.part, List.getD_eq_getElem?_getD, hplaced]
  rw [hpart]
  exact ⟨rfl, Device.fits_fresh _⟩

theorem fits_carriedMemory (previous : Netlist) (state : State) (netlist : Netlist) (index : Nat)
    (part : Part) : part.device.Fits (carriedMemory previous state netlist index part) := by
  unfold carriedMemory
  split
  · split
    · exact Device.fits_adopt ..
    · exact Device.fits_fresh _
  · exact Device.fits_fresh _

theorem sound_carriedOver (previous : Netlist) (state : State) (netlist : Netlist)
    (status : Status) :
    Sound netlist { State.carriedOver previous state netlist with status } ∧
      Loose netlist { State.carriedOver previous state netlist with status } := by
  refine sound_of_new (by simp [carriedOver]) (by simp [carriedOver]) fun {index placed} hplaced => ?_
  have hpart : ({ State.carriedOver previous state netlist with status } : State).part index =
      ⟨placed.ports.map fun _ => {}, carriedMemory previous state netlist index placed⟩ := by
    simp [State.carriedOver, State.part, List.getD_eq_getElem?_getD, hplaced]
  rw [hpart]
  exact ⟨rfl, fits_carriedMemory ..⟩

/-- The state that a reset leaves behind, before it settles. -/
def cleared (netlist : Netlist) (hard : Bool) (state : State) : State where
  parts := (netlist.parts.zip state.parts).map fun (part, held) =>
    { pins := held.pins.map fun pin => { pin with value := 0, resolved := true }
      memory := part.device.reset hard held.memory }
  nets := state.nets.map fun _ => {}
  status := .running

theorem part_cleared (h : Sound netlist state) (hard : Bool) {index : Nat} {placed : Part}
    (hplaced : netlist.parts[index]? = some placed) :
    (state.cleared netlist hard).part index =
      { pins := (state.part index).pins.map fun pin => { pin with value := 0, resolved := true }
        memory := placed.device.reset hard (state.part index).memory } := by
  rw [State.part, cleared]
  simp [List.getD_eq_getElem?_getD, h.getElem?_zip hplaced]

/-- A reset clears the values of all pins. -/
theorem sound_reset (h : Sound netlist state) (hard : Bool) :
    Sound netlist (state.cleared netlist hard) ∧ Loose netlist (state.cleared netlist hard) := by
  refine ⟨⟨?_, ?_, fun hplaced => ?_, fun hplaced => ?_⟩, fun ref port hport _ => ?_⟩
  · simp [cleared, h.parts]
  · simp [cleared, h.nets]
  · rw [part_cleared h hard hplaced]
    simp [h.pins hplaced]
  · rw [part_cleared h hard hplaced]
    exact Device.fits_reset hard (h.fits hplaced)
  · obtain ⟨placed, hplaced, hplace⟩ := Netlist.part_of_port hport
    have hlt : ref.port < (state.part ref.part).pins.length := by
      rw [h.pins hplaced]
      exact (List.getElem?_eq_some_iff.mp hplace).1
    rw [State.pin, part_cleared h hard hplaced]
    simp [PartState.pin, List.getD_eq_getElem?_getD, hlt]

/-- Other contents of the same kind. -/
theorem sound_setMemory (h : Sound netlist state) {index : Nat} {memory : Memory}
    (hfits : ∀ placed, netlist.parts[index]? = some placed → placed.device.Fits memory) :
    Sound netlist (state.setPart index { state.part index with memory }) ∧
      ∀ ref, (state.setPart index { state.part index with memory }).pin ref = state.pin ref := by
  have hpart : ∀ other, (state.setPart index { state.part index with memory }).part other =
      if other = index ∧ index < state.parts.length then { state.part index with memory }
      else state.part other := by
    intro other
    by_cases hother : other = index
    · subst hother
      by_cases hlt : other < state.parts.length
      · rw [if_pos ⟨rfl, hlt⟩, part_setPart_self state _ hlt]
      · rw [if_neg (fun h => hlt h.2), setPart, List.set_eq_of_length_le (Nat.not_lt.mp hlt)]
    · rw [if_neg (fun h => hother h.1), part_setPart_of_ne state _ (Ne.symm hother)]
  refine ⟨⟨?_, h.nets, fun hplaced => ?_, fun hplaced => ?_⟩, fun ref => ?_⟩
  · simpa [setPart] using h.parts
  · rw [hpart]
    split
    · next hsame =>
      obtain ⟨rfl, -⟩ := hsame
      exact h.pins hplaced
    · exact h.pins hplaced
  · rw [hpart]
    split
    · next hsame =>
      obtain ⟨rfl, -⟩ := hsame
      exact hfits _ hplaced
    · exact h.fits hplaced
  · rw [State.pin, hpart]
    split
    · next hsame =>
      rw [State.pin, hsame.1]
      rfl
    · rfl

end State

/-- Only an adder whose carry is lost keeps a circuit from running. -/
theorem Netlist.fault?_eq_none_iff {netlist : Netlist} :
    netlist.fault? = none ↔ ∀ part ∈ netlist.parts, part.device.overshifts = false := by
  simp [fault?]

/-! ## Operations -/

namespace Simulation

variable {simulation next : Simulation}

@[simp] theorem netlist_settle (simulation : Simulation) :
    simulation.settle.netlist = simulation.netlist := by
  unfold settle
  dsimp only
  split <;> rfl

@[simp] theorem schedule_settle (simulation : Simulation) :
    simulation.settle.schedule = simulation.schedule := by
  unfold settle
  dsimp only
  split <;> rfl

/-- The blocks that run depend on the state alone. -/
theorem executed_settle (h : simulation.schedule = compile simulation.netlist) :
    simulation.settle.executed = simulation.netlist.executed simulation.state := by
  unfold Simulation.settle Netlist.executed
  rw [h]
  generalize Breadboard.settle simulation.netlist (compile simulation.netlist) simulation.state =
    done
  dsimp only
  split <;> rfl

/-- The state behind a settle is the final one, with usage marked on it at most. -/
theorem tracked_settle_of_sound (hschedule : simulation.schedule = compile simulation.netlist)
    (hsound : State.Sound simulation.netlist (simulation.netlist.final simulation.state)) :
    State.Tracked simulation.netlist (simulation.netlist.final simulation.state)
      simulation.settle.state := by
  unfold settle
  rw [hschedule]
  unfold Netlist.final at hsound ⊢
  generalize Breadboard.settle simulation.netlist (compile simulation.netlist) simulation.state =
    done at hsound ⊢
  dsimp only
  split
  · exact State.tracked_traceUsage _ _ hsound
  · exact .refl _

theorem Coherent.tracked_settle (h : simulation.Coherent) :
    State.Tracked simulation.netlist (simulation.netlist.final simulation.state)
      simulation.settle.state :=
  tracked_settle_of_sound h.schedule (Netlist.sound_final h.flat.wired h.sound)

theorem coherent_settle (hflat : simulation.netlist.Flat)
    (hschedule : simulation.schedule = compile simulation.netlist)
    (hstate : State.Sound simulation.netlist simulation.state ∧
      State.Loose simulation.netlist simulation.state) : simulation.settle.Coherent := by
  have hwired := hflat.wired
  have htracked := Coherent.tracked_settle ⟨hflat, hschedule, hstate.1, hstate.2⟩
  have hfinal : State.Loose simulation.netlist (simulation.netlist.final simulation.state) := by
    rw [Netlist.final_eq]
    exact State.Loose.foldl_perform hwired _ (hstate.1.mapPins _)
      (State.Loose.begun hstate.1 hstate.2)
  have hsound := Netlist.sound_final hwired hstate.1
  refine ⟨?_, ?_, ?_, ?_⟩
  · rw [netlist_settle]
    exact hflat
  · rw [schedule_settle, netlist_settle]
    exact hschedule
  · rw [netlist_settle]
    exact htracked.sound hsound
  · rw [netlist_settle]
    exact hfinal.matches htracked.agrees

theorem Coherent.settle (h : simulation.Coherent) : simulation.settle.Coherent :=
  coherent_settle h.flat h.schedule ⟨h.sound, h.loose⟩

theorem Coherent.traceUsage (h : simulation.Coherent) : simulation.traceUsage.Coherent := by
  have htracked := State.tracked_traceUsage simulation.schedule simulation.executed h.sound
  exact ⟨h.flat, h.schedule, htracked.sound h.sound, h.loose.matches htracked.agrees⟩

theorem Coherent.withUsageTracking (h : simulation.Coherent) (enabled : Bool) :
    (simulation.withUsageTracking enabled).Coherent := by
  have hkeep : ({ simulation with trackUsage := enabled } : Simulation).Coherent :=
    ⟨h.flat, h.schedule, h.sound, h.loose⟩
  cases enabled with
  | true => exact hkeep.traceUsage
  | false => exact hkeep

theorem Coherent.latch (h : simulation.Coherent) : simulation.latch.Coherent := by
  have hfold : ∀ (steps : List (Nat × Nat)) (state : State),
      State.Sound simulation.netlist state → State.Loose simulation.netlist state →
      State.Sound simulation.netlist (steps.foldl
        (fun state step => state.runPhase simulation.netlist step.1 step.2) state) ∧
      State.Loose simulation.netlist (steps.foldl
        (fun state step => state.runPhase simulation.netlist step.1 step.2) state) := by
    intro steps
    induction steps with
    | nil => exact fun _ hsound hloose => ⟨hsound, hloose⟩
    | cons step steps ih =>
      exact fun state hsound hloose => ih _ (hsound.runPhase h.flat.wired.native)
        (hloose.perform h.flat.wired hsound (.phase step.1 step.2))
  obtain ⟨hsound, hloose⟩ := hfold simulation.schedule.latchSteps simulation.state h.sound h.loose
  exact ⟨h.flat, h.schedule, hsound, hloose⟩

theorem Coherent.setMemory (h : simulation.Coherent) {index : Nat} {memory : Memory}
    (hfits : ∀ placed, simulation.netlist.parts[index]? = some placed → placed.device.Fits memory) :
    (simulation.setMemory index memory).Coherent := by
  obtain ⟨hsound, hpin⟩ := State.sound_setMemory h.sound hfits
  refine ⟨h.flat, h.schedule, hsound, fun ref port hport hunbound => ?_⟩
  exact (congrArg Pin.resolved (hpin ref)).trans (h.loose ref port hport hunbound)

theorem device_getD {netlist : Netlist} {index : Nat} {placed : Part}
    (h : netlist.parts[index]? = some placed) :
    (netlist.parts.getD index default).device = placed.device := by
  rw [List.getD_eq_getElem?_getD, h]
  rfl

theorem Coherent.poked (h : simulation.Coherent) (hpoked : simulation.Poked next) :
    next.Coherent := by
  obtain ⟨index, placed, memory, hplaced, hdevice, rfl⟩ := hpoked
  refine h.setMemory fun owner howner => ?_
  obtain rfl := Option.some.inj (hplaced.symm.trans howner)
  exact hdevice.fits (h.sound.fits hplaced)

theorem Coherent.setInput (h : simulation.Coherent) {path : String} {value : Word}
    (hnext : simulation.setInput path value = .ok next) : next.Coherent := by
  rcases setInput_poked hnext with rfl | hpoked
  · exact h
  · exact h.poked hpoked

theorem Coherent.writeRam (h : simulation.Coherent) {path : String} {addr : Nat} {value : Word}
    (hnext : simulation.writeRam path addr value = .ok next) : next.Coherent := by
  rcases writeRam_poked hnext with rfl | hpoked
  · exact h
  · exact h.poked hpoked

theorem Coherent.step (h : simulation.Coherent) : simulation.step.Coherent := by
  obtain ⟨-, hstep⟩ | ⟨-, -, hstep⟩ | ⟨-, -, hstep⟩ := simulation.step_cases <;> rw [hstep]
  · exact h
  · exact h.latch
  · exact h.latch.settle

theorem Coherent.reset (h : simulation.Coherent) (hard : Bool) :
    (simulation.reset hard).Coherent :=
  coherent_settle h.flat h.schedule (State.sound_reset h.sound hard)

theorem coherent_ofState {netlist : Netlist} {state : State} (hflat : netlist.Flat)
    (hstate : State.Sound netlist state ∧ State.Loose netlist state) :
    (ofState netlist state).Coherent := by
  let simulation : Simulation := { netlist, schedule := compile netlist, state }
  have hcoherent : simulation.settle.Coherent := coherent_settle hflat rfl hstate
  exact hcoherent

theorem coherent_start {library : Library} {schematic : Schematic} (hnative : library.Native)
    (hstart : Simulation.start library schematic = .ok simulation) : simulation.Coherent := by
  obtain ⟨-, rfl⟩ := start_eq_ok_iff.mp hstart
  exact coherent_ofState ⟨library, schematic, hnative, rfl⟩ (State.sound_fresh _)

theorem coherent_startFrom {previous : Simulation} {library : Library} {schematic : Schematic}
    (hnative : library.Native)
    (hstart : previous.startFrom library schematic = .ok simulation) : simulation.Coherent := by
  obtain ⟨-, rfl⟩ := startFrom_eq_ok_iff.mp hstart
  exact coherent_ofState ⟨library, schematic, hnative, rfl⟩
    (State.sound_carriedOver _ _ _ .running)

theorem coherent_rebuild {library : Library} {schematic : Schematic} (hnative : library.Native)
    (hnext : simulation.rebuild library schematic = .ok next) : next.Coherent := by
  obtain ⟨-, rfl⟩ := rebuild_eq_ok_iff.mp hnext
  exact coherent_settle ⟨library, schematic, hnative, rfl⟩ rfl (State.sound_carriedOver _ _ _ _)

/-- Every reachable simulation is coherent. -/
theorem Reachable.coherent (h : simulation.Reachable) : simulation.Coherent := by
  induction h with
  | start hnative hstart => exact coherent_start hnative hstart
  | startFrom _ hnative hstart => exact coherent_startFrom hnative hstart
  | withUsageTracking enabled _ ih => exact ih.withUsageTracking enabled
  | traceUsage _ ih => exact ih.traceUsage
  | setInput _ hnext ih => exact ih.setInput hnext
  | writeRam _ hnext ih => exact ih.writeRam hnext
  | settle _ ih => exact ih.settle
  | latch _ ih => exact ih.latch
  | step _ ih => exact ih.step
  | reset hard _ ih => exact ih.reset hard
  | rebuild _ hnative hnext => exact coherent_rebuild hnative hnext

theorem start_builtin {schematic : Schematic}
    (hfault : (flatten Library.builtin schematic).fault? = none) :
    Simulation.start Library.builtin schematic =
      .ok (ofNetlist (flatten Library.builtin schematic)) :=
  start_eq hfault

/-- A circuit of built-in components that can be run. -/
theorem reachable_ofNetlist {schematic : Schematic}
    (hfault : (flatten Library.builtin schematic).fault? = none) :
    (ofNetlist (flatten Library.builtin schematic)).Reachable :=
  .start Library.native_builtin (start_builtin hfault)

end Simulation

end Breadboard
