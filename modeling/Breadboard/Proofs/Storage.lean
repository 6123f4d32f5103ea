import Breadboard.Proofs.Proper
import Breadboard.Proofs.Roster

/-!
# What is stored

Inputs, registers and memories hold something that they can hold (`State.Stored`), and
a settle leaves it as it is (`Simulation.Stocked.memory_settle`), whatever else there
is in the circuit: no phase reaches another part than its own, and only built-in
components store anything. So nothing here asks what the other components are made of
(`Simulation.Occurs`).
-/

namespace Breadboard

namespace Simulation

/-- A simulation of this circuit comes about. Its components may be of any kind. -/
inductive Occurs : Library → Schematic → Simulation → Prop where
  | start {library : Library} {schematic : Schematic} {simulation : Simulation} :
      Simulation.start library schematic = .ok simulation → Occurs library schematic simulation
  | startFrom {library before : Library} {schematic earlier : Schematic}
      {previous simulation : Simulation} : Occurs before earlier previous →
      previous.startFrom library schematic = .ok simulation → Occurs library schematic simulation
  | withUsageTracking {library : Library} {schematic : Schematic} {simulation : Simulation}
      (enabled : Bool) : Occurs library schematic simulation →
      Occurs library schematic (simulation.withUsageTracking enabled)
  | traceUsage {library : Library} {schematic : Schematic} {simulation : Simulation} :
      Occurs library schematic simulation → Occurs library schematic simulation.traceUsage
  | setInput {library : Library} {schematic : Schematic} {simulation next : Simulation}
      {path : String} {value : Word} : Occurs library schematic simulation →
      simulation.setInput path value = .ok next → Occurs library schematic next
  | writeRam {library : Library} {schematic : Schematic} {simulation next : Simulation}
      {path : String} {addr : Nat} {value : Word} : Occurs library schematic simulation →
      simulation.writeRam path addr value = .ok next → Occurs library schematic next
  | settle {library : Library} {schematic : Schematic} {simulation : Simulation} :
      Occurs library schematic simulation → Occurs library schematic simulation.settle
  | latch {library : Library} {schematic : Schematic} {simulation : Simulation} :
      Occurs library schematic simulation → Occurs library schematic simulation.latch
  | step {library : Library} {schematic : Schematic} {simulation : Simulation} :
      Occurs library schematic simulation → Occurs library schematic simulation.step
  | reset {library : Library} {schematic : Schematic} {simulation : Simulation} (hard : Bool) :
      Occurs library schematic simulation → Occurs library schematic (simulation.reset hard)
  | rebuild {library before : Library} {schematic earlier : Schematic}
      {simulation next : Simulation} : Occurs before earlier simulation →
      simulation.rebuild library schematic = .ok next → Occurs library schematic next

end Simulation

/-! ## Devices of any kind -/

theorem Action.length_pins_run (ports : List Port) (action : Action Nat)
    (state : PartState × Status) :
    (action.run ports state).1.pins.length = state.1.pins.length := by
  obtain ⟨part, status⟩ := state
  cases action with
  | store source => rfl
  | load target =>
    simp only [run]
    split
    · exact PartState.length_pins_update ..
    · rfl
  | halt pin reason =>
    simp only [run]
    split <;> rfl
  | _ => exact PartState.length_pins_update ..

namespace Device

variable {device : Device}

theorem length_pins_run (device : Device) (ports : List Port) (phase : Nat) (part : PartState)
    (status : Status) : (device.run ports phase part status).1.pins.length = part.pins.length := by
  by_cases hnative : device.Native
  · rw [run_eq hnative]
    exact Effect.length_pins_apply ..
  · cases device with
    | scripted persistent phases =>
      refine List.foldlRecOn (motive := fun state : PartState × Status =>
        state.1.pins.length = part.pins.length) _ _ rfl fun state hstate action _ => ?_
      exact (action.length_pins_run ports state).trans hstate
    | _ => exact absurd trivial hnative

theorem native_of_stores (h : device.stores = true) : device.Native := by
  cases device <;> trivial

theorem fits_run {ports : List Port} {phase : Nat} {part : PartState} {status : Status}
    (h : device.Fits part.memory) : device.Fits (device.run ports phase part status).1.memory := by
  by_cases hnative : device.Native
  · rw [run_eq hnative]
    exact fits_effect h
  · cases device with
    | scripted => trivial
    | _ => exact absurd trivial hnative

end Device

/-! ## States -/

namespace State

variable {netlist : Netlist} {state other : State} {index part phase : Nat} {placed : Part}
  {library : Library} {schematic : Schematic}

theorem part_runPhase_of_ne (hne : index ≠ part) :
    (state.runPhase netlist part phase).part index = state.part index :=
  part_setPart_of_ne state _ (Ne.symm hne)

theorem part_runPhase_self (hpart : netlist.parts[part]? = some placed)
    (hlt : part < state.parts.length) : (state.runPhase netlist part phase).part part =
      (placed.device.run placed.ports phase (state.part part) state.status).1 := by
  have hplaced : netlist.parts.getD part default = placed := by
    rw [List.getD_eq_getElem?_getD, hpart, Option.getD_some]
  rw [← hplaced]
  exact part_setPart_self state _ hlt

/-- A state stays sound whatever its devices are. -/
theorem Sound.runPhase_any (h : Sound netlist state) (part phase : Nat) :
    Sound netlist (state.runPhase netlist part phase) := by
  have hplace : ∀ {index : Nat} {placed : Part}, netlist.parts[index]? = some placed →
      ((state.runPhase netlist part phase).part index).pins.length = placed.ports.length ∧
        placed.device.Fits ((state.runPhase netlist part phase).part index).memory := by
    intro index placed hplaced
    by_cases hindex : index = part
    · subst hindex
      have hlt : index < state.parts.length := by
        rw [h.parts]
        exact (List.getElem?_eq_some_iff.mp hplaced).1
      rw [part_runPhase_self hplaced hlt, Device.length_pins_run]
      exact ⟨h.pins hplaced, Device.fits_run (h.fits hplaced)⟩
    · rw [part_runPhase_of_ne hindex]
      exact ⟨h.pins hplaced, h.fits hplaced⟩
  refine ⟨?_, h.nets, fun hplaced => (hplace hplaced).1, fun hplaced => (hplace hplaced).2⟩
  exact (List.length_set ..).trans h.parts

theorem Sound.perform_any (h : Sound netlist state) (task : Task) :
    Sound netlist (state.perform netlist task) := by
  cases task with
  | phase part position => exact h.runPhase_any part position
  | net index => exact h.resolve

/-- Inputs, registers and memories hold something that they can hold. -/
def Stored (netlist : Netlist) (state : State) : Prop :=
  ∀ (index : Nat) (placed : Part), netlist.parts[index]? = some placed →
    placed.device.stores = true → placed.device.Proper (state.part index).memory

theorem memory_runPhase_stored (h : Sound netlist state)
    (hpart : netlist.parts[part]? = some placed) (hstores : placed.device.stores = true) :
    ((state.runPhase netlist part phase).part part).memory =
      (placed.device.effect placed.ports phase (state.part part)).memory := by
  have hlt : part < state.parts.length := by
    rw [h.parts]
    exact (List.getElem?_eq_some_iff.mp hpart).1
  rw [part_runPhase_self hpart hlt, Device.run_eq (Device.native_of_stores hstores)]
  rfl

theorem Stored.perform (h : Stored netlist state) (hsound : Sound netlist state) (task : Task) :
    Stored netlist (state.perform netlist task) := by
  intro index placed hpart hstores
  have hproper := h index placed hpart hstores
  cases task with
  | net net =>
    rw [State.perform, memory_resolve]
    exact hproper
  | phase part position =>
    rw [State.perform]
    by_cases hindex : index = part
    · subst hindex
      rw [memory_runPhase_stored hsound hpart hstores]
      exact Device.proper_effect _ _ hproper
    · rw [part_runPhase_of_ne hindex]
      exact hproper

/-- States with the same memories store the same. -/
theorem Stored.congr (h : Stored netlist state)
    (hmemory : ∀ index, (other.part index).memory = (state.part index).memory) :
    Stored netlist other := by
  intro index placed hpart hstores
  rw [hmemory]
  exact h index placed hpart hstores

theorem Stored.cleared (h : Stored netlist state) (hsound : Sound netlist state) (hard : Bool) :
    Stored netlist (state.cleared netlist hard) := by
  intro index placed hpart hstores
  rw [part_cleared hsound hard hpart]
  exact Device.proper_reset hard (h index placed hpart hstores)

theorem foldl_perform_any (tasks : List Task) (h : Sound netlist state)
    (hstored : Stored netlist state) :
    Sound netlist (tasks.foldl (State.perform netlist) state) ∧
      Stored netlist (tasks.foldl (State.perform netlist) state) :=
  List.foldlRecOn (motive := fun state => Sound netlist state ∧ Stored netlist state) tasks _
    ⟨h, hstored⟩ fun _ hstate task _ =>
      ⟨hstate.1.perform_any task, hstate.2.perform hstate.1 task⟩

/-! ## Flat circuits -/

/-- What stores something is built in. -/
theorem builtin_of_stores (hpart : (flatten library schematic).parts[index]? = some placed)
    (hstores : placed.device.stores = true) :
    ∃ (builtin : Builtin) (args : Json), placed.MadeOf (builtin.assemble args) := by
  have hlt := (List.getElem?_eq_some_iff.mp hpart).1
  rw [← length_roster] at hlt
  obtain ⟨-, found, hfound, hmade, -⟩ := Listing.at_of_roster (List.getElem?_eq_getElem hlt)
  obtain rfl := Option.some.inj (hfound.symm.trans hpart)
  obtain ⟨site, -, -, -, hassembly⟩ := mem_roster.mp (List.getElem_mem hlt)
  rw [hmade.device] at hstores
  obtain ⟨builtin, hbuiltin⟩ := Library.builtin_of_stores hassembly hstores
  exact ⟨builtin, _, hbuiltin ▸ hmade⟩

theorem built_of_stores (hpart : (flatten library schematic).parts[index]? = some placed)
    (hstores : placed.device.stores = true) : placed.Built := by
  obtain ⟨builtin, args, hmade⟩ := builtin_of_stores hpart hstores
  exact ⟨.ofBuiltin builtin, args, _, Or.inl ⟨builtin, rfl⟩, rfl, hmade⟩

/-- A settle runs no phase that changes what is stored. -/
theorem memory_perform_ordinary {task : Task} (h : Sound (flatten library schematic) state)
    (htask : task ∈ (flatten library schematic).trace other)
    (hpart : (flatten library schematic).parts[index]? = some placed)
    (hstores : placed.device.stores = true) :
    ((state.perform (flatten library schematic) task).part index).memory =
      (state.part index).memory := by
  cases task with
  | net net => exact memory_resolve
  | phase part position =>
    rw [State.perform]
    by_cases hindex : index = part
    · subst hindex
      obtain ⟨phase, hphase⟩ := Netlist.ordinary_of_mem_trace htask
      obtain ⟨owner, howner, hfound⟩ := Netlist.part_of_phase hphase
      obtain rfl := Option.some.inj (howner.symm.trans hpart)
      obtain ⟨builtin, args, hmade⟩ := builtin_of_stores hpart hstores
      rw [memory_runPhase_stored h hpart hstores]
      -- an ordinary phase writes to probes and bridges only, which store nothing
      rcases hmade.regular_builtin.memory (state.part index) hfound hphase.2 with
        hkeep | hprobe | ⟨hbridge, -⟩
      · exact hkeep
      · rw [hprobe] at hstores
        cases hstores
      · rw [hbridge] at hstores
        cases hstores
    · rw [part_runPhase_of_ne hindex]

theorem sound_final_any (h : Sound netlist state) (hstored : Stored netlist state) :
    Sound netlist (netlist.final state) ∧ Stored netlist (netlist.final state) := by
  rw [Netlist.final_eq]
  refine foldl_perform_any _ (h.mapPins _) (hstored.congr fun index => ?_)
  exact memory_mapPins h _ index

theorem memory_final_any (h : Sound (flatten library schematic) state)
    (hpart : (flatten library schematic).parts[index]? = some placed)
    (hstores : placed.device.stores = true) :
    (((flatten library schematic).final state).part index).memory = (state.part index).memory := by
  rw [Netlist.final_eq]
  refine (List.foldlRecOn (motive := fun reached => Sound (flatten library schematic) reached ∧
      (reached.part index).memory = (state.part index).memory) _ _
    ⟨h.mapPins _, memory_mapPins h _ index⟩ fun reached hreached task htask => ?_).2
  exact ⟨hreached.1.perform_any task,
    (memory_perform_ordinary hreached.1 htask hpart hstores).trans hreached.2⟩

theorem New.blank {held : Nat → Part → Memory} (h : New netlist held state) :
    Blank netlist state where
  resolved _ _ := by rw [h.pin]
  value _ _ _ _ := by rw [h.pin]
  sides _ _ _ _ _ := by rw [h.pin]

end State

/-! ## Simulations -/

namespace Simulation

variable {library : Library} {schematic : Schematic} {simulation next : Simulation} {index : Nat}
  {placed : Part}

/-- The simulation has this circuit and its schedule, and all that is stored is proper. -/
structure Stocked (library : Library) (schematic : Schematic) (simulation : Simulation) :
    Prop where
  netlist : simulation.netlist = flatten library schematic
  schedule : simulation.schedule = compile simulation.netlist
  sound : State.Sound simulation.netlist simulation.state
  stored : State.Stored simulation.netlist simulation.state

namespace Stocked

/-- A settle reaches the final state, and may mark pins as used. -/
theorem tracked_settle (h : simulation.Stocked library schematic) :
    State.Tracked simulation.netlist (simulation.netlist.final simulation.state)
      simulation.settle.state :=
  tracked_settle_of_sound h.schedule (State.sound_final_any h.sound h.stored).1

theorem settle (h : simulation.Stocked library schematic) :
    simulation.settle.Stocked library schematic := by
  have htracked := h.tracked_settle
  obtain ⟨hsound, hstored⟩ := State.sound_final_any h.sound h.stored
  refine ⟨?_, ?_, ?_, ?_⟩
  · rw [netlist_settle, h.netlist]
  · rw [netlist_settle, schedule_settle, h.schedule]
  · rw [netlist_settle]
    exact htracked.sound hsound
  · rw [netlist_settle]
    exact hstored.congr htracked.agrees.memory

/-- A settle leaves what is stored as it is. -/
theorem memory_settle (h : simulation.Stocked library schematic)
    (hpart : (flatten library schematic).parts[index]? = some placed)
    (hstores : placed.device.stores = true) :
    (simulation.settle.state.part index).memory = (simulation.state.part index).memory := by
  rw [h.tracked_settle.agrees.memory, h.netlist]
  exact State.memory_final_any (h.netlist ▸ h.sound) hpart hstores

theorem latch (h : simulation.Stocked library schematic) :
    simulation.latch.Stocked library schematic := by
  have hfold := State.foldl_perform_any
    (simulation.schedule.latchSteps.map fun step => .phase step.1 step.2) h.sound h.stored
  rw [List.foldl_map] at hfold
  exact ⟨h.netlist, h.schedule, hfold.1, hfold.2⟩

theorem traceUsage (h : simulation.Stocked library schematic) :
    simulation.traceUsage.Stocked library schematic := by
  have htracked := State.tracked_traceUsage simulation.schedule simulation.executed h.sound
  exact ⟨h.netlist, h.schedule, htracked.sound h.sound, h.stored.congr htracked.agrees.memory⟩

theorem withUsageTracking (h : simulation.Stocked library schematic) (enabled : Bool) :
    (simulation.withUsageTracking enabled).Stocked library schematic := by
  have hkeep : ({ simulation with trackUsage := enabled } : Simulation).Stocked library schematic :=
    ⟨h.netlist, h.schedule, h.sound, h.stored⟩
  cases enabled with
  | true => exact hkeep.traceUsage
  | false => exact hkeep

theorem poked (h : simulation.Stocked library schematic) (hpoked : simulation.Poked next) :
    next.Stocked library schematic := by
  obtain ⟨index, placed, memory, hplaced, hdevice, rfl⟩ := hpoked
  have hfits := hdevice.fits (h.sound.fits hplaced)
  have hsound := (State.sound_setMemory h.sound fun owner howner =>
    Option.some.inj (hplaced.symm.trans howner) ▸ hfits).1
  refine ⟨h.netlist, h.schedule, hsound, fun other owner howner hstores => ?_⟩
  have hproper := h.stored other owner howner hstores
  rw [setMemory, State.memory_setPart h.sound hplaced]
  split
  · next hother =>
    subst hother
    obtain rfl := Option.some.inj (hplaced.symm.trans howner)
    exact hdevice.proper hproper
  · exact hproper

theorem step (h : simulation.Stocked library schematic) :
    simulation.step.Stocked library schematic := by
  obtain ⟨-, hstep⟩ | ⟨-, -, hstep⟩ | ⟨-, -, hstep⟩ := simulation.step_cases <;> rw [hstep]
  · exact h
  · exact h.latch
  · exact h.latch.settle

theorem reset (h : simulation.Stocked library schematic) (hard : Bool) :
    (simulation.reset hard).Stocked library schematic :=
  settle ⟨h.netlist, h.schedule, (State.sound_reset h.sound hard).1, h.stored.cleared h.sound hard⟩

end Stocked

/-! ### New circuits -/

theorem Pristine.stocked {previous : Option Simulation}
    (h : simulation.Pristine previous library schematic) :
    simulation.Stocked library schematic := by
  refine ⟨h.netlist, h.schedule, h.sound, fun index placed hpart hstores => ?_⟩
  rw [h.new.memory hpart]
  rw [h.netlist] at hpart
  have hbuilt := State.built_of_stores hpart hstores
  cases previous with
  | none => exact hbuilt.proper_fresh
  | some previous => exact State.proper_carriedMemory hbuilt ..

/-- A simulation was new at some point and has been operated since. -/
theorem Occurs.exists_run (h : simulation.Occurs library schematic) :
    ∃ before, (∃ previous, Pristine previous library schematic before) ∧
      before.settle.Continues simulation := by
  induction h with
  | start hstart =>
    obtain ⟨before, hbefore, rfl⟩ := exists_pristine_start hstart
    exact ⟨before, ⟨_, hbefore⟩, .refl⟩
  | startFrom _ hstart _ =>
    obtain ⟨before, hbefore, rfl⟩ := exists_pristine_startFrom hstart
    exact ⟨before, ⟨_, hbefore⟩, .refl⟩
  | rebuild _ hnext _ =>
    obtain ⟨before, hbefore, rfl⟩ := exists_pristine_rebuild hnext
    exact ⟨before, ⟨_, hbefore⟩, .refl⟩
  | withUsageTracking enabled _ ih => exact ih.imp fun _ => .imp_right (.withUsageTracking enabled)
  | traceUsage _ ih => exact ih.imp fun _ => .imp_right .traceUsage
  | setInput _ hnext ih => exact ih.imp fun _ => .imp_right (.setInput · hnext)
  | writeRam _ hnext ih => exact ih.imp fun _ => .imp_right (.writeRam · hnext)
  | settle _ ih => exact ih.imp fun _ => .imp_right .settle
  | latch _ ih => exact ih.imp fun _ => .imp_right .latch
  | step _ ih => exact ih.imp fun _ => .imp_right .step
  | reset hard _ ih => exact ih.imp fun _ => .imp_right (.reset hard)

theorem Continues.stocked (h : simulation.Continues next)
    (hfirst : simulation.Stocked library schematic) : next.Stocked library schematic := by
  induction h with
  | refl => exact hfirst
  | withUsageTracking enabled _ ih => exact ih.withUsageTracking enabled
  | traceUsage _ ih => exact ih.traceUsage
  | setInput _ hnext ih =>
    rcases setInput_poked hnext with rfl | hpoked
    · exact ih
    · exact ih.poked hpoked
  | writeRam _ hnext ih =>
    rcases writeRam_poked hnext with rfl | hpoked
    · exact ih
    · exact ih.poked hpoked
  | settle _ ih => exact ih.settle
  | latch _ ih => exact ih.latch
  | step _ ih => exact ih.step
  | reset hard _ ih => exact ih.reset hard

/-- Whatever has been done with a simulation, and whatever its circuit consists of, all
that is stored is proper. -/
theorem Occurs.stocked (h : simulation.Occurs library schematic) :
    simulation.Stocked library schematic := by
  obtain ⟨before, ⟨_, hbefore⟩, hcontinues⟩ := h.exists_run
  exact hcontinues.stocked hbefore.stocked.settle

theorem Occurs.coherent (h : simulation.Occurs library schematic) (hnative : library.Native) :
    simulation.Coherent := by
  obtain ⟨before, ⟨_, hbefore⟩, hcontinues⟩ := h.exists_run
  exact hcontinues.coherent (hbefore.coherent hnative).settle

theorem Occurs.blank (h : simulation.Occurs library schematic) (hnative : library.Native) :
    State.Blank simulation.netlist simulation.state := by
  obtain ⟨before, ⟨_, hbefore⟩, hcontinues⟩ := h.exists_run
  have hcoherent := hbefore.coherent hnative
  rw [hcontinues.netlist]
  refine hcontinues.lasting State.kept_blank.lasting hcoherent.settle ?_
  exact hcoherent.kept_settle State.kept_blank hbefore.new.blank

/-- A circuit that has come about can be run. -/
theorem Occurs.fault?_eq_none (h : simulation.Occurs library schematic) :
    (flatten library schematic).fault? = none := by
  induction h with
  | start hstart => exact (start_eq_ok_iff.mp hstart).1
  | startFrom _ hstart _ => exact (startFrom_eq_ok_iff.mp hstart).1
  | rebuild _ hnext _ => exact (rebuild_eq_ok_iff.mp hnext).1
  | _ => assumption

/-- What a part of a rebuilt circuit stores is what it took over, or the first contents. -/
theorem memory_rebuild (hnext : simulation.rebuild library schematic = .ok next)
    (hpart : (flatten library schematic).parts[index]? = some placed)
    (hstores : placed.device.stores = true) :
    (next.state.part index).memory = State.carriedMemory simulation.netlist simulation.state
      (flatten library schematic) index placed := by
  obtain ⟨before, hbefore, rfl⟩ := exists_pristine_rebuild hnext
  rw [hbefore.stocked.memory_settle hpart hstores, hbefore.new.memory (hbefore.netlist ▸ hpart),
    hbefore.netlist]
  rfl

end Simulation

end Breadboard
