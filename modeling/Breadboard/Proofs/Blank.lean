import Breadboard.Proofs.Voices

/-!
# Pins that never get a value

A pin that no net tells anything, and that no phase gives a value, shows zero in
every reachable state (`State.Blank`). So do the sides of a bridge to which nothing
is wired, for a bridge only carries over what it finds on the other side.

`Simulation.Reachable.kept` is what this rests on: a property that holds of new
pins, that every task keeps, and that is about what can be seen of pins alone,
holds in every reachable state.
-/

namespace Breadboard

/-! ## Properties of reachable states -/

/-- A property of states that holds whatever is done with a simulation. -/
structure State.Kept (P : Netlist → State → Prop) : Prop where
  cleared : ∀ {netlist : Netlist} {state : State}, State.Sound netlist state →
    (∀ part ∈ state.parts, ∀ pin ∈ part.pins, pin.value = 0 ∧ pin.resolved = true) →
    P netlist state
  perform : ∀ {netlist : Netlist} {state : State}, netlist.Flat → State.Sound netlist state →
    P netlist state → ∀ task, P netlist (state.perform netlist task)
  looks : ∀ {netlist : Netlist} {first second : State}, netlist.Flat → P netlist first →
    (∀ ref port, netlist.port? ref = some port → second.look ref = first.look ref) →
    P netlist second

namespace State

variable {P : Netlist → State → Prop} {netlist : Netlist} {state : State}

theorem Kept.foldl_perform (hkept : Kept P) (hflat : netlist.Flat) :
    ∀ (tasks : List Task) {state : State}, Sound netlist state → P netlist state →
      P netlist (tasks.foldl (State.perform netlist) state) := by
  intro tasks
  induction tasks with
  | nil => exact fun _ h => h
  | cons task tasks ih =>
    exact fun h hstate => ih (h.perform hflat.wired.native) (hkept.perform hflat h hstate task)

theorem Kept.begun (hkept : Kept P) (hflat : netlist.Flat) (h : Sound netlist state)
    (hstate : P netlist state) : P netlist (netlist.begun state) := by
  refine hkept.looks hflat hstate fun ref port hport => ?_
  rw [look, look, Netlist.pin_begun h hport]

theorem Kept.after (hkept : Kept P) (hflat : netlist.Flat) (h : Sound netlist state)
    (hstate : P netlist state) (tasks : List Task) : P netlist (netlist.after state tasks) :=
  hkept.foldl_perform hflat tasks (h.mapPins _) (hkept.begun hflat h hstate)

theorem Kept.matches {other : State} (hkept : Kept P) (hflat : netlist.Flat)
    (hstate : P netlist state) (h : other.Matches state) : P netlist other :=
  hkept.looks hflat hstate fun ref _ _ => by rw [look, look, h.value, h.resolved]

theorem cleared_new {state : State}
    (h : ∀ part ∈ state.parts, ∃ placed : Part, part.pins = placed.ports.map fun _ => {}) :
    ∀ part ∈ state.parts, ∀ pin ∈ part.pins, pin.value = 0 ∧ pin.resolved = true := by
  intro part hpart pin hpin
  obtain ⟨placed, hpins⟩ := h part hpart
  rw [hpins] at hpin
  obtain ⟨-, -, rfl⟩ := List.mem_map.mp hpin
  exact ⟨rfl, rfl⟩

end State

namespace Simulation

variable {P : Netlist → State → Prop} {simulation : Simulation}

theorem Coherent.kept_settle (hkept : State.Kept P) (h : simulation.Coherent)
    (hstate : P simulation.netlist simulation.state) :
    P simulation.settle.netlist simulation.settle.state := by
  rw [netlist_settle]
  refine hkept.matches h.flat ?_ h.tracked_settle.agrees
  rw [Netlist.final_eq]
  exact hkept.after h.flat h.sound hstate _

theorem Coherent.kept_latch (hkept : State.Kept P) (h : simulation.Coherent)
    (hstate : P simulation.netlist simulation.state) :
    P simulation.latch.netlist simulation.latch.state := by
  have hfold := hkept.foldl_perform h.flat
    (simulation.schedule.latchSteps.map fun step => .phase step.1 step.2) h.sound hstate
  rw [List.foldl_map] at hfold
  exact hfold

theorem Coherent.kept_setMemory (hkept : State.Kept P) (h : simulation.Coherent) (index : Nat)
    (memory : Memory) (hstate : P simulation.netlist simulation.state) :
    P (simulation.setMemory index memory).netlist (simulation.setMemory index memory).state := by
  refine hkept.looks h.flat hstate fun ref port hport => ?_
  have hpin : (simulation.setMemory index memory).state.pin ref = simulation.state.pin ref := by
    by_cases hne : ref.part = index
    · subst hne
      have hlt := (h.sound.has hport).1
      rw [State.pin, Simulation.setMemory]
      dsimp only
      rw [State.part_setPart_self _ _ hlt]
      rfl
    · rw [State.pin, Simulation.setMemory]
      dsimp only
      rw [State.part_setPart_of_ne _ _ (Ne.symm hne), State.pin]
  rw [State.look, State.look, hpin]

theorem kept_ofState (hkept : State.Kept P) {netlist : Netlist} {state : State}
    (hflat : netlist.Flat) (hstate : State.Sound netlist state ∧ State.Loose netlist state)
    (hcleared : ∀ part ∈ state.parts, ∀ pin ∈ part.pins, pin.value = 0 ∧ pin.resolved = true) :
    P (ofState netlist state).netlist (ofState netlist state).state :=
  let simulation : Simulation := { netlist, schedule := compile netlist, state }
  have hcoherent : simulation.Coherent := ⟨hflat, rfl, hstate.1, hstate.2⟩
  hcoherent.kept_settle hkept (hkept.cleared hstate.1 hcleared)

theorem cleared_fresh (netlist : Netlist) : ∀ part ∈ (State.fresh netlist).parts,
    ∀ pin ∈ part.pins, pin.value = 0 ∧ pin.resolved = true := by
  refine State.cleared_new fun part hpart => ?_
  obtain ⟨placed, -, rfl⟩ := List.mem_map.mp hpart
  exact ⟨placed, rfl⟩

theorem cleared_carriedOver (previous : Netlist) (state : State) (netlist : Netlist) :
    ∀ part ∈ (State.carriedOver previous state netlist).parts, ∀ pin ∈ part.pins,
      pin.value = 0 ∧ pin.resolved = true := by
  refine State.cleared_new fun part hpart => ?_
  obtain ⟨⟨placed, index⟩, -, rfl⟩ := List.mem_map.mp hpart
  exact ⟨placed, rfl⟩

theorem Coherent.kept_reset (hkept : State.Kept P) (h : simulation.Coherent) (hard : Bool) :
    P (simulation.reset hard).netlist (simulation.reset hard).state := by
  obtain ⟨hsound, hloose⟩ := State.sound_reset h.sound hard
  unfold Simulation.reset
  dsimp only
  refine Coherent.kept_settle hkept ⟨h.flat, h.schedule, hsound, hloose⟩
    (hkept.cleared hsound fun part hpart pin hpin => ?_)
  obtain ⟨⟨placed, held⟩, -, rfl⟩ := List.mem_map.mp hpart
  obtain ⟨before, -, rfl⟩ := List.mem_map.mp hpin
  exact ⟨rfl, rfl⟩

theorem Coherent.kept_rebuild (hkept : State.Kept P) {next : Simulation} {library : Library}
    {schematic : Schematic} (hnative : library.Native)
    (hnext : simulation.rebuild library schematic = .ok next) : P next.netlist next.state := by
  obtain ⟨-, rfl⟩ := rebuild_eq_ok_iff.mp hnext
  obtain ⟨hsound, hloose⟩ := State.sound_carriedOver simulation.netlist simulation.state
    (flatten library schematic) simulation.state.status
  exact Coherent.kept_settle hkept ⟨⟨library, schematic, hnative, rfl⟩, rfl, hsound, hloose⟩
    (hkept.cleared hsound (cleared_carriedOver _ _ _))

theorem kept_traceUsage (hkept : State.Kept P) (h : simulation.Coherent)
    (hstate : P simulation.netlist simulation.state) :
    P simulation.traceUsage.netlist simulation.traceUsage.state :=
  hkept.matches h.flat hstate
    (State.tracked_traceUsage simulation.schedule simulation.executed h.sound).agrees

/-- A kept property holds of every reachable simulation. -/
theorem Reachable.kept (hkept : State.Kept P) (h : simulation.Reachable) :
    P simulation.netlist simulation.state := by
  induction h with
  | start hnative hstart =>
    obtain ⟨-, rfl⟩ := start_eq_ok_iff.mp hstart
    exact kept_ofState hkept ⟨_, _, hnative, rfl⟩ (State.sound_fresh _) (cleared_fresh _)
  | startFrom _ hnative hstart =>
    obtain ⟨-, rfl⟩ := startFrom_eq_ok_iff.mp hstart
    exact kept_ofState hkept ⟨_, _, hnative, rfl⟩ (State.sound_carriedOver _ _ _ .running)
      (cleared_carriedOver _ _ _)
  | withUsageTracking enabled hbefore ih =>
    have h := hbefore.coherent
    have hkeep : ∀ simulation : Simulation, simulation.Coherent → ∀ enabled : Bool,
        P simulation.netlist simulation.state →
        P { simulation with trackUsage := enabled }.traceUsage.netlist
          { simulation with trackUsage := enabled }.traceUsage.state :=
      fun simulation h enabled hstate =>
        kept_traceUsage hkept ⟨h.flat, h.schedule, h.sound, h.loose⟩ hstate
    cases enabled with
    | true => exact hkeep _ h _ ih
    | false => exact ih
  | traceUsage hbefore ih => exact kept_traceUsage hkept hbefore.coherent ih
  | setInput hbefore hnext ih =>
    rcases setInput_poked hnext with rfl | ⟨_, _, _, -, -, rfl⟩
    · exact ih
    · exact hbefore.coherent.kept_setMemory hkept _ _ ih
  | writeRam hbefore hnext ih =>
    rcases writeRam_poked hnext with rfl | ⟨_, _, _, -, -, rfl⟩
    · exact ih
    · exact hbefore.coherent.kept_setMemory hkept _ _ ih
  | settle hbefore ih => exact hbefore.coherent.kept_settle hkept ih
  | latch hbefore ih => exact hbefore.coherent.kept_latch hkept ih
  | step hbefore ih =>
    have hlatch := hbefore.coherent.kept_latch hkept ih
    obtain ⟨-, hstep⟩ | ⟨-, -, hstep⟩ | ⟨-, -, hstep⟩ := Simulation.step_cases _ <;> rw [hstep]
    · exact ih
    · exact hlatch
    · exact hbefore.coherent.latch.kept_settle hkept hlatch
  | reset hard hbefore _ => exact hbefore.coherent.kept_reset hkept hard
  | rebuild _ hnative hnext => exact Coherent.kept_rebuild hkept hnative hnext

end Simulation

/-! ## Blank pins -/

/-- No net tells the pin anything. -/
def Netlist.Untold (netlist : Netlist) (ref : PortRef) : Prop :=
  ∀ index, ref ∉ (netlist.nets.getD index default).targets

/-- Pins that nothing reaches are as they were made. -/
structure State.Blank (netlist : Netlist) (state : State) : Prop where
  resolved : ∀ {ref : PortRef} {port : Port}, netlist.port? ref = some port →
    netlist.Untold ref → (state.pin ref).resolved = true
  value : ∀ {ref : PortRef} {port : Port} {placed : Part}, netlist.port? ref = some port →
    netlist.parts[ref.part]? = some placed → netlist.Untold ref →
    placed.device.Mute placed.ports ref.port → (state.pin ref).value = 0
  sides : ∀ {part : Nat} {placed : Part}, netlist.parts[part]? = some placed →
    placed.device = .bridge → netlist.Untold ⟨part, 2⟩ → netlist.Untold ⟨part, 3⟩ →
    ∀ forward, (state.pin ⟨part, (Device.bridgeSides forward).1⟩).value = 0

namespace State

variable {netlist : Netlist} {state : State} {ref : PortRef} {port : Port} {placed : Part}

theorem value_pin_of_cleared
    (h : ∀ part ∈ state.parts, ∀ pin ∈ part.pins, pin.value = 0 ∧ pin.resolved = true)
    (ref : PortRef) : (state.pin ref).value = 0 ∧ (state.pin ref).resolved = true := by
  rw [State.pin, State.part, PartState.pin, List.getD_eq_getElem?_getD, List.getD_eq_getElem?_getD]
  cases hpart : state.parts[ref.part]? with
  | none => exact ⟨rfl, rfl⟩
  | some part =>
    rw [Option.getD_some]
    cases hpin : part.pins[ref.port]? with
    | none => exact ⟨rfl, rfl⟩
    | some pin => exact h part (List.mem_of_getElem? hpart) pin (List.mem_of_getElem? hpin)

/-- Only a phase of its part concerns a pin that no net tells anything, and it
gives it the value of an edit. -/
theorem look_perform (hwired : netlist.Wired) (h : Sound netlist state)
    (hport : netlist.port? ref = some port) (huntold : netlist.Untold ref) (task : Task) :
    (state.perform netlist task).look ref = state.look ref ∨
      ∃ position, task = .phase ref.part position ∧
        (state.perform netlist task).look ref =
          (((state.effect netlist ref.part position).edit ref.port).told.getD
            (state.pin ref).value, (state.pin ref).resolved) := by
  cases task with
  | net index =>
    rw [look, pin_net h hport (huntold index)]
    exact Or.inl rfl
  | phase part position =>
    by_cases hne : ref.part = part
    · subst hne
      refine Or.inr ⟨position, rfl, ?_⟩
      rw [look, pin_phase hwired h hport, Edit.value_apply, Edit.resolved_apply]
    · rw [look, pin_phase_of_ne hwired hne]
      exact Or.inl rfl

theorem Blank.perform (hwired : netlist.Wired) (h : Sound netlist state)
    (hblank : Blank netlist state) (task : Task) : Blank netlist (state.perform netlist task) := by
  refine ⟨fun {ref port} hport huntold => ?_, fun {ref port placed} hport hpart huntold hmute => ?_,
    fun {part placed} hpart hbridge huntold huntold' forward => ?_⟩
  · rcases look_perform hwired h hport huntold task with hlook | ⟨position, -, hlook⟩
    · exact (Prod.mk.inj hlook).2.trans (hblank.resolved hport huntold)
    · exact (Prod.mk.inj hlook).2.trans (hblank.resolved hport huntold)
  · rcases look_perform hwired h hport huntold task with hlook | ⟨position, -, hlook⟩
    · exact (Prod.mk.inj hlook).1.trans (hblank.value hport hpart huntold hmute)
    · rw [(Prod.mk.inj hlook).1, effect_eq hpart, hmute position _]
      exact hblank.value hport hpart huntold hmute
  · have hzero := hblank.sides hpart hbridge huntold huntold'
    obtain ⟨source, -, hsource, -⟩ := Netlist.bridge_ports hwired hpart hbridge forward
    have hside : netlist.Untold ⟨part, (Device.bridgeSides forward).1⟩ := by
      cases forward
      · exact huntold'
      · exact huntold
    rcases look_perform hwired h hsource hside task with hlook | ⟨position, -, hlook⟩
    · exact (Prod.mk.inj hlook).1.trans (hzero forward)
    · rw [(Prod.mk.inj hlook).1, effect_eq hpart, hbridge]
      cases htold : ((Device.bridge.effect placed.ports position (state.part part)).edit
          (Device.bridgeSides forward).1).told with
      | none => exact hzero forward
      | some word =>
        obtain ⟨forward, -, hvalue⟩ := Device.told_bridge htold
        exact hvalue.symm.trans (hzero forward)

theorem kept_blank : Kept Blank where
  cleared := fun _ hcleared =>
    have hpin := value_pin_of_cleared hcleared
    ⟨fun _ _ => (hpin _).2, fun _ _ _ _ => (hpin _).1, fun _ _ _ _ _ => (hpin _).1⟩
  perform := fun hflat h hblank task => hblank.perform hflat.wired h task
  looks := fun {netlist first second} hflat hblank hlooks => by
    refine ⟨fun hport huntold => ?_, fun hport hpart huntold hmute => ?_,
      fun {part placed} hpart hbridge huntold huntold' forward => ?_⟩
    · exact (Prod.mk.inj (hlooks _ _ hport)).2.trans (hblank.resolved hport huntold)
    · exact (Prod.mk.inj (hlooks _ _ hport)).1.trans (hblank.value hport hpart huntold hmute)
    · obtain ⟨source, -, hsource, -⟩ := Netlist.bridge_ports hflat.wired hpart hbridge forward
      exact (Prod.mk.inj (hlooks _ _ hsource)).1.trans
        (hblank.sides hpart hbridge huntold huntold' forward)

end State

end Breadboard
