import Breadboard.Proofs.Storage
import Breadboard.Proofs.Untrapped

/-!
# Usage tracking is inert

Forgetting which pins were used commutes with everything that a circuit does: no device
looks at the usage of its pins, and neither does the resolution of nets
(`State.unmarked_perform`). So a settle of a state without marks is the settle of the
state, without its marks (`unmarked_settle`). Finding out what was used starts from a
state without marks and adds some, so it changes nothing else, and what it adds does not depend
on what was there (`State.unmarked_traceUsage`, `State.traceUsage_congr`). Two simulations that
differ in marks at most therefore still do so after any request, whether or not usage is
tracked in either (`Simulation.plain_serve`), and give the same replies
(`Simulation.usage_tracking_is_inert`).
-/

namespace Breadboard

/-! ## Pins and parts -/

namespace Pin

/-- The change of a pin does not look at its usage, and leaves it as it is. -/
def Blind (f : Pin → Pin) : Prop :=
  ∀ pin, f pin.unmarked = (f pin).unmarked

variable {pin : Pin}

@[simp] theorem unmarked_unmarked : pin.unmarked.unmarked = pin.unmarked := rfl

theorem blind_withValue (value : Word) : Blind (withValue value) := fun _ => rfl

theorem blind_drive (bidirectional : Bool) (value : Option Word) :
    Blind (drive bidirectional value) := fun _ => by cases value <;> rfl

end Pin

namespace PartState

/-- The part as if none of its pins had been used. -/
def unmarked (held : PartState) : PartState :=
  { held with pins := held.pins.map Pin.unmarked }

variable {held : PartState} {f : Pin → Pin}

@[simp] theorem memory_unmarked : held.unmarked.memory = held.memory := rfl

@[simp] theorem unmarked_unmarked : held.unmarked.unmarked = held.unmarked := by
  simp [unmarked, Function.comp_def]

theorem unmarked_pin (held : PartState) (index : Nat) :
    (held.unmarked.pin index).unmarked = (held.pin index).unmarked := by
  rw [pin, pin, unmarked, List.getD_eq_getElem?_getD, List.getD_eq_getElem?_getD,
    List.getElem?_map]
  cases held.pins[index]? <;> rfl

@[simp] theorem value_pin_unmarked (index : Nat) :
    (held.unmarked.pin index).value = (held.pin index).value :=
  (Pin.unmarked_eq_iff.mp (held.unmarked_pin index)).1

@[simp] theorem resolved_pin_unmarked (index : Nat) :
    (held.unmarked.pin index).resolved = (held.pin index).resolved :=
  (Pin.unmarked_eq_iff.mp (held.unmarked_pin index)).2.2.2

theorem unmarked_update (hf : Pin.Blind f) (held : PartState) (index : Nat) :
    (held.update index f).unmarked = held.unmarked.update index f :=
  congrArg (PartState.mk · held.memory) (map_modify (fun pin => (hf pin).symm) held.pins index)

/-- A mark is nothing that stays. -/
theorem unmarked_update_markUsed (held : PartState) (index : Nat) :
    (held.update index Pin.markUsed).unmarked = held.unmarked := by
  have hmark : ∀ pin : Pin, pin.markUsed.unmarked = pin.unmarked := fun _ => rfl
  exact congrArg (PartState.mk · held.memory) (map_modify_of_blind hmark held.pins index)

end PartState

/-! ## Devices -/

/-- Both results of running a part, the part as if none of its pins had been used. -/
def unmarkedRun (result : PartState × Status) : PartState × Status :=
  (result.1.unmarked, result.2)

theorem Action.run_unmarked (ports : List Port) (action : Action Nat)
    (state : PartState × Status) :
    action.run ports (unmarkedRun state) = unmarkedRun (action.run ports state) := by
  obtain ⟨held, status⟩ := state
  cases action with
  | add target sources offset =>
    simp [run, unmarkedRun, PartState.unmarked_update (Pin.blind_withValue _)]
  | drive target source enable =>
    simp [run, unmarkedRun, PartState.unmarked_update (Pin.blind_drive _ _)]
  | ignore pin =>
    have hf : Pin.Blind fun pin => { pin with enabled := false } := fun _ => rfl
    simp [run, unmarkedRun, PartState.unmarked_update hf]
  | store source =>
    simp only [run, unmarkedRun, PartState.value_pin_unmarked]
    rfl
  | load target =>
    simp only [run, unmarkedRun, PartState.memory_unmarked]
    split
    · rw [PartState.unmarked_update (Pin.blind_withValue _)]
    · rfl
  | halt pin reason =>
    simp only [run, unmarkedRun, PartState.value_pin_unmarked]
    split <;> rfl

theorem Edit.blind_apply (edit : Edit) : Pin.Blind edit.apply := by
  cases edit with
  | drive bidirectional value => exact Pin.blind_drive bidirectional value
  | _ => exact fun _ => rfl

theorem Effect.apply_unmarked (effect : Effect) (held : PartState) :
    effect.apply held.unmarked = (effect.apply held).unmarked := by
  refine congrArg (PartState.mk · effect.memory) (List.ext_getElem? fun index => ?_)
  simp only [PartState.unmarked, apply, List.getElem?_mapIdx, List.getElem?_map, Option.map_map]
  exact congrArg (Option.map · _) (funext fun pin => (effect.edit index).blind_apply pin)

/-- What a phase does depends on values and on what is resolved, not on usage. -/
theorem Device.effect_unmarked (device : Device) (ports : List Port) (phase : Nat)
    (held : PartState) :
    device.effect ports phase held.unmarked = device.effect ports phase held := by
  unfold effect
  simp only [PartState.memory_unmarked, PartState.value_pin_unmarked, passed,
    PartState.resolved_pin_unmarked]

/-- No device looks at the usage of its pins. -/
theorem Device.run_unmarked (device : Device) (ports : List Port) (phase : Nat)
    (held : PartState) (status : Status) :
    device.run ports phase held.unmarked status =
      unmarkedRun (device.run ports phase held status) := by
  by_cases hnative : device.Native
  · rw [run_eq hnative, run_eq hnative, effect_unmarked, Effect.apply_unmarked]
    rfl
  · cases device with
    | scripted persistent phases =>
      change (phases.getD phase []).foldl _ (unmarkedRun (held, status)) = _
      refine List.foldl_hom unmarkedRun ?_
      exact fun state action => Action.run_unmarked ports action state
    | _ => exact absurd trivial hnative

/-! ## States -/

namespace State

/-- The state as if no pin had been used. -/
def unmarked (state : State) : State :=
  { state with parts := state.parts.map PartState.unmarked }

variable {netlist : Netlist} {state first second : State} {f : Pin → Pin} {index : Nat}
  {ref : PortRef}

@[simp] theorem status_unmarked : state.unmarked.status = state.status := rfl

theorem part_unmarked (state : State) (index : Nat) :
    state.unmarked.part index = (state.part index).unmarked := by
  rw [part, part, unmarked, List.getD_eq_getElem?_getD, List.getD_eq_getElem?_getD,
    List.getElem?_map]
  cases state.parts[index]? <;> rfl

theorem unmarked_pin (state : State) (ref : PortRef) :
    (state.unmarked.pin ref).unmarked = (state.pin ref).unmarked := by
  rw [pin, part_unmarked]
  exact PartState.unmarked_pin ..

theorem unmarked_setPart (state : State) (index : Nat) (held : PartState) :
    (state.setPart index held).unmarked = state.unmarked.setPart index held.unmarked :=
  congrArg (State.mk · state.nets state.status) List.map_set

theorem unmarked_updatePin (hf : Pin.Blind f) (state : State) (ref : PortRef) :
    (state.updatePin f ref).unmarked = state.unmarked.updatePin f ref :=
  congrArg (State.mk · state.nets state.status)
    (map_modify (fun held => PartState.unmarked_update hf held ref.port) state.parts ref.part)

theorem unmarked_foldl_updatePin (hf : Pin.Blind f) (refs : List PortRef) (state : State) :
    (refs.foldl (·.updatePin f) state).unmarked = refs.foldl (·.updatePin f) state.unmarked :=
  (List.foldl_hom unmarked fun state ref => (unmarked_updatePin hf state ref).symm).symm

theorem isDriving_unmarked (netlist : Netlist) (state : State) (ref : PortRef) :
    Net.isDriving netlist state.unmarked ref = Net.isDriving netlist state ref := by
  have hsame := Pin.unmarked_eq_iff.mp (state.unmarked_pin ref)
  rw [Net.isDriving, Net.isDriving, Pin.drives, Pin.drives, hsame.2.1, hsame.2.2.1]

theorem driving_unmarked (netlist : Netlist) (state : State) (net : Net) :
    net.driving netlist state.unmarked = net.driving netlist state :=
  List.filter_congr fun ref _ => isDriving_unmarked netlist state ref

theorem unmarked_resolve (netlist : Netlist) (index : Nat) (state : State) :
    (state.resolve netlist index).unmarked = state.unmarked.resolve netlist index := by
  have hshow : ∀ value, Pin.Blind fun pin => { pin with value, resolved := true } :=
    fun _ _ => rfl
  have hhide : Pin.Blind fun pin => { pin with resolved := false } := fun _ => rfl
  have hfan : ∀ net value count, (state.fanOut index net value count).unmarked =
      state.unmarked.fanOut index net value count := fun net value count =>
    unmarked_foldl_updatePin (hshow value) ..
  have hopen : ∀ net count, (state.leaveOpen index net count).unmarked =
      state.unmarked.leaveOpen index net count := fun net count =>
    unmarked_foldl_updatePin hhide ..
  have hvalue : ∀ ref, (state.unmarked.pin ref).value = (state.pin ref).value := fun ref =>
    (Pin.unmarked_eq_iff.mp (state.unmarked_pin ref)).1
  unfold resolve
  dsimp only
  rw [driving_unmarked]
  split
  · split
    · rw [hfan, hvalue]
    · rw [hopen]
  · split
    · rw [hfan, hvalue]
    · rw [hfan]

theorem unmarked_runPhase (netlist : Netlist) (part phase : Nat) (state : State) :
    (state.runPhase netlist part phase).unmarked = state.unmarked.runPhase netlist part phase := by
  unfold runPhase
  dsimp only
  rw [part_unmarked, status_unmarked, Device.run_unmarked]
  generalize (netlist.parts.getD part default).device.run _ phase (state.part part) state.status =
    result
  exact congrArg (fun after : State => { after with status := result.2 })
    (unmarked_setPart state part result.1)

/-- Nothing that a circuit does looks at usage. -/
theorem unmarked_perform (netlist : Netlist) (state : State) (task : Task) :
    (state.perform netlist task).unmarked = state.unmarked.perform netlist task := by
  cases task with
  | phase part phase => exact unmarked_runPhase ..
  | net index => exact unmarked_resolve ..

theorem unmarked_mapPins {f : Port → Pin → Pin} (hf : ∀ port, Pin.Blind (f port))
    (netlist : Netlist) (state : State) :
    (state.mapPins netlist f).unmarked = state.unmarked.mapPins netlist f := by
  have hpins : ∀ (part : Part) (held : PartState),
      ((part.ports.zip held.pins).map fun entry => f entry.1 entry.2).map Pin.unmarked =
        (part.ports.zip held.unmarked.pins).map fun entry => f entry.1 entry.2 := by
    intro part held
    rw [PartState.unmarked, List.zip_map_right, List.map_map, List.map_map]
    exact List.map_congr_left fun entry _ => (hf entry.1 entry.2).symm
  unfold unmarked mapPins
  simp only [List.zip_map_right, List.map_map]
  refine congrArg (State.mk · state.nets state.status) (List.map_congr_left fun entry _ => ?_)
  exact congrArg (PartState.mk · entry.2.memory) (hpins entry.1 entry.2)

end State

/-! ## Settling -/

namespace Settling

/-- The settle under way as if no pin had been used. -/
def unmarked (settling : Settling) : Settling :=
  { settling with state := settling.state.unmarked }

variable {netlist : Netlist} {schedule : Schedule} {settling : Settling}

theorem applies_unmarked (netlist : Netlist) (state : State) (task : Task) (trigger : Trigger) :
    applies netlist state.unmarked task trigger = applies netlist state task trigger := by
  cases trigger with
  | fired => rfl
  | driving port =>
    cases task with
    | phase part position => exact State.isDriving_unmarked ..
    | net index => rfl

theorem unmarked_runStep (netlist : Netlist) (settling : Settling) (step : Step) :
    (settling.runStep netlist step).unmarked = settling.unmarked.runStep netlist step := by
  unfold runStep
  dsimp only
  have hperform : settling.unmarked.state.perform netlist step.task =
      (settling.state.perform netlist step.task).unmarked :=
    (State.unmarked_perform netlist settling.state step.task).symm
  simp only [hperform, applies_unmarked]
  exact (List.foldl_hom unmarked fun _ _ => rfl).symm

theorem unmarked_runBlock (netlist : Netlist) (schedule : Schedule) (firing : Firing)
    (settling : Settling) : (settling.runBlock netlist schedule firing).unmarked =
      settling.unmarked.runBlock netlist schedule firing := by
  have hsteps : ∀ (steps : List Step) (settling : Settling),
      (steps.foldl (runStep netlist) settling).unmarked =
        steps.foldl (runStep netlist) settling.unmarked := fun steps settling =>
    (List.foldl_hom unmarked fun settling step =>
      (unmarked_runStep netlist settling step).symm).symm
  have hnext : ∀ (blocks : List Nat) (settling : Settling),
      (blocks.foldl (fun settling next => settling.decrement next 0) settling).unmarked =
        blocks.foldl (fun settling next => settling.decrement next 0) settling.unmarked :=
    fun blocks settling => (List.foldl_hom unmarked fun _ _ => rfl).symm
  unfold runBlock
  dsimp only
  rw [hnext, hsteps]
  rfl

theorem next_unmarked (settling : Settling) :
    settling.unmarked.next = settling.next.map fun turn => (turn.1, turn.2.unmarked) := by
  obtain ⟨state, progress, queue, firings⟩ := settling
  cases queue with
  | cons block queue => rfl
  | nil =>
    simp only [unmarked, next, Option.map_map]
    rfl

theorem unmarked_advance (netlist : Netlist) (schedule : Schedule) : ∀ (turns : Nat)
    (settling : Settling), (settling.advance netlist schedule turns).unmarked =
      settling.unmarked.advance netlist schedule turns := by
  intro turns
  induction turns with
  | zero => exact fun _ => rfl
  | succ turns ih =>
    intro settling
    rw [advance, advance, next_unmarked]
    cases settling.next with
    | none => rfl
    | some turn =>
      simp only [Option.map_some]
      rw [ih, unmarked_runBlock]

end Settling

/-- A settle of a state without marks is the settle of the state, without its marks. -/
theorem settle_unmarked (netlist : Netlist) (schedule : Schedule) (state : State) :
    settle netlist schedule state.unmarked =
      ((settle netlist schedule state).1.unmarked, (settle netlist schedule state).2) := by
  have hstart : Settling.start netlist schedule state.unmarked =
      (Settling.start netlist schedule state).unmarked := by
    have hclear : ∀ port : Port, Pin.Blind fun pin =>
        { pin with enabled := !port.type.tristate } := fun _ _ => rfl
    simp only [Settling.start, Settling.unmarked, State.unmarked_mapPins hclear]
  unfold settle
  dsimp only
  rw [hstart, ← Settling.unmarked_advance]
  rfl

/-! ## Finding out what was used -/

namespace State

/-- The state has a pin for each port of each part. -/
def Shaped (netlist : Netlist) (state : State) : Prop :=
  List.Forall₂ (fun (part : Part) held => part.ports.length = held.pins.length) netlist.parts
    state.parts

variable {netlist : Netlist} {state first second : State}

theorem unmarked_unmarked (state : State) : state.unmarked.unmarked = state.unmarked := by
  simp [unmarked, Function.comp_def]

theorem Sound.shaped (h : Sound netlist state) : Shaped netlist state := by
  refine List.forall₂_iff_get.mpr ⟨h.parts.symm, fun index hpart hheld => ?_⟩
  have hpins := h.pins (List.getElem?_eq_getElem hpart)
  rw [part, List.getD_eq_getElem?_getD, List.getElem?_eq_getElem hheld] at hpins
  exact hpins.symm

/-- A state with a pin for each port loses all its marks, and nothing else. -/
theorem Shaped.mapPins_eq (h : Shaped netlist state) :
    state.mapPins netlist (fun _ pin => { pin with used := false }) = state.unmarked := by
  refine congrArg (State.mk · state.nets state.status) ?_
  unfold Shaped at h
  generalize netlist.parts = parts, state.parts = helds at h ⊢
  induction h with
  | nil => rfl
  | @cons part held parts helds hlength _ ih =>
    rw [List.zip_cons_cons, List.map_cons, ih, List.map_cons]
    refine congrArg (fun pins => (⟨pins, held.memory⟩ : PartState) :: helds.map _) ?_
    -- the ports do not matter any more, as there is one for each pin
    have hpins : (part.ports.zip held.pins).map Prod.snd = held.pins :=
      List.map_snd_zip hlength.ge
    exact (List.map_map ..).symm.trans (congrArg (List.map Pin.unmarked) hpins)

theorem unmarked_markUsed (state : State) (ref : PortRef) :
    (state.updatePin Pin.markUsed ref).unmarked = state.unmarked := by
  have hmark : ∀ held : PartState, (held.update ref.port Pin.markUsed).unmarked = held.unmarked :=
    fun held => PartState.unmarked_update_markUsed held ref.port
  exact congrArg (State.mk · state.nets state.status)
    (map_modify_of_blind hmark state.parts ref.part)

theorem unmarked_markPin (netlist : Netlist) (p : PortType → Pin → Bool) (state : State)
    (ref : PortRef) : (state.markPin netlist p ref).unmarked = state.unmarked := by
  unfold markPin
  split
  · exact unmarked_markUsed state ref
  · rfl

/-- What only sets marks changes nothing else. -/
theorem unmarked_foldl {α : Type} {mark : State → α → State}
    (h : ∀ state item, (mark state item).unmarked = state.unmarked) (items : List α)
    (state : State) : (items.foldl mark state).unmarked = state.unmarked :=
  List.foldlRecOn (motive := fun reached : State => reached.unmarked = state.unmarked) items _ rfl
    fun reached hreached item _ => (h reached item).trans hreached

theorem unmarked_traceTask (netlist : Netlist) (state : State) (task : Task) :
    (state.traceTask netlist task).unmarked = state.unmarked := by
  cases task with
  | phase part position =>
    exact unmarked_foldl (fun state port => unmarked_markPin netlist _ state ⟨part, port⟩) _ state
  | net index =>
    unfold traceTask traceNet
    dsimp only
    split
    · exact unmarked_foldl (unmarked_markPin netlist _) _ state
    · rfl

theorem unmarked_markLatched (netlist : Netlist) (state : State) (step : Nat × Nat) :
    (state.markLatched netlist step).unmarked = state.unmarked :=
  unmarked_foldl (fun state port => unmarked_markUsed state ⟨step.1, port⟩) _ state

/-- Finding out what was used changes nothing but marks. -/
theorem unmarked_traceUsage (h : Shaped netlist state) (schedule : Schedule)
    (executed : List Nat) :
    (state.traceUsage netlist schedule executed).unmarked = state.unmarked := by
  have htasks : ∀ (steps : List Step) (state : State),
      (steps.foldl (fun state step => state.traceTask netlist step.task) state).unmarked =
        state.unmarked :=
    unmarked_foldl fun state step => unmarked_traceTask netlist state step.task
  unfold traceUsage
  dsimp only
  rw [h.mapPins_eq, htasks, unmarked_foldl (unmarked_markLatched netlist), unmarked_unmarked]

theorem shaped_unmarked_iff : Shaped netlist state.unmarked ↔ Shaped netlist state := by
  rw [Shaped, Shaped, unmarked, List.forall₂_map_right_iff]
  simp only [PartState.unmarked, List.length_map]

theorem Shaped.congr (h : Shaped netlist first) (hsame : first.unmarked = second.unmarked) :
    Shaped netlist second :=
  shaped_unmarked_iff.mp (hsame ▸ shaped_unmarked_iff.mpr h)

/-- The marks that are found do not depend on those that were there. -/
theorem traceUsage_congr (h : Shaped netlist first) (hsame : first.unmarked = second.unmarked)
    (schedule : Schedule) (executed : List Nat) :
    first.traceUsage netlist schedule executed = second.traceUsage netlist schedule executed := by
  unfold traceUsage
  rw [h.mapPins_eq, (h.congr hsame).mapPins_eq, hsame]

/-! ## Clearing and carrying over -/

theorem cleared_unmarked (netlist : Netlist) (hard : Bool) (state : State) :
    state.unmarked.cleared netlist hard = (state.cleared netlist hard).unmarked := by
  simp only [cleared, unmarked, List.zip_map_right, List.map_map]
  refine congrArg (State.mk · (state.nets.map fun _ => {}) .running)
    (List.map_congr_left fun entry _ => ?_)
  have hpins : (entry.2.pins.map Pin.unmarked).map
      (fun pin => { pin with value := 0, resolved := true }) =
      (entry.2.pins.map fun pin => { pin with value := 0, resolved := true }).map Pin.unmarked := by
    rw [List.map_map, List.map_map]
    rfl
  exact congrArg (PartState.mk · (entry.1.device.reset hard entry.2.memory)) hpins

/-- What is carried over does not depend on usage. -/
theorem carriedOver_unmarked (previous : Netlist) (state : State) (netlist : Netlist) :
    carriedOver previous state.unmarked netlist = carriedOver previous state netlist := by
  simp only [carriedOver, carriedMemory, part_unmarked, PartState.memory_unmarked]

end State

/-! ## Simulations -/

namespace Simulation

variable {library library' : Library} {schematic schematic' : Schematic}
  {simulation first second : Simulation}

/-- The simulation as if no pin had been used, and without tracking. -/
def plain (simulation : Simulation) : Simulation :=
  { simulation with state := simulation.state.unmarked, trackUsage := false }

theorem plain_eq_iff : first.plain = second.plain ↔ first.netlist = second.netlist ∧
    first.schedule = second.schedule ∧ first.state.unmarked = second.state.unmarked ∧
      first.firings = second.firings ∧ first.ticks = second.ticks := by
  simp [plain]

theorem plain_traceUsage (h : State.Shaped simulation.netlist simulation.state) :
    simulation.traceUsage.plain = simulation.plain :=
  plain_eq_iff.mpr ⟨rfl, rfl, State.unmarked_traceUsage h _ _, rfl, rfl⟩

theorem plain_withUsageTracking (h : State.Shaped simulation.netlist simulation.state)
    (enabled : Bool) : (simulation.withUsageTracking enabled).plain = simulation.plain := by
  cases enabled with
  | false => rfl
  | true =>
    have hsame : ({ simulation with trackUsage := true } : Simulation).plain =
      simulation.plain := rfl
    exact (plain_traceUsage h).trans hsame

/-- A settle does the same with and without tracking. -/
theorem plain_settle (h : simulation.Stocked library schematic) :
    simulation.settle.plain = simulation.plain.settle := by
  have hsound := (State.sound_final_any h.sound h.stored).1
  unfold Netlist.final at hsound
  rw [← h.schedule] at hsound
  have hplain := settle_unmarked simulation.netlist simulation.schedule simulation.state
  unfold settle plain
  dsimp only
  rw [hplain]
  generalize Breadboard.settle simulation.netlist simulation.schedule simulation.state = done
    at hsound ⊢
  dsimp only
  cases simulation.trackUsage with
  | false => rfl
  | true => exact plain_traceUsage hsound.shaped

theorem plain_latch (simulation : Simulation) :
    simulation.latch.plain = simulation.plain.latch := by
  have hsteps : ∀ (steps : List (Nat × Nat)) (state : State),
      (steps.foldl (fun state step => state.runPhase simulation.netlist step.1 step.2)
        state).unmarked =
      steps.foldl (fun state step => state.runPhase simulation.netlist step.1 step.2)
        state.unmarked := fun steps state =>
    (List.foldl_hom State.unmarked fun state step =>
      (State.unmarked_runPhase simulation.netlist step.1 step.2 state).symm).symm
  simp only [latch, plain, hsteps]

theorem plain_step (h : simulation.Stocked library schematic) :
    simulation.step.plain = simulation.plain.step := by
  have hhalted : ∀ simulation : Simulation, simulation.plain.isHalted = simulation.isHalted :=
    fun _ => rfl
  unfold step
  dsimp only
  rw [hhalted, ← plain_latch, hhalted]
  split
  · rfl
  · split
    · rfl
    · exact plain_settle h.latch

theorem plain_reset (h : simulation.Stocked library schematic) (hard : Bool) :
    (simulation.reset hard).plain = simulation.plain.reset hard := by
  have hcleared : ({ simulation with
      state := simulation.state.cleared simulation.netlist hard } : Simulation).Stocked library
        schematic :=
    ⟨h.netlist, h.schedule, (State.sound_reset h.sound hard).1, h.stored.cleared h.sound hard⟩
  have hreset : simulation.plain.reset hard = ({ simulation.plain with
      state := simulation.state.unmarked.cleared simulation.netlist hard } : Simulation).settle :=
    rfl
  rw [hreset, State.cleared_unmarked]
  exact plain_settle hcleared

/-- Circuits that differ in marks at most are rebuilt alike. -/
theorem plain_rebuild (hplain : first.plain = second.plain) (library : Library)
    (schematic : Schematic) : (first.rebuild library schematic).map plain =
      (second.rebuild library schematic).map plain := by
  obtain ⟨hnetlist, -, hstate, hfirings, hticks⟩ := plain_eq_iff.mp hplain
  have hstatus := congrArg State.status hstate
  rw [State.status_unmarked, State.status_unmarked] at hstatus
  have hcarried : State.carriedOver first.netlist first.state (flatten library schematic) =
      State.carriedOver second.netlist second.state (flatten library schematic) := by
    rw [← State.carriedOver_unmarked, hnetlist, hstate, State.carriedOver_unmarked]
  -- the new circuit is stocked whatever else the simulation holds
  have hstocked : ∀ base : Simulation, ({ base with
      netlist := flatten library schematic
      schedule := compile (flatten library schematic)
      state := { State.carriedOver second.netlist second.state (flatten library schematic) with
        status := second.state.status } } : Simulation).Stocked library schematic := fun base => by
    obtain ⟨hsound, hloose⟩ := State.sound_carriedOver second.netlist second.state
      (flatten library schematic) second.state.status
    have hnew := State.new_carriedOver second (flatten library schematic) second.state.status
    exact Pristine.stocked ⟨rfl, rfl, hsound, hloose, hnew⟩
  unfold rebuild
  dsimp only
  rw [hcarried, hstatus]
  split
  · rfl
  · refine congrArg Except.ok ?_
    rw [plain_settle (hstocked first), plain_settle (hstocked second)]
    exact congrArg settle (plain_eq_iff.mpr ⟨rfl, rfl, rfl, hfirings, hticks⟩)

theorem partOf_plain {α : Type} (simulation : Simulation) (path : String) (kind : PartKind)
    (read : Memory → Option α) :
    simulation.plain.partOf path kind read = simulation.partOf path kind read := by
  have hmemory : ∀ index, (simulation.plain.state.part index).memory =
      (simulation.state.part index).memory := fun index => by
    change (simulation.state.unmarked.part index).memory = _
    rw [State.part_unmarked, PartState.memory_unmarked]
  unfold partOf
  simp only [hmemory]
  rfl

theorem plain_setMemory (simulation : Simulation) (index : Nat) (memory : Memory) :
    (simulation.setMemory index memory).plain = simulation.plain.setMemory index memory := by
  simp only [plain, setMemory, State.unmarked_setPart, State.part_unmarked]
  rfl

theorem plain_setInput (simulation : Simulation) (path : String) (value : Word) :
    (simulation.setInput path value).map plain = simulation.plain.setInput path value := by
  unfold setInput
  rw [partOf_plain]
  generalize simulation.partOf path .input _ = found
  cases found with
  | error error => rfl
  | ok found =>
    have hsame : simulation.plain.netlist = simulation.netlist := rfl
    dsimp only [Bind.bind, Except.bind]
    rw [hsame]
    cases (simulation.netlist.parts.getD found.1 default).device with
    | input width initial => exact congrArg Except.ok (plain_setMemory ..)
    | _ => rfl

theorem plain_writeRam (simulation : Simulation) (path : String) (addr : Nat) (value : Word) :
    (simulation.writeRam path addr value).map plain =
      simulation.plain.writeRam path addr value := by
  unfold writeRam
  rw [partOf_plain]
  generalize simulation.partOf path .ram _ = found
  cases found with
  | error error => rfl
  | ok found =>
    have hsame : simulation.plain.netlist = simulation.netlist := rfl
    dsimp only [Bind.bind, Except.bind]
    rw [hsame]
    cases (simulation.netlist.parts.getD found.1 default).device with
    | ram addrWidth width => exact congrArg Except.ok (plain_setMemory ..)
    | _ => rfl

theorem readRam_plain (simulation : Simulation) (path : String) (addr : Nat) :
    simulation.plain.readRam path addr = simulation.readRam path addr := by
  unfold readRam ramCells
  rw [partOf_plain]

/-! ## Sessions with and without tracking -/

theorem replied_alike (hplain : first.plain = second.plain)
    {result result' : Except LookupError Simulation} (h : result.map plain = result'.map plain) :
    (first.replied result).1.plain = (second.replied result').1.plain ∧
      (first.replied result).2 = (second.replied result').2 := by
  cases result with
  | error error =>
    cases result' with
    | error error' =>
      obtain rfl := Except.error.inj h
      exact ⟨hplain, rfl⟩
    | ok next' => cases h
  | ok next =>
    cases result' with
    | error error' => cases h
    | ok next' => exact ⟨Except.ok.inj h, rfl⟩

/-- What differs in marks at most answers a request alike, and differs in marks at most
after it. -/
theorem serve_alike (h : first.Stocked library schematic)
    (h' : second.Stocked library' schematic') (hplain : first.plain = second.plain)
    (request : Request) : (first.serve request).1.plain = (second.serve request).1.plain ∧
      (first.serve request).2 = (second.serve request).2 := by
  cases request with
  | setInput path value =>
    refine replied_alike hplain ?_
    rw [plain_setInput, plain_setInput, hplain]
  | readRam path addr =>
    refine ⟨hplain, ?_⟩
    rw [serve, serve, ← readRam_plain, hplain, readRam_plain]
  | writeRam path addr value =>
    refine replied_alike hplain ?_
    rw [plain_writeRam, plain_writeRam, hplain]
  | settle =>
    refine ⟨?_, rfl⟩
    rw [serve, serve, plain_settle h, plain_settle h', hplain]
  | latch =>
    refine ⟨?_, rfl⟩
    rw [serve, serve, plain_latch, plain_latch, hplain]
  | step =>
    refine ⟨?_, rfl⟩
    rw [serve, serve, plain_step h, plain_step h', hplain]
  | reset hard =>
    refine ⟨?_, rfl⟩
    rw [serve, serve, plain_reset h, plain_reset h', hplain]
  | rebuild library schematic =>
    refine ⟨?_, rfl⟩
    have hrebuild := plain_rebuild hplain library schematic
    rw [serve, serve]
    generalize first.rebuild library schematic = result, second.rebuild library schematic = result'
      at hrebuild ⊢
    cases result with
    | error fault =>
      cases result' with
      | error fault' => exact hplain
      | ok next' => cases hrebuild
    | ok next =>
      cases result' with
      | error fault' => cases hrebuild
      | ok next' => exact Except.ok.inj hrebuild
  | traceUsage =>
    refine ⟨?_, rfl⟩
    rw [serve, serve, plain_traceUsage h.sound.shaped, plain_traceUsage h'.sound.shaped, hplain]
  | trackUsage enabled =>
    refine ⟨?_, rfl⟩
    rw [serve, serve, plain_withUsageTracking h.sound.shaped,
      plain_withUsageTracking h'.sound.shaped, hplain]

theorem Occurs.serve (h : simulation.Occurs library schematic) (request : Request) :
    ∃ library schematic, (simulation.serve request).1.Occurs library schematic := by
  have hreplied : ∀ result : Except LookupError Simulation,
      (∀ next, result = .ok next → next.Occurs library schematic) →
        (simulation.replied result).1.Occurs library schematic := by
    intro result hresult
    cases result with
    | error error => exact h
    | ok next => exact hresult next rfl
  cases request with
  | setInput path value => exact ⟨_, _, hreplied _ fun _ hnext => .setInput h hnext⟩
  | readRam path addr => exact ⟨_, _, h⟩
  | writeRam path addr value => exact ⟨_, _, hreplied _ fun _ hnext => .writeRam h hnext⟩
  | settle => exact ⟨_, _, h.settle⟩
  | latch => exact ⟨_, _, h.latch⟩
  | step => exact ⟨_, _, h.step⟩
  | reset hard => exact ⟨_, _, h.reset hard⟩
  | rebuild library schematic =>
    rw [Simulation.serve]
    cases hnext : simulation.rebuild library schematic with
    | error fault => exact ⟨_, _, h⟩
    | ok next => exact ⟨_, _, .rebuild h hnext⟩
  | traceUsage => exact ⟨_, _, h.traceUsage⟩
  | trackUsage enabled => exact ⟨_, _, h.withUsageTracking enabled⟩

theorem session_alike (requests : List Request) :
    ∀ {library library' : Library} {schematic schematic' : Schematic} {first second : Simulation},
      first.Occurs library schematic → second.Occurs library' schematic' →
      first.plain = second.plain →
      (first.session requests).1.plain = (second.session requests).1.plain ∧
        (first.session requests).2 = (second.session requests).2 := by
  induction requests with
  | nil => exact fun _ _ hplain => ⟨hplain, rfl⟩
  | cons request requests ih =>
    intro _ _ _ _ first second h h' hplain
    obtain ⟨hserve, hreply⟩ := serve_alike h.stocked h'.stocked hplain request
    obtain ⟨_, _, hnext⟩ := h.serve request
    obtain ⟨_, _, hnext'⟩ := h'.serve request
    obtain ⟨hlast, hreplies⟩ := ih hnext hnext' hserve
    exact ⟨hlast, List.cons_eq_cons.mpr ⟨hreply, hreplies⟩⟩

/-- Finding out what was used sets marks and nothing else, and finds the same whatever was
marked before. So whatever a circuit is asked, with and without tracking it gives the same
replies and reaches the same state but for the marks. -/
theorem usage_tracking_is_inert (library : Library) (schematic : Schematic) :
    (∀ (netlist : Netlist) (schedule : Schedule) (executed : List Nat) (state : State),
      State.Shaped netlist state →
        (state.traceUsage netlist schedule executed).unmarked = state.unmarked ∧
        (∀ other : State, other.unmarked = state.unmarked →
          other.traceUsage netlist schedule executed =
            state.traceUsage netlist schedule executed) ∧
        (state.traceUsage netlist schedule executed).traceUsage netlist schedule executed =
          state.traceUsage netlist schedule executed) ∧
    ∀ simulation : Simulation, simulation.Occurs library schematic → ∀ requests : List Request,
      ((simulation.withUsageTracking true).session requests).1.plain =
          ((simulation.withUsageTracking false).session requests).1.plain ∧
        ((simulation.withUsageTracking true).session requests).2 =
          ((simulation.withUsageTracking false).session requests).2 := by
  refine ⟨fun netlist schedule executed state hshaped => ?_, fun simulation h requests => ?_⟩
  · have hunmarked := State.unmarked_traceUsage hshaped schedule executed
    exact ⟨hunmarked, fun other hsame => (State.traceUsage_congr hshaped hsame.symm ..).symm,
      (State.traceUsage_congr hshaped hunmarked.symm ..).symm⟩
  · refine session_alike requests (h.withUsageTracking true) (h.withUsageTracking false) ?_
    have hshaped := h.stocked.sound.shaped
    rw [plain_withUsageTracking hshaped, plain_withUsageTracking hshaped]

/-- A value is written to a memory over a bus, and read back after a reset. -/
def writeAndReadBack : List Request :=
  [.setInput "addr" 3, .setInput "we" 1, .settle, .latch, .reset false, .readRam "ram" 3]

/-- The marks that tracking leaves are the only difference. -/
theorem usage_tracking_is_inert_bus : ∃ simulation, start Demo.library Demo.bus = .ok simulation ∧
    State.Shaped simulation.netlist simulation.state ∧
    simulation.traceUsage.traceUsage = simulation.traceUsage ∧
    let tracked := (simulation.withUsageTracking true).session writeAndReadBack
    let untracked := (simulation.withUsageTracking false).session writeAndReadBack
    tracked.1.plain = untracked.1.plain ∧ tracked.2 = untracked.2 ∧
      tracked.2.drop 5 = [.ok (some 5)] ∧ tracked.1.state ≠ untracked.1.state := by
  obtain ⟨hfault, hlast, hmarks⟩ : (flatten Demo.library Demo.bus).fault? = none ∧
      (let simulation := ofNetlist (flatten Demo.library Demo.bus)
      let tracked := (simulation.withUsageTracking true).session writeAndReadBack
      let untracked := (simulation.withUsageTracking false).session writeAndReadBack
      tracked.2.drop 5 = [.ok (some 5)] ∧ tracked.1.state ≠ untracked.1.state) := by
    decide +kernel
  have hoccurs : (ofNetlist (flatten Demo.library Demo.bus)).Occurs Demo.library Demo.bus :=
    .start (start_eq hfault)
  have hshaped := hoccurs.stocked.sound.shaped
  obtain ⟨htrace, hsession⟩ := usage_tracking_is_inert Demo.library Demo.bus
  have hagain : ∀ simulation : Simulation, State.Shaped simulation.netlist simulation.state →
      simulation.traceUsage.traceUsage = simulation.traceUsage := fun simulation hshaped =>
    congrArg (fun state => ({ simulation with state } : Simulation))
      (htrace _ simulation.schedule simulation.executed _ hshaped).2.2
  obtain ⟨hplain, hreplies⟩ := hsession _ hoccurs writeAndReadBack
  exact ⟨_, start_eq hfault, hshaped, hagain _ hshaped, hplain, hreplies, hlast, hmarks⟩

end Simulation

end Breadboard
