import Breadboard.Proofs.Built
import Breadboard.Simulation.Resolve

/-!
# What a task changes

Resolving a net and running a phase, read cell by cell. A net decides on a value
or on none (`State.verdict`), and every pin that reads it hears the decision
(`Pin.hear`): its value and its resolved flag change, and nothing else of it. A
phase edits the pins of its own part (`State.effect`). No other pin changes, so
each of `pin_resolve` and `pin_runPhase` is a frame rule as well.

`State.Sound` says that a state has a place for everything in its netlist and
that the memories are those of the devices. Every task keeps it.
-/

namespace Breadboard

/-- A pin is told what its net decided, none if the net is left open. -/
def Pin.hear (decided : Option Word) (pin : Pin) : Pin :=
  match decided with
  | some value => { pin with value, resolved := true }
  | none => { pin with resolved := false }

namespace Pin

variable (decided : Option Word) (pin : Pin)

@[simp] theorem enabled_hear : (pin.hear decided).enabled = pin.enabled := by
  cases decided <;> rfl

@[simp] theorem facing_hear : (pin.hear decided).facing = pin.facing := by
  cases decided <;> rfl

@[simp] theorem used_hear : (pin.hear decided).used = pin.used := by
  cases decided <;> rfl

@[simp] theorem value_hear : (pin.hear decided).value = decided.getD pin.value := by
  cases decided <;> rfl

@[simp] theorem resolved_hear : (pin.hear decided).resolved = decided.isSome := by
  cases decided <;> rfl

theorem hear_hear : (pin.hear decided).hear decided = pin.hear decided := by
  cases decided <;> rfl

theorem drives_hear (type : PortType) : (pin.hear decided).drives type = pin.drives type := by
  simp [drives]

end Pin

namespace State

variable {netlist : Netlist} {state : State} {part phase index other : Nat} {ref : PortRef}
  {task : Task}

/-- The state has the pin. -/
def Has (state : State) (ref : PortRef) : Prop :=
  ref.part < state.parts.length ∧ ref.port < (state.part ref.part).pins.length

structure Sound (netlist : Netlist) (state : State) : Prop where
  parts : state.parts.length = netlist.parts.length
  nets : state.nets.length = netlist.nets.length
  pins : ∀ {index : Nat} {part : Part}, netlist.parts[index]? = some part →
    (state.part index).pins.length = part.ports.length
  fits : ∀ {index : Nat} {part : Part}, netlist.parts[index]? = some part →
    part.device.Fits (state.part index).memory

theorem Sound.has (h : Sound netlist state) {port : Port}
    (hport : netlist.port? ref = some port) : state.Has ref := by
  obtain ⟨part, hpart, hport⟩ := Option.bind_eq_some_iff.mp hport
  refine ⟨?_, ?_⟩
  · rw [h.parts]
    exact (List.getElem?_eq_some_iff.mp hpart).1
  · rw [h.pins hpart]
    exact (List.getElem?_eq_some_iff.mp hport).1

/-! ## Telling the readers of a net -/

/-- Tell some pins what their net decided. -/
def tell (decided : Option Word) (targets : List PortRef) (state : State) : State :=
  targets.foldl (·.updatePin (Pin.hear decided)) state

theorem tell_eq (decided : Option Word) : ∀ (targets : List PortRef) (state : State),
    (state.tell decided targets).nets = state.nets ∧
      (state.tell decided targets).status = state.status ∧
      (state.tell decided targets).parts.length = state.parts.length ∧
      ∀ part, ((state.tell decided targets).part part).memory = (state.part part).memory ∧
        ((state.tell decided targets).part part).pins.length = (state.part part).pins.length := by
  intro targets
  induction targets with
  | nil => exact fun _ => ⟨rfl, rfl, rfl, fun _ => ⟨rfl, rfl⟩⟩
  | cons target targets ih =>
    intro state
    obtain ⟨hnets, hstatus, hparts, hpart⟩ := ih (state.updatePin (Pin.hear decided) target)
    refine ⟨hnets, hstatus, hparts.trans (by simp [updatePin]), fun part => ?_⟩
    obtain ⟨hmemory, hpins⟩ := hpart part
    have hone : ((state.updatePin (Pin.hear decided) target).part part).memory =
        (state.part part).memory ∧
        ((state.updatePin (Pin.hear decided) target).part part).pins.length =
          (state.part part).pins.length := by
      by_cases heq : target.part = part
      · subst heq
        by_cases hlt : target.part < state.parts.length
        · rw [part_updatePin_self _ _ hlt]
          exact ⟨rfl, PartState.length_pins_update ..⟩
        · simp [updatePin, State.part, List.getD_eq_getElem?_getD,
            List.getElem?_eq_none (Nat.not_lt.mp hlt)]
      · rw [part_updatePin_of_ne _ _ heq]
        exact ⟨rfl, rfl⟩
    exact ⟨hmemory.trans hone.1, hpins.trans hone.2⟩

theorem pin_tell (decided : Option Word) (href : state.Has ref) (targets : List PortRef) :
    (state.tell decided targets).pin ref =
      if ref ∈ targets then (state.pin ref).hear decided else state.pin ref := by
  induction targets generalizing state with
  | nil => simp [tell]
  | cons target targets ih =>
    obtain ⟨-, -, hparts, hpart⟩ := tell_eq decided [target] state
    have hhas : (state.updatePin (Pin.hear decided) target).Has ref :=
      ⟨Nat.lt_of_lt_of_eq href.1 hparts.symm,
        Nat.lt_of_lt_of_eq href.2 (hpart ref.part).2.symm⟩
    have hrest := ih hhas
    rw [tell, List.foldl_cons]
    refine hrest.trans ?_
    by_cases heq : target = ref
    · subst heq
      rw [pin_updatePin_self _ _ href.1 href.2]
      simp [Pin.hear_hear]
    · rw [pin_updatePin_of_ne _ _ heq]
      simp [Ne.symm heq]

/-! ## Nets -/

/-- What a net decides on, and how many drivers it counts. -/
def verdict (netlist : Netlist) (index : Nat) (state : State) : Option Word × Nat :=
  let net := netlist.nets.getD index default
  let shown (source : PortRef) : Word := trim net.width (state.pin source).value
  if net.tristate then
    match net.driving netlist state with
    | [source] => (some (shown source), 1)
    | driving => (none, driving.length)
  else
    match net.sources with
    | [source] => (some (shown source), 1)
    | sources => (some 0, sources.length)

theorem resolve_eq (netlist : Netlist) (index : Nat) (state : State) :
    state.resolve netlist index =
      (state.setNet index
        ⟨(state.verdict netlist index).1.getD (state.net index).value,
          (state.verdict netlist index).2⟩).tell
        (state.verdict netlist index).1 (netlist.nets.getD index default).targets := by
  unfold resolve verdict
  dsimp only
  split
  · generalize Net.driving netlist state (netlist.nets.getD index default) = driving
    rcases driving with _ | ⟨source, _ | _⟩ <;> rfl
  · generalize (netlist.nets.getD index default).sources = sources
    rcases sources with _ | ⟨source, _ | _⟩ <;> rfl

theorem net_resolve (hindex : index < state.nets.length) :
    (state.resolve netlist index).net other =
      if other = index then
        ⟨(state.verdict netlist index).1.getD (state.net index).value,
          (state.verdict netlist index).2⟩
      else state.net other := by
  rw [resolve_eq, State.net, (tell_eq ..).1]
  split
  · next h =>
    subst h
    exact net_setNet_self state _ hindex
  · next h => exact net_setNet_of_ne state _ (Ne.symm h)

theorem pin_resolve (href : state.Has ref) :
    (state.resolve netlist index).pin ref =
      if ref ∈ (netlist.nets.getD index default).targets then
        (state.pin ref).hear (state.verdict netlist index).1
      else state.pin ref := by
  rw [resolve_eq, pin_tell]
  · rfl
  · exact href

@[simp] theorem memory_resolve :
    ((state.resolve netlist index).part part).memory = (state.part part).memory := by
  rw [resolve_eq, ((tell_eq ..).2.2.2 part).1]
  rfl

@[simp] theorem status_resolve : (state.resolve netlist index).status = state.status := by
  rw [resolve_eq, (tell_eq ..).2.1]
  rfl

theorem Sound.resolve (h : Sound netlist state) : Sound netlist (state.resolve netlist index) := by
  refine ⟨?_, ?_, ?_, ?_⟩
  · rw [resolve_eq, (tell_eq ..).2.2.1]
    exact h.parts
  · rw [resolve_eq, (tell_eq ..).1]
    simpa [setNet] using h.nets
  · intro part placed hpart
    rw [resolve_eq, ((tell_eq ..).2.2.2 part).2]
    exact h.pins hpart
  · intro part placed hpart
    rw [memory_resolve]
    exact h.fits hpart

/-! ## Phases -/

/-- What a phase does in this state. -/
def effect (netlist : Netlist) (part phase : Nat) (state : State) : Effect :=
  let placed := netlist.parts.getD part default
  placed.device.effect placed.ports phase (state.part part)

theorem runPhase_eq (state : State) (phase : Nat) (hnative : (netlist.parts.getD part default).device.Native) :
    state.runPhase netlist part phase =
      { state.setPart part ((state.effect netlist part phase).apply (state.part part)) with
        status := (state.effect netlist part phase).status state.status } := by
  rw [runPhase, Device.run_eq hnative]
  rfl

theorem part_runPhase (hnative : (netlist.parts.getD part default).device.Native)
    (hpart : part < state.parts.length) :
    (state.runPhase netlist part phase).part other =
      if other = part then (state.effect netlist part phase).apply (state.part part)
      else state.part other := by
  rw [runPhase_eq _ _ hnative]
  split
  · next h =>
    subst h
    exact part_setPart_self state _ hpart
  · next h => exact part_setPart_of_ne state _ (Ne.symm h)

theorem pin_runPhase (hnative : (netlist.parts.getD part default).device.Native)
    (hpart : part < state.parts.length) (href : state.Has ref) :
    (state.runPhase netlist part phase).pin ref =
      if ref.part = part then ((state.effect netlist part phase).edit ref.port).apply (state.pin ref)
      else state.pin ref := by
  rw [State.pin, part_runPhase hnative hpart]
  split
  · next h =>
    rw [State.pin, h]
    exact Effect.pin_apply _ _ (h ▸ href.2)
  · rfl

theorem native_getD (hnative : ∀ part ∈ netlist.parts, part.device.Native) (part : Nat) :
    (netlist.parts.getD part default).device.Native := by
  rw [List.getD_eq_getElem?_getD]
  cases hpart : netlist.parts[part]? with
  | none => trivial
  | some placed => exact hnative placed (List.mem_of_getElem? hpart)

theorem Sound.runPhase (hnative : ∀ part ∈ netlist.parts, part.device.Native)
    (h : Sound netlist state) : Sound netlist (state.runPhase netlist part phase) := by
  have heq := runPhase_eq state phase (native_getD hnative part)
  by_cases hlt : part < state.parts.length
  · refine ⟨?_, ?_, ?_, ?_⟩
    · rw [heq]
      simpa [setPart] using h.parts
    · rw [heq]
      exact h.nets
    · intro index placed hplaced
      rw [part_runPhase (native_getD hnative part) hlt]
      split
      · next hindex =>
        subst hindex
        rw [Effect.length_pins_apply]
        exact h.pins hplaced
      · exact h.pins hplaced
    · intro index placed hplaced
      rw [part_runPhase (native_getD hnative part) hlt]
      split
      · next hindex =>
        subst hindex
        have hget : netlist.parts.getD index default = placed := by
          rw [List.getD_eq_getElem?_getD, hplaced]
          rfl
        rw [Effect.apply, State.effect, hget]
        exact Device.fits_effect (h.fits hplaced)
      · exact h.fits hplaced
  · have hset : state.runPhase netlist part phase =
        { state with status := (state.effect netlist part phase).status state.status } := by
      rw [heq, setPart, List.set_eq_of_length_le (Nat.not_lt.mp hlt)]
    rw [hset]
    exact ⟨h.parts, h.nets, h.pins, h.fits⟩

theorem Sound.perform (hnative : ∀ part ∈ netlist.parts, part.device.Native)
    (h : Sound netlist state) : Sound netlist (state.perform netlist task) := by
  cases task with
  | phase part position => exact h.runPhase hnative
  | net index => exact h.resolve

end State

end Breadboard
