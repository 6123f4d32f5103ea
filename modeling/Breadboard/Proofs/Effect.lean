import Breadboard.Device.Run

/-!
# What a phase does

A phase of a device is a function from one part state to the next. Here it is
taken apart: `Device.effect` says for each pin which edit the phase makes, what
the part remembers afterwards and whether the circuit is to stop, and
`Device.run_eq` says that running the phase is carrying this out. So two states
in which the effect is the same are changed in the same way, whatever else they
hold.

Scripted devices are left out: what they do is a list of actions of its own.
-/

namespace Breadboard

/-- What a phase does to one pin. -/
inductive Edit where
  | keep
  /-- Mark an input as not looked at. -/
  | ignore
  | face (facing : Facing)
  | set (value : Word)
  | drive (bidirectional : Bool) (value : Option Word)
  deriving DecidableEq, Repr

def Edit.apply : Edit → Pin → Pin
  | keep, pin => pin
  | ignore, pin => { pin with enabled := false }
  | face facing, pin => { pin with facing }
  | set value, pin => pin.withValue value
  | drive bidirectional value, pin => pin.drive bidirectional value

theorem Edit.apply_apply (edit : Edit) (pin : Pin) : edit.apply (edit.apply pin) = edit.apply pin := by
  cases edit with
  | drive bidirectional value => cases value <;> cases bidirectional <;> rfl
  | _ => rfl

/-- The value that an edit gives to a pin, none if the pin keeps its own. -/
def Edit.told : Edit → Option Word
  | .set value => some value
  | .drive _ value => value
  | .keep | .ignore | .face _ => none

theorem Edit.value_apply (edit : Edit) (pin : Pin) :
    (edit.apply pin).value = edit.told.getD pin.value := by
  cases edit with
  | drive bidirectional value => cases value <;> rfl
  | _ => rfl

/-- What a phase does to its part and to the circuit. -/
structure Effect where
  edit : Nat → Edit
  memory : Memory
  stop : Option String := none

namespace Effect

def apply (effect : Effect) (part : PartState) : PartState where
  pins := part.pins.mapIdx fun index pin => (effect.edit index).apply pin
  memory := effect.memory

/-- A circuit that has stopped keeps its reason. -/
def status (effect : Effect) (status : Status) : Status :=
  match status, effect.stop with
  | .running, some reason => .halted reason
  | status, _ => status

/-- The effect of leaving everything alone. -/
def idle (memory : Memory) : Effect where
  edit _ := .keep
  memory

/-- One more edit. -/
def put (effect : Effect) (index : Nat) (edit : Edit) : Effect :=
  { effect with edit := fun other => if other = index then edit else effect.edit other }

@[simp] theorem edit_idle (memory : Memory) (index : Nat) :
    (idle memory).edit index = .keep := rfl

@[simp] theorem edit_put (effect : Effect) (index other : Nat) (edit : Edit) :
    (effect.put index edit).edit other = if other = index then edit else effect.edit other := rfl

@[simp] theorem memory_idle (memory : Memory) : (idle memory).memory = memory := rfl

@[simp] theorem memory_put (effect : Effect) (index : Nat) (edit : Edit) :
    (effect.put index edit).memory = effect.memory := rfl

@[simp] theorem status_idle (memory : Memory) (status : Status) :
    (idle memory).status status = status := by
  cases status <;> rfl

@[simp] theorem status_put (effect : Effect) (index : Nat) (edit : Edit) (status : Status) :
    (effect.put index edit).status status = effect.status status := rfl

@[simp] theorem apply_idle (memory : Memory) (part : PartState) :
    (idle memory).apply part = { part with memory } := by
  simp [apply, Edit.apply, List.mapIdx_eq_zipIdx_map]

theorem apply_put (effect : Effect) (part : PartState) {index : Nat} (edit : Edit)
    (h : effect.edit index = .keep) :
    (effect.put index edit).apply part = (effect.apply part).update index edit.apply := by
  simp only [apply, PartState.update, put, PartState.mk.injEq, and_true]
  refine List.ext_getElem? fun other => ?_
  by_cases hother : index = other
  · subst hother
    cases hpin : part.pins[index]? <;> simp [hpin, h, Edit.apply]
  · simp [hother, Ne.symm hother]

/-- The effect of a single edit. -/
theorem apply_put_idle (memory : Memory) (part : PartState) (index : Nat) (edit : Edit) :
    ((idle memory).put index edit).apply part =
      PartState.update { part with memory } index edit.apply := by
  rw [apply_put _ _ _ rfl, apply_idle]

/-- The effect of edits to two pins. -/
theorem apply_put_put (memory : Memory) (part : PartState) {first second : Nat}
    (hne : first ≠ second) (edit edit' : Edit) :
    (((idle memory).put first edit).put second edit').apply part =
      PartState.update (PartState.update { part with memory } first edit.apply) second
        edit'.apply := by
  rw [apply_put _ _ _ (by simp [hne.symm]), apply_put_idle]

theorem pin_apply (effect : Effect) (part : PartState) {index : Nat}
    (h : index < part.pins.length) :
    (effect.apply part).pin index = (effect.edit index).apply (part.pin index) := by
  simp [apply, PartState.pin, h]

@[simp] theorem length_pins_apply (effect : Effect) (part : PartState) :
    (effect.apply part).pins.length = part.pins.length := by
  simp [apply]

end Effect

namespace Device

/-- The value that a boundary port passes on, none if there is none. -/
def passed (inbound : Bool) (value : Word) (bound : Bool) (near : Pin) : Option Word :=
  if bound then if near.resolved then some near.value else none
  else if inbound then some value else none

/-- What a phase of a device does to a part in a certain state. -/
def effect (device : Device) (ports : List Port) (phase : Nat) (part : PartState) : Effect :=
  match device, part.memory with
  | constant value, memory => (Effect.idle memory).put 0 (.set value)
  | input .., .input value => (Effect.idle (.input value)).put 0 (.set value)
  | probe, _ => .idle (.probe (part.pin 0).value (part.pin 0).resolved)
  | mux, memory =>
    let (chosen, other) := if (part.pin 2).value = 0 then (0, 1) else (1, 0)
    ((Effect.idle memory).put other .ignore).put 3 (.set (part.pin chosen).value)
  | adder width carryIn carryOut, memory =>
    let carry := if carryIn then (part.pin 3).value.toNat % 2 else 0
    let sum := (part.pin 0).value.toNat + (part.pin 1).value.toNat + carry
    let effect := (Effect.idle memory).put 2 (.set (trim width (UInt64.ofNat sum)))
    if carryOut then
      effect.put (if carryIn then 4 else 3) (.set (UInt64.ofNat (sum >>> width % 2)))
    else effect
  | buffer, memory =>
    let value := if (part.pin 0).value = 0 then none else some (part.pin 1).value
    (Effect.idle memory).put 2 (.drive false value)
  | register, .register value =>
    if phase = 0 then (Effect.idle (.register value)).put 2 (.set value)
    else if !(ports.getD 1 default).bound || (part.pin 1).value ≠ 0 then
      .idle (.register (part.pin 0).value)
    else .idle (.register value)
  | ram _ width, .ram cells =>
    let cell := cellOf cells (part.pin 0).value
    let writing := (part.pin 2).value ≠ 0
    if phase = 0 then
      let reading := (part.pin 3).value ≠ 0 ∧ ¬ writing
      (Effect.idle (.ram cells)).put 1
        (.drive true (if reading then some (cells.getD cell 0) else none))
    else if writing then
      .idle (.ram (cells.setIfInBounds cell (trim width (part.pin 1).value)))
    else .idle (.ram cells)
  | bridge, .bridge enabled forward =>
    if phase = 0 then
      let enabled := (part.pin 0).value ≠ 0
      let forward := (part.pin 1).value = 0
      let (source, target) := bridgeSides forward
      ((Effect.idle (.bridge enabled forward)).put source (.face .inward)).put target
        (.face (if enabled then .outward else .inward))
    else
      let (source, target) := bridgeSides forward
      let shown := part.pin source
      let value := if enabled && shown.resolved then some shown.value else none
      ((Effect.idle (.bridge enabled forward)).put source (.drive true none)).put target
        (.drive true value)
  | halt reason, memory =>
    { Effect.idle memory with
      stop := if (part.pin 0).value = 0 then none else some reason }
  | boundary inbound tristate value, memory =>
    let (source, target) := if inbound then (1, 0) else (0, 1)
    let value := passed inbound value (ports.getD source default).bound (part.pin source)
    if tristate then
      (Effect.idle memory).put target
        (.drive (ports.getD target default).type.bidirectional value)
    else
      match value with
      | some value => (Effect.idle memory).put target (.set value)
      | none => .idle memory
  | inert, memory | scripted .., memory | input .., memory | register, memory | ram .., memory
  | bridge, memory => .idle memory

/-- Whether the behaviour is that of a built-in device. -/
def Native : Device → Prop
  | scripted .. => False
  | _ => True

theorem exists_bridgeSides (forward : Bool) :
    ∃ source target, bridgeSides forward = (source, target) ∧ source ≠ target := by
  cases forward
  · exact ⟨3, 2, rfl, by decide⟩
  · exact ⟨2, 3, rfl, by decide⟩

/-- Letting go of a pin leaves what it shows. -/
theorem looks_drive_none (part : PartState) (index : Nat) :
    ((part.update index (.drive true none)).pin index).value = (part.pin index).value ∧
      ((part.update index (.drive true none)).pin index).resolved = (part.pin index).resolved := by
  by_cases h : index < part.pins.length
  · rw [PartState.pin_update_self _ _ h]
    exact ⟨rfl, rfl⟩
  · simp [PartState.pin, PartState.update, List.getD_eq_getElem?_getD,
      List.getElem?_eq_none (Nat.not_lt.mp h)]

theorem run_bridge (ports : List Port) (phase : Nat) (part : PartState) (status : Status) :
    bridge.run ports phase part status = ((bridge.effect ports phase part).apply part, status) := by
  obtain ⟨pins, memory⟩ := part
  cases memory with
  | bridge enabled forward =>
    simp only [run, effect]
    split
    · obtain ⟨source, target, hsides, hne⟩ := exists_bridgeSides
        (decide ((PartState.pin ⟨pins, .bridge enabled forward⟩ 1).value = 0))
      simp only [hsides, Effect.apply_put_put _ _ hne]
      rfl
    · obtain ⟨source, target, hsides, hne⟩ := exists_bridgeSides forward
      obtain ⟨hvalue, hresolved⟩ := looks_drive_none ⟨pins, .bridge enabled forward⟩ source
      simp only [hsides, hvalue, hresolved, Effect.apply_put_put _ _ hne]
      rfl
  | _ => simp [run, effect]

theorem run_halt (reason : String) (ports : List Port) (phase : Nat) (part : PartState)
    (status : Status) :
    (halt reason).run ports phase part status =
      (part, ((halt reason).effect ports phase part).status status) := by
  simp only [run, effect, Effect.status]
  by_cases hvalue : (part.pin 0).value = 0
  · cases status <;> simp [hvalue]
  · cases status <;> simp [hvalue]

/-- Running a phase carries out its effect. -/
theorem run_eq {device : Device} (hnative : device.Native) (ports : List Port) (phase : Nat)
    (part : PartState) (status : Status) :
    device.run ports phase part status =
      ((device.effect ports phase part).apply part,
        (device.effect ports phase part).status status) := by
  obtain ⟨pins, memory⟩ := part
  cases device with
  | scripted => exact hnative.elim
  | inert => simp [run, effect]
  | constant value =>
    simp only [run, effect, Effect.status_put, Effect.status_idle, Effect.apply_put_idle]
    rfl
  | input width initial =>
    cases memory with
    | input value =>
      simp only [run, effect, Effect.status_put, Effect.status_idle, Effect.apply_put_idle]
      rfl
    | _ => simp [run, effect]
  | probe => simp [run, effect]
  | mux =>
    simp only [run, effect]
    split
    all_goals
      simp only [Effect.status_put, Effect.status_idle]
      rw [Effect.apply_put_put _ _ (by decide), PartState.pin_update_of_ne _ _ (by decide)]
      rfl
  | adder width carryIn carryOut =>
    simp only [run, effect]
    cases carryOut with
    | false =>
      simp only [Bool.false_eq_true, if_false, Effect.status_put, Effect.status_idle,
        Effect.apply_put_idle]
      rfl
    | true =>
      simp only [if_true, Effect.status_put, Effect.status_idle]
      rw [Effect.apply_put_put _ _ (by cases carryIn <;> decide)]
      rfl
  | buffer =>
    simp only [run, effect, Effect.status_put, Effect.status_idle, Effect.apply_put_idle]
    rfl
  | register =>
    cases memory with
    | register value =>
      simp only [run, effect]
      split
      · simp only [Effect.status_put, Effect.status_idle, Effect.apply_put_idle]
        rfl
      · split <;> simp
    | _ => simp [run, effect]
  | ram addrWidth width =>
    cases memory with
    | ram cells =>
      simp only [run, effect]
      split
      · simp only [Effect.status_put, Effect.status_idle, Effect.apply_put_idle]
        rfl
      · split <;> simp
    | _ => simp [run, effect]
  | bridge =>
    have hstatus : (bridge.effect ports phase ⟨pins, memory⟩).status status = status := by
      cases memory with
      | bridge => simp only [effect]; split <;> simp
      | _ => simp [effect]
    rw [run_bridge, hstatus]
  | halt reason =>
    rw [run_halt]
    exact congrArg (·, _) (Effect.apply_idle memory ⟨pins, memory⟩).symm
  | boundary inbound tristate value =>
    simp only [run, effect, passed]
    split
    · simp only [Effect.status_put, Effect.status_idle, Effect.apply_put_idle]
      rfl
    · generalize (if (ports.getD _ default).bound = true then _ else _ : Option Word) = shown
      cases shown with
      | none => simp
      | some shown =>
        simp only [Effect.status_put, Effect.status_idle, Effect.apply_put_idle]
        rfl

end Device

end Breadboard
