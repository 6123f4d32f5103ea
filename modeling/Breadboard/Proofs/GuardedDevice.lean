import Breadboard.Proofs.Guards
import Breadboard.Proofs.Proper

/-!
# Running devices meets no trap

`Guarded.runDevice` runs a phase of a device as `Device.run` does. The pins of a part and
the cells of a memory are looked up, the address of a memory is the remainder by its
size, and the sum of an adder, a number of 128 bits, is shifted by its width. None of
these is a trap for a part that has the ports its device was built for
(`Part.Equipped`), remembers what the device can remember (`Device.Proper`) and does
not shift its sum too far (`Guarded.runDevice_eq`).
-/

namespace Breadboard

namespace Guarded

/-! ## Devices -/

def updatePart (part : PartState) (index : Nat) (f : Pin → Pin) : Guarded PartState := do
  return { part with pins := ← change part.pins index f }

/-- The cell of a memory that an address selects. -/
def cellOf (cells : Array Word) (addr : Word) : Guarded Nat := do
  within cells.size (← rem addr.toNat cells.size)

/-- The carry that goes into an adder. -/
def carryOf (carryIn : Bool) (part : PartState) : Guarded Nat := do
  if carryIn then return (← entry part.pins 3).value.toNat % 2 else return 0

/-- The value that a boundary port passes on, none if there is none. -/
def passedOf (inbound : Bool) (value : Word) (ports : List Port) (part : PartState) (source : Nat) :
    Guarded (Option Word) := do
  let near ← entry part.pins source
  let port ← entry ports source
  return Device.passed inbound value port.bound near

/-- Let a boundary port show what it passes on. -/
def deliver (tristate : Bool) (ports : List Port) (part : PartState) (target : Nat)
    (passed : Option Word) : Guarded PartState := do
  if tristate then
    let port ← entry ports target
    updatePart part target (.drive port.type.bidirectional passed)
  else
    match passed with
    | some value => updatePart part target (.withValue value)
    | none => return part

variable (ports : List Port) (phase : Nat) (part : PartState) (status : Status)

/-- Show a value. -/
def runValue (value : Word) : Guarded (PartState × Status) := do
  return (← updatePart part 0 (.withValue value), status)

def runProbe : Guarded (PartState × Status) := do
  let shown ← entry part.pins 0
  return ({ part with memory := .probe shown.value shown.resolved }, status)

def runMux : Guarded (PartState × Status) := do
  let select ← entry part.pins 2
  let chosen := if select.value = 0 then 0 else 1
  let other := if select.value = 0 then 1 else 0
  let part ← updatePart part other fun pin => { pin with enabled := false }
  return (← updatePart part 3 (.withValue (← entry part.pins chosen).value), status)

def runAdder (width : Nat) (carryIn carryOut : Bool) : Guarded (PartState × Status) := do
  let carry ← carryOf carryIn part
  let sum := (← entry part.pins 0).value.toNat + (← entry part.pins 1).value.toNat + carry
  let part ← updatePart part 2 (.withValue (← trim width (UInt64.ofNat sum)))
  if carryOut then
    let above ← shiftRight 128 sum width
    let position := if carryIn then 4 else 3
    return (← updatePart part position (.withValue (UInt64.ofNat (above % 2))), status)
  else return (part, status)

def runBuffer : Guarded (PartState × Status) := do
  let enable ← entry part.pins 0
  let shown ← entry part.pins 1
  let value := if enable.value = 0 then none else some shown.value
  return (← updatePart part 2 (.drive false value), status)

def runRegister (value : Word) : Guarded (PartState × Status) := do
  if phase = 0 then return (← updatePart part 2 (.withValue value), status)
  else
    let enable ← entry part.pins 1
    let port ← entry ports 1
    let shown ← entry part.pins 0
    if !port.bound || enable.value ≠ 0 then
      return ({ part with memory := .register shown.value }, status)
    else return (part, status)

def runRam (width : Nat) (cells : Array Word) : Guarded (PartState × Status) := do
  let cell ← cellOf cells (← entry part.pins 0).value
  let output ← entry part.pins 3
  let write ← entry part.pins 2
  if phase = 0 then
    let reading := output.value ≠ 0 ∧ ¬ write.value ≠ 0
    let held := if reading then some (cells.getD cell 0) else none
    return (← updatePart part 1 (.drive true held), status)
  else if write.value ≠ 0 then
    let cells := cells.setIfInBounds cell (← trim width (← entry part.pins 1).value)
    return ({ part with memory := .ram cells }, status)
  else return (part, status)

def runBridge (enabled forward : Bool) : Guarded (PartState × Status) := do
  if phase = 0 then
    let enabled := (← entry part.pins 0).value ≠ 0
    let forward := (← entry part.pins 1).value = 0
    let sides := Device.bridgeSides forward
    let part := { part with memory := .bridge enabled forward }
    let part ← updatePart part sides.1 fun pin => { pin with facing := .inward }
    let facing := if enabled then .outward else .inward
    return (← updatePart part sides.2 fun pin => { pin with facing }, status)
  else
    let sides := Device.bridgeSides forward
    let part ← updatePart part sides.1 (.drive true none)
    let shown ← entry part.pins sides.1
    let value := if enabled && shown.resolved then some shown.value else none
    return (← updatePart part sides.2 (.drive true value), status)

def runHalt (reason : String) : Guarded (PartState × Status) := do
  let shown ← entry part.pins 0
  if shown.value ≠ 0 ∧ status = .running then return (part, .halted reason)
  else return (part, status)

def runBoundary (inbound tristate : Bool) (value : Word) : Guarded (PartState × Status) := do
  let source := if inbound then 1 else 0
  let target := if inbound then 0 else 1
  let passed ← passedOf inbound value ports part source
  return (← deliver tristate ports part target passed, status)

/-- Run one phase of a part. -/
def runDevice (device : Device) : Guarded (PartState × Status) :=
  match device, part.memory with
  | .constant value, _ | .input .., .input value => runValue part status value
  | .probe, _ => runProbe part status
  | .mux, _ => runMux part status
  | .adder width carryIn carryOut, _ => runAdder part status width carryIn carryOut
  | .buffer, _ => runBuffer part status
  | .register, .register value => runRegister ports phase part status value
  | .ram _ width, .ram cells => runRam phase part status width cells
  | .bridge, .bridge enabled forward => runBridge phase part status enabled forward
  | .halt reason, _ => runHalt part status reason
  | .boundary inbound tristate value, _ => runBoundary ports part status inbound tristate value
  | device, _ => return device.run ports phase part status

end Guarded

/-! ## The ports a device is built for -/

/-- How many pins the phases of a device use. -/
def Device.pinCount : Device → Nat
  | .constant _ | .input .. | .probe | .halt _ => 1
  | .boundary .. => 2
  | .buffer | .register => 3
  | .mux | .ram .. | .bridge => 4
  | .adder _ carryIn carryOut => 3 + carryIn.toNat + carryOut.toNat
  | .inert | .scripted .. => 0

/-- The part has the ports that its device and its phases use. -/
structure Part.Equipped (part : Part) : Prop where
  pins : part.device.pinCount ≤ part.ports.length
  phases : ∀ phase ∈ part.phases, ∀ port ∈ phase.reads ++ phase.writes ++ phase.anyOf,
    port < part.ports.length

theorem Builtin.pinCount_assemble (builtin : Builtin) (args : Json) :
    (builtin.assemble args).device.pinCount ≤ (builtin.assemble args).ports.length := by
  cases builtin with
  | adder =>
    cases hin : args.flag "carryIn" false <;> cases hout : args.flag "carryOut" false <;>
      simp [assemble, ports, Device.pinCount, hin, hout]
  | _ => simp [assemble, ports, Device.pinCount]

theorem Builtin.lt_of_phase (builtin : Builtin) (args : Json) {phase : Phase} {port : Nat}
    (hphase : phase ∈ (builtin.assemble args).phases)
    (hport : port ∈ phase.reads ++ phase.writes ++ phase.anyOf) :
    port < (builtin.assemble args).ports.length := by
  cases builtin with
  | adder =>
    rw [List.mem_singleton.mp hphase] at hport
    cases hin : args.flag "carryIn" false <;> cases hout : args.flag "carryOut" false <;>
      simp [assemble, ports, hin, hout] at hport ⊢ <;> omega
  | boundary =>
    rw [List.mem_singleton.mp hphase] at hport
    cases hinput : (Boundary.outerDecl args "").type.input <;>
      simp [assemble, ports, hinput] at hport ⊢ <;> omega
  | register | ram | bridge =>
    rcases List.mem_pair.mp hphase with rfl | rfl <;> simp [assemble, ports] at hport ⊢ <;> omega
  | _ =>
    rw [List.mem_singleton.mp hphase] at hport
    simp [assemble, ports] at hport ⊢
    omega

theorem Part.MadeOf.length_ports {part : Part} {assembly : Assembly} (h : part.MadeOf assembly) :
    part.ports.length = assembly.ports.length := by
  rw [← h.ports, List.length_map]

/-- What is built has the ports it uses. -/
theorem Part.Built.equipped {part : Part} (h : part.Built) : part.Equipped := by
  obtain ⟨definition, args, assembly, hnative, hassemble, hmade⟩ := h
  have hlength := hmade.length_ports
  rcases hnative with ⟨builtin, rfl⟩ | ⟨id, schematic, rfl⟩
  · obtain rfl := Except.ok.inj hassemble
    refine ⟨?_, fun phase hphase port hport => ?_⟩
    · rw [hmade.device, hlength]
      exact builtin.pinCount_assemble args
    · rw [hlength]
      exact builtin.lt_of_phase args (hmade.phases ▸ hphase) hport
  · obtain rfl := Except.ok.inj hassemble
    refine ⟨?_, fun phase hphase port hport => ?_⟩
    · rw [hmade.device]
      exact Nat.zero_le _
    · rw [hmade.phases] at hphase
      rw [List.mem_singleton.mp hphase] at hport
      simp only [Builder.portsWhere, List.mem_append, List.mem_filter, List.mem_range,
        List.not_mem_nil, or_false] at hport
      rw [hlength]
      exact hport.elim And.left And.left

namespace Guarded

variable {part : PartState} {ports : List Port} {device : Device} {index phase : Nat}
  {status : Status}

/-! ## Running meets no trap -/

theorem pin_eq (h : index < part.pins.length) : entry part.pins index = .ok (part.pin index) :=
  entry_eq_getD h {}

theorem updatePart_eq (h : index < part.pins.length) (f : Pin → Pin) :
    updatePart part index f = .ok (part.update index f) := by
  rw [updatePart, change_eq h]
  rfl

theorem cellOf_eq {cells : Array Word} (h : 0 < cells.size) (addr : Word) :
    cellOf cells addr = .ok (Device.cellOf cells addr) := by
  rw [cellOf, rem_eq h, ok_bind, within_eq (Nat.mod_lt _ h), Device.cellOf]

/-- One pin is changed after another. -/
theorem updatePart_update {other : Nat} {f : Pin → Pin} (h : index < part.pins.length)
    (g : Pin → Pin) : updatePart (part.update other f) index g =
      .ok ((part.update other f).update index g) :=
  updatePart_eq (by rwa [PartState.length_pins_update]) g

theorem pin_update {other : Nat} {f : Pin → Pin} (h : index < part.pins.length) :
    entry (part.update other f).pins index = .ok ((part.update other f).pin index) :=
  pin_eq (by rwa [PartState.length_pins_update])

theorem carryOf_eq {carryIn : Bool} (h : 3 + carryIn.toNat ≤ part.pins.length) :
    carryOf carryIn part = .ok (if carryIn then (part.pin 3).value.toNat % 2 else 0) := by
  cases carryIn with
  | false => rfl
  | true =>
    have hpin : 3 < part.pins.length := h
    rw [carryOf, if_pos rfl, pin_eq hpin]
    rfl

theorem runValue_eq (hpins : 1 ≤ part.pins.length) (value : Word) :
    runValue part status value = .ok (part.update 0 (.withValue value), status) := by
  rw [runValue, updatePart_eq hpins]
  rfl

theorem runProbe_eq (hpins : 1 ≤ part.pins.length) :
    runProbe part status = .ok (Device.probe.run ports phase part status) := by
  rw [runProbe, pin_eq hpins]
  rfl

theorem runMux_eq (hpins : 4 ≤ part.pins.length) :
    runMux part status = .ok (Device.mux.run ports phase part status) := by
  rw [runMux, pin_eq (by omega), ok_bind, Device.run]
  dsimp only
  split <;>
    rw [updatePart_eq (by omega), ok_bind, pin_update (by omega), ok_bind,
      updatePart_update (by omega)] <;> rfl

theorem runAdder_eq {width : Nat} {carryIn carryOut : Bool}
    (hpins : 3 + carryIn.toNat + carryOut.toNat ≤ part.pins.length)
    (hshift : (Device.adder width carryIn carryOut).overshifts = false) :
    runAdder part status width carryIn carryOut =
      .ok ((Device.adder width carryIn carryOut).run ports phase part status) := by
  have hcarry : carryOf carryIn part = .ok _ := carryOf_eq (by omega)
  rw [runAdder, hcarry, ok_bind, pin_eq (by omega), ok_bind, pin_eq (by omega), ok_bind]
  dsimp only
  rw [trim_eq, ok_bind, updatePart_eq (by omega), ok_bind, Device.run]
  cases carryOut with
  | false => rfl
  | true =>
    have hwidth : width < 128 := by simpa [Device.overshifts] using hshift
    have hposition : (if carryIn then 4 else 3) < part.pins.length := by
      cases carryIn <;> exact hpins
    rw [if_pos rfl, shiftRight_eq hwidth, ok_bind]
    dsimp only
    rw [updatePart_update hposition]
    rfl

theorem runBuffer_eq (hpins : 3 ≤ part.pins.length) :
    runBuffer part status = .ok (Device.buffer.run ports phase part status) := by
  rw [runBuffer, pin_eq (by omega), ok_bind, pin_eq (by omega), ok_bind]
  dsimp only
  rw [updatePart_eq (by omega)]
  rfl

theorem runRegister_eq {value : Word} (hpins : 3 ≤ part.pins.length)
    (hports : ports.length = part.pins.length) (hmemory : part.memory = .register value) :
    runRegister ports phase part status value =
      .ok (Device.register.run ports phase part status) := by
  simp only [runRegister, Device.run, hmemory]
  split
  · rw [updatePart_eq (by omega)]
    rfl
  · rw [pin_eq (by omega), ok_bind, entry_eq_getD (by omega) default, ok_bind, pin_eq (by omega),
      ok_bind]
    split <;> rfl

theorem runRam_eq {addrWidth width : Nat} {cells : Array Word} (hpins : 4 ≤ part.pins.length)
    (hcells : 0 < cells.size) (hmemory : part.memory = .ram cells) :
    runRam phase part status width cells =
      .ok ((Device.ram addrWidth width).run ports phase part status) := by
  simp only [runRam, Device.run, hmemory]
  rw [pin_eq (by omega), ok_bind, cellOf_eq hcells, ok_bind, pin_eq (by omega), ok_bind,
    pin_eq (by omega), ok_bind]
  split
  · rw [updatePart_eq (by omega)]
    rfl
  · split
    · rw [pin_eq (by omega), ok_bind, trim_eq]
      rfl
    · rfl

theorem sides_lt (forward : Bool) :
    (Device.bridgeSides forward).1 < 4 ∧ (Device.bridgeSides forward).2 < 4 := by
  cases forward <;> decide

theorem runBridge_eq {enabled forward : Bool} (hpins : 4 ≤ part.pins.length)
    (hmemory : part.memory = .bridge enabled forward) :
    runBridge phase part status enabled forward =
      .ok (Device.bridge.run ports phase part status) := by
  simp only [runBridge, Device.run, hmemory]
  split
  · obtain ⟨hsource, htarget⟩ := sides_lt ((part.pin 1).value = 0)
    have hlength : ∀ memory, 4 ≤ ({ part with memory } : PartState).pins.length := fun _ => hpins
    rw [pin_eq (by omega), ok_bind, pin_eq (by omega), ok_bind,
      updatePart_eq (Nat.lt_of_lt_of_le hsource (hlength _)), ok_bind,
      updatePart_update (Nat.lt_of_lt_of_le htarget (hlength _))]
    rfl
  · obtain ⟨hsource, htarget⟩ := sides_lt forward
    rw [updatePart_eq (by omega), ok_bind, pin_update (by omega), ok_bind,
      updatePart_update (by omega)]
    rfl

theorem runHalt_eq {reason : String} (hpins : 1 ≤ part.pins.length) :
    runHalt part status reason = .ok ((Device.halt reason).run ports phase part status) := by
  rw [runHalt, pin_eq hpins, ok_bind, Device.run]
  split <;> rfl

theorem passedOf_eq (hports : ports.length = part.pins.length) (hindex : index < part.pins.length)
    (inbound : Bool) (value : Word) : passedOf inbound value ports part index =
      .ok (Device.passed inbound value (ports.getD index default).bound (part.pin index)) := by
  rw [passedOf, pin_eq hindex, ok_bind, entry_eq_getD (hports ▸ hindex) default]
  rfl

theorem deliver_eq (hports : ports.length = part.pins.length) (hindex : index < part.pins.length)
    (tristate : Bool) (passed : Option Word) : deliver tristate ports part index passed =
      .ok (if tristate then
          part.update index (.drive (ports.getD index default).type.bidirectional passed)
        else passed.elim part fun value => part.update index (.withValue value)) := by
  cases tristate with
  | true =>
    unfold deliver
    rw [if_pos rfl, entry_eq_getD (hports ▸ hindex) default, ok_bind, updatePart_eq hindex]
    rfl
  | false =>
    cases passed with
    | none => rfl
    | some value => exact updatePart_eq hindex _

theorem runBoundary_eq {inbound tristate : Bool} {value : Word} (hpins : 2 ≤ part.pins.length)
    (hports : ports.length = part.pins.length) :
    runBoundary ports part status inbound tristate value =
      .ok ((Device.boundary inbound tristate value).run ports phase part status) := by
  have hends : ∀ flag : Bool, (if flag then 1 else 0) < part.pins.length ∧
      (if flag then 0 else 1) < part.pins.length := by
    intro flag
    cases flag <;> simp <;> omega
  obtain ⟨hsource, htarget⟩ := hends inbound
  rw [runBoundary, passedOf_eq hports hsource, ok_bind, deliver_eq hports htarget, ok_bind]
  cases tristate with
  | true => cases inbound <;> rfl
  | false =>
    cases inbound <;>
      simp only [Device.passed, Device.run, Bool.false_eq_true, if_false, if_true] <;>
      split_ifs <;> rfl

/-- A device that has its ports, and remembers what it can remember, runs without a
trap, unless it is an adder that shifts its sum too far. -/
theorem runDevice_eq (hpins : device.pinCount ≤ part.pins.length)
    (hports : ports.length = part.pins.length) (hproper : device.Proper part.memory)
    (hshift : device.overshifts = false) (phase : Nat) (status : Status) :
    runDevice ports phase part status device = .ok (device.run ports phase part status) := by
  obtain ⟨pins, memory⟩ := part
  cases device with
  | inert | scripted => rfl
  | constant value => exact runValue_eq hpins value
  | probe => exact runProbe_eq hpins
  | halt reason => exact runHalt_eq hpins
  | buffer => exact runBuffer_eq hpins
  | mux => exact runMux_eq hpins
  | adder => exact runAdder_eq hpins hshift
  | boundary => exact runBoundary_eq hpins hports
  | input width initial =>
    cases memory with
    | input value => exact runValue_eq hpins value
    | _ => exact hproper.elim
  | register =>
    cases memory with
    | register value => exact runRegister_eq hpins hports rfl
    | _ => exact hproper.elim
  | ram addrWidth width =>
    cases memory with
    | ram cells =>
      have hcells : 0 < cells.size := by
        rw [hproper.1, Nat.one_shiftLeft]
        exact Nat.two_pow_pos _
      exact runRam_eq hpins hcells rfl
    | _ => exact hproper.elim
  | bridge =>
    cases memory with
    | bridge enabled forward => exact runBridge_eq hpins rfl
    | _ => exact hproper.elim

end Guarded

end Breadboard
