import Breadboard.Device.Basic

/-!
# Running devices

`Device.run` performs one phase of a part. A device touches nothing but the
pins and the memory of its own part and the status of the circuit; that is
the shape of `Device.run`, so no lemma is needed for it. `Device.fresh`,
`Device.reset` and `Device.adopt` give the memory of a new part, of a part
after a reset, and of a part that takes the place of an earlier one.
-/

namespace Breadboard

/-! ## Actions -/

/-- Perform one action of a scripted phase. -/
def Action.run (ports : List Port) (action : Action Nat) (state : PartState × Status) :
    PartState × Status :=
  let (part, status) := state
  match action with
  | add target sources offset =>
    let sum := sources.foldl (fun sum source => sum + (part.pin source).value) offset
    let width := (ports.getD target default).width
    (part.update target (.withValue (trim width sum)), status)
  | drive target source enable =>
    let value := if (part.pin enable).value = 0 then none else some (part.pin source).value
    let bidirectional := (ports.getD target default).type.bidirectional
    (part.update target (.drive bidirectional value), status)
  | ignore pin => (part.update pin fun pin => { pin with enabled := false }, status)
  | store source => ({ part with memory := .scripted (part.pin source).value }, status)
  | load target =>
    match part.memory with
    | .scripted value => (part.update target (.withValue value), status)
    | _ => (part, status)
  | halt pin reason =>
    if (part.pin pin).value = 0 then (part, status) else (part, .halted reason)

namespace Device

/-! ## Memory -/

/-- Address lines beyond this many do not make a memory larger. -/
def maxAddrWidth : Nat := 20

/-- The memory of a part that was just built. -/
def fresh : Device → Memory
  | input _ initial => .input initial
  | probe => .probe 0 false
  | register => .register 0
  | ram addrWidth _ => .ram (Array.replicate (1 <<< min addrWidth maxAddrWidth) 0)
  | bridge => .bridge false true
  | scripted _ _ => .scripted 0
  | inert | constant _ | mux | adder .. | buffer | halt _ | boundary .. => .none

/-- The memory after a reset. Registers are cleared by every reset, memories and
persistent scripts by a hard one only. Inputs, probes and bridges keep what they
hold. -/
def reset (hard : Bool) (device : Device) (memory : Memory) : Memory :=
  match device, memory with
  | register, _ => .register 0
  | ram .., .ram cells => .ram (if hard then Array.replicate cells.size 0 else cells)
  | scripted persistent _, .scripted value =>
    .scripted (if hard || !persistent then 0 else value)
  | _, memory => memory

/-- The memory of a part that replaces one with memory `previous`. Only
settings, registers and stored words are taken over, and only by a device of the
same kind; what does not fit the new width or size is cut off. -/
def adopt (device : Device) (previous : Memory) : Memory :=
  match device, previous with
  | input width _, .input value => .input (trim width value)
  | register, .register value => .register value
  | ram addrWidth width, .ram cells =>
    .ram (Array.ofFn fun cell : Fin (1 <<< min addrWidth maxAddrWidth) =>
      trim width (cells.getD cell 0))
  | scripted .., .scripted value => .scripted value
  | device, _ => device.fresh

/-! ## Phases -/

/-- The source and the target of a bridge: its sides are at positions 2 and 3. -/
def bridgeSides (forward : Bool) : Nat × Nat :=
  if forward then (2, 3) else (3, 2)

/-- The cell of a memory that an address selects. -/
def cellOf (cells : Array Word) (addr : Word) : Nat :=
  addr.toNat % cells.size

/-- Run one phase of a part. -/
def run (device : Device) (ports : List Port) (phase : Nat) (part : PartState) (status : Status) :
    PartState × Status :=
  match device, part.memory with
  | constant value, _ => (part.update 0 (.withValue value), status)
  | input .., .input value => (part.update 0 (.withValue value), status)
  | probe, _ =>
    ({ part with memory := .probe (part.pin 0).value (part.pin 0).resolved }, status)
  | mux, _ =>
    let (chosen, other) := if (part.pin 2).value = 0 then (0, 1) else (1, 0)
    let part := part.update other fun pin => { pin with enabled := false }
    (part.update 3 (.withValue (part.pin chosen).value), status)
  | adder width carryIn carryOut, _ =>
    let carry := if carryIn then (part.pin 3).value.toNat % 2 else 0
    let sum := (part.pin 0).value.toNat + (part.pin 1).value.toNat + carry
    let part := part.update 2 (.withValue (trim width (UInt64.ofNat sum)))
    if carryOut then
      let position := if carryIn then 4 else 3
      (part.update position (.withValue (UInt64.ofNat (sum >>> width % 2))), status)
    else (part, status)
  | buffer, _ =>
    let value := if (part.pin 0).value = 0 then none else some (part.pin 1).value
    (part.update 2 (.drive false value), status)
  | register, .register value =>
    if phase = 0 then (part.update 2 (.withValue value), status)
    else if !(ports.getD 1 default).bound || (part.pin 1).value ≠ 0 then
      ({ part with memory := .register (part.pin 0).value }, status)
    else (part, status)
  | ram _ width, .ram cells =>
    let cell := cellOf cells (part.pin 0).value
    let writing := (part.pin 2).value ≠ 0
    if phase = 0 then
      let reading := (part.pin 3).value ≠ 0 ∧ ¬ writing
      (part.update 1 (.drive true (if reading then some (cells.getD cell 0) else none)), status)
    else if writing then
      let cells := cells.setIfInBounds cell (trim width (part.pin 1).value)
      ({ part with memory := .ram cells }, status)
    else (part, status)
  | bridge, .bridge enabled forward =>
    if phase = 0 then
      let enabled := (part.pin 0).value ≠ 0
      let forward := (part.pin 1).value = 0
      let (source, target) := bridgeSides forward
      let part := { part with memory := .bridge enabled forward }
      let part := part.update source fun pin => { pin with facing := .inward }
      let facing := if enabled then .outward else .inward
      (part.update target fun pin => { pin with facing }, status)
    else
      let (source, target) := bridgeSides forward
      let part := part.update source (.drive true none)
      let shown := part.pin source
      let value := if enabled && shown.resolved then some shown.value else none
      (part.update target (.drive true value), status)
  | halt reason, _ =>
    if (part.pin 0).value ≠ 0 ∧ status = .running then (part, .halted reason) else (part, status)
  | boundary inbound tristate value, _ =>
    let (source, target) := if inbound then (1, 0) else (0, 1)
    let near := part.pin source
    let passed :=
      if (ports.getD source default).bound then
        if near.resolved then some near.value else none
      else if inbound then some value else none
    if tristate then
      let bidirectional := (ports.getD target default).type.bidirectional
      (part.update target (.drive bidirectional passed), status)
    else
      match passed with
      | some value => (part.update target (.withValue value), status)
      | none => (part, status)
  | scripted _ phases, _ =>
    (phases.getD phase []).foldl (fun state action => action.run ports state) (part, status)
  | inert, _ | input .., _ | register, _ | ram .., _ | bridge, _ => (part, status)

/-- Whether the device shifts a sum of 128 bits by its full width or more: an
adder with a carry out of width 128 or beyond. -/
def overshifts : Device → Bool
  | adder width _ carryOut => carryOut && 128 ≤ width
  | _ => false

end Device

end Breadboard
