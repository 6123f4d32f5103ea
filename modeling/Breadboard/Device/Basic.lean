import Breadboard.Pin

/-!
# Devices

A device is what a placed part does; its memory is what the part remembers
between two runs. Which pins a device reads and writes in which order is the
business of its phases. The built-in devices find their pins by position, in
the order in which their definitions declare the ports; a scripted device
carries a list of actions for each phase.
-/

namespace Breadboard

/-- One step of a part: the ports it reads, the ports it writes, and the ports
of which any one is enough for the step to run. Latch phases run on the clock
edge, the others while settling. -/
structure Phase where
  reads : List Nat := []
  writes : List Nat := []
  anyOf : List Nat := []
  latch : Bool := false
  deriving DecidableEq, Repr, Inhabited

/-- Whether the circuit runs, and otherwise why it stopped. -/
inductive Status where
  | running
  | halted (reason : String)
  deriving DecidableEq, Repr, Inhabited

/-- The reason of a halt. -/
def Status.reason? : Status → Option String
  | running => none
  | halted reason => some reason

/-- Whether the circuit has stopped. -/
def Status.isHalted (status : Status) : Bool :=
  status.reason?.isSome

/-- An action of a scripted phase on pins named by `ρ`. -/
inductive Action (ρ : Type) where
  /-- Set a pin to a constant plus the sum of other pins, cut to its width. -/
  | add (target : ρ) (sources : List ρ) (offset : Word)
  /-- Drive the value of `source` while `enable` is not zero, and let go
  otherwise. -/
  | drive (target source enable : ρ)
  /-- Mark an input as ignored. -/
  | ignore (pin : ρ)
  /-- Remember the value of a pin. -/
  | store (source : ρ)
  /-- Set a pin to the remembered value. -/
  | load (target : ρ)
  /-- Stop the circuit if a pin is not zero. -/
  | halt (pin : ρ) (reason : String)
  deriving DecidableEq, Repr

/-- The behaviour of a part. -/
inductive Device where
  /-- Does nothing. -/
  | inert
  /-- Shows a fixed value. -/
  | constant (value : Word)
  /-- Shows a value that is set from outside; `initial` is the first one. -/
  | input (width : Nat) (initial : Word)
  /-- Records the value it sees. -/
  | probe
  /-- Passes one of two inputs on. -/
  | mux
  /-- Adds two inputs, with an optional carry on either end. -/
  | adder (width : Nat) (carryIn carryOut : Bool)
  /-- Puts its input on a bus while enabled. -/
  | buffer
  /-- Takes its input over on the clock edge. -/
  | register
  /-- Word-addressed memory on a bus. -/
  | ram (addrWidth width : Nat)
  /-- Copies one bus onto another. -/
  | bridge
  /-- Stops the circuit while its input is not zero. -/
  | halt (reason : String)
  /-- Passes a value across a hierarchy boundary. -/
  | boundary (inbound tristate : Bool) (value : Word)
  /-- Runs a list of actions in each phase. -/
  | scripted (persistent : Bool) (phases : List (List (Action Nat)))
  deriving DecidableEq, Repr, Inhabited

/-- What a part remembers. -/
inductive Memory where
  | none
  | input (value : Word)
  | probe (value : Word) (resolved : Bool)
  | register (value : Word)
  | ram (cells : Array Word)
  /-- Whether the bridge copies at all, and whether it copies its first side
  onto its second. -/
  | bridge (enabled forward : Bool)
  | scripted (value : Word)
  deriving DecidableEq, Repr, Inhabited

/-- The runtime state of a part: its pins, one for each port, and its memory. -/
structure PartState where
  pins : List Pin
  memory : Memory
  deriving DecidableEq, Repr, Inhabited

namespace PartState

/-- The pin at a position. -/
def pin (part : PartState) (index : Nat) : Pin :=
  part.pins.getD index {}

/-- Change the pin at a position. -/
def update (part : PartState) (index : Nat) (f : Pin → Pin) : PartState :=
  { part with pins := part.pins.modify index f }

@[simp] theorem update_memory (part : PartState) (index : Nat) (f : Pin → Pin) :
    (part.update index f).memory = part.memory := rfl

@[simp] theorem length_pins_update (part : PartState) (index : Nat) (f : Pin → Pin) :
    (part.update index f).pins.length = part.pins.length := by
  simp [update]

theorem pin_update_of_ne (part : PartState) {index other : Nat} (f : Pin → Pin)
    (h : index ≠ other) : (part.update index f).pin other = part.pin other := by
  simp [update, pin, List.getD_eq_getElem?_getD, h]

theorem pin_update_self (part : PartState) {index : Nat} (f : Pin → Pin)
    (h : index < part.pins.length) : (part.update index f).pin index = f (part.pin index) := by
  simp [update, pin, h]

end PartState

end Breadboard
