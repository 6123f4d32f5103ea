import Breadboard.Device.Run
import Breadboard.Netlist.Basic

/-!
# The state of a circuit

Everything that changes while a circuit runs: the pins and the memory of
each part, the value of each net, and whether the circuit has stopped. Parts
and nets are in the order of the netlist.
-/

namespace Breadboard

/-- The value of a net, and how many of its drivers the last resolution found
enabled. -/
structure NetState where
  value : Word := 0
  enabledCount : Nat := 0
  deriving DecidableEq, Repr, Inhabited

namespace NetState

/-- A tri-state net that nothing drives. -/
def isFloating (state : NetState) (net : Net) : Bool :=
  net.tristate && state.enabledCount = 0

/-- A tri-state net that several pins drive. -/
def isConflicted (state : NetState) (net : Net) : Bool :=
  net.tristate && 1 < state.enabledCount

end NetState

structure State where
  parts : List PartState := []
  nets : List NetState := []
  status : Status := .running
  deriving DecidableEq, Repr, Inhabited

namespace State

def part (state : State) (index : Nat) : PartState :=
  state.parts.getD index default

def net (state : State) (index : Nat) : NetState :=
  state.nets.getD index default

def pin (state : State) (ref : PortRef) : Pin :=
  (state.part ref.part).pin ref.port

def setPart (state : State) (index : Nat) (part : PartState) : State :=
  { state with parts := state.parts.set index part }

def setNet (state : State) (index : Nat) (net : NetState) : State :=
  { state with nets := state.nets.set index net }

def updatePin (state : State) (f : Pin → Pin) (ref : PortRef) : State :=
  { state with parts := state.parts.modify ref.part (·.update ref.port f) }

/-- Change every pin, given the port it belongs to. -/
def mapPins (netlist : Netlist) (f : Port → Pin → Pin) (state : State) : State :=
  let parts := (netlist.parts.zip state.parts).map fun (part, held) =>
    { held with pins := (part.ports.zip held.pins).map fun (port, pin) => f port pin }
  { state with parts }

/-! ## What an update leaves alone

Setting a part, setting a net and updating a pin each change one place. -/

@[simp] theorem nets_setPart (state : State) (index : Nat) (part : PartState) :
    (state.setPart index part).nets = state.nets := rfl

@[simp] theorem status_setPart (state : State) (index : Nat) (part : PartState) :
    (state.setPart index part).status = state.status := rfl

@[simp] theorem parts_setNet (state : State) (index : Nat) (net : NetState) :
    (state.setNet index net).parts = state.parts := rfl

@[simp] theorem status_setNet (state : State) (index : Nat) (net : NetState) :
    (state.setNet index net).status = state.status := rfl

@[simp] theorem nets_updatePin (state : State) (f : Pin → Pin) (ref : PortRef) :
    (state.updatePin f ref).nets = state.nets := rfl

@[simp] theorem status_updatePin (state : State) (f : Pin → Pin) (ref : PortRef) :
    (state.updatePin f ref).status = state.status := rfl

theorem part_setPart_of_ne (state : State) {index other : Nat} (part : PartState)
    (h : index ≠ other) : (state.setPart index part).part other = state.part other := by
  simp [setPart, State.part, List.getD_eq_getElem?_getD, List.getElem?_set_ne h]

theorem part_setPart_self (state : State) {index : Nat} (part : PartState)
    (h : index < state.parts.length) : (state.setPart index part).part index = part := by
  simp [setPart, State.part, h]

theorem net_setNet_of_ne (state : State) {index other : Nat} (net : NetState)
    (h : index ≠ other) : (state.setNet index net).net other = state.net other := by
  simp [setNet, State.net, List.getD_eq_getElem?_getD, List.getElem?_set_ne h]

theorem net_setNet_self (state : State) {index : Nat} (net : NetState)
    (h : index < state.nets.length) : (state.setNet index net).net index = net := by
  simp [setNet, State.net, h]

theorem part_updatePin_self (state : State) (f : Pin → Pin) {ref : PortRef}
    (h : ref.part < state.parts.length) :
    (state.updatePin f ref).part ref.part = (state.part ref.part).update ref.port f := by
  simp [updatePin, part, h]

theorem part_updatePin_of_ne (state : State) (f : Pin → Pin) {ref : PortRef} {other : Nat}
    (h : ref.part ≠ other) : (state.updatePin f ref).part other = state.part other := by
  simp [updatePin, part, List.getD_eq_getElem?_getD, h]

theorem pin_updatePin_self (state : State) (f : Pin → Pin) {ref : PortRef}
    (hpart : ref.part < state.parts.length)
    (hport : ref.port < (state.part ref.part).pins.length) :
    (state.updatePin f ref).pin ref = f (state.pin ref) := by
  rw [pin, part_updatePin_self state f hpart, PartState.pin_update_self _ f hport, pin]

theorem pin_updatePin_of_ne (state : State) (f : Pin → Pin) {ref other : PortRef}
    (h : ref ≠ other) : (state.updatePin f ref).pin other = state.pin other := by
  obtain ⟨part, port⟩ := ref
  obtain ⟨otherPart, otherPort⟩ := other
  by_cases hpart : part = otherPart
  · subst hpart
    have hport : port ≠ otherPort := fun hport => h (by rw [hport])
    by_cases hlt : part < state.parts.length
    · rw [pin, @part_updatePin_self state f ⟨part, port⟩ hlt]
      exact PartState.pin_update_of_ne _ f hport
    · have hnone : state.parts[part]? = none := List.getElem?_eq_none (Nat.not_lt.mp hlt)
      simp [updatePin, pin, State.part, List.getD_eq_getElem?_getD, hnone]
  · rw [pin, @part_updatePin_of_ne state f ⟨part, port⟩ otherPart hpart, pin]

/-! ## New states -/

/-- The state of a circuit that has not run yet. -/
def fresh (netlist : Netlist) : State where
  parts := netlist.parts.map fun part => ⟨part.ports.map fun _ => {}, part.device.fresh⟩
  nets := netlist.nets.map fun _ => {}

/-- The memory of a part in a circuit that replaces `previous`: taken over from
the part that had its path if that was of the same definition. -/
def carriedMemory (previous : Netlist) (state : State) (netlist : Netlist) (index : Nat)
    (part : Part) : Memory :=
  match previous.partAt? (netlist.partPath index) with
  | some before =>
    if (previous.parts.getD before default).definition = part.definition then
      part.device.adopt (state.part before).memory
    else part.device.fresh
  | none => part.device.fresh

/-- The state of a circuit that replaces `previous` and has not run yet: new
pins and nets, and what the parts remember is carried over. -/
def carriedOver (previous : Netlist) (state : State) (netlist : Netlist) : State where
  parts := netlist.parts.zipIdx.map fun (part, index) =>
    ⟨part.ports.map fun _ => {}, carriedMemory previous state netlist index part⟩
  nets := netlist.nets.map fun _ => {}

end State

end Breadboard
