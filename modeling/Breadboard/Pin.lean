import Breadboard.Port

/-!
# Pins

A pin is the runtime side of a port: what changes while a circuit runs. What
a pin does to its net is decided by `Pin.drives`; a phase moves a tri-state
pin with `Pin.drive`.
-/

namespace Breadboard

/-- Which way a bidirectional pin faces. Other pins stay `idle`. -/
inductive Facing where
  | idle
  | inward
  | outward
  deriving DecidableEq, Repr, Inhabited

/-- The sign a facing is shown by. -/
def Facing.symbol : Facing → String
  | .idle => "-"
  | .inward => "<"
  | .outward => ">"

/-- The state of one port of one part. -/
structure Pin where
  value : Word := 0
  /-- Whether a tri-state pin drives. On a plain input, false means that the
  phase ignored it. -/
  enabled : Bool := true
  facing : Facing := .idle
  /-- Whether the pin contributed to the last settle. -/
  used : Bool := true
  /-- False when the net the pin reads floated or conflicted. -/
  resolved : Bool := true
  deriving DecidableEq, Repr, Inhabited

namespace Pin

/-- Whether the pin puts its value on its net: an enabled output does, and a
bidirectional one only while it faces outward. -/
def drives (type : PortType) (pin : Pin) : Bool :=
  type.output && pin.enabled && (!type.bidirectional || pin.facing = .outward)

/-- Drive a value, or let go of the net. A released pin keeps its value. -/
def drive (bidirectional : Bool) (value : Option Word) (pin : Pin) : Pin :=
  match value with
  | some value =>
    { pin with value, enabled := true, facing := if bidirectional then .outward else pin.facing }
  | none =>
    { pin with enabled := false, facing := if bidirectional then .inward else pin.facing }

/-- The pin with another value and nothing else changed. -/
def withValue (value : Word) (pin : Pin) : Pin :=
  { pin with value }

/-- A pin whose type has an output drives exactly when it was told a value. -/
theorem drives_drive (type : PortType) (value : Option Word) (pin : Pin) :
    (pin.drive type.bidirectional value).drives type = (type.output && value.isSome) := by
  cases value <;> cases h : type.bidirectional <;> simp [drive, drives, h]

end Pin

end Breadboard
