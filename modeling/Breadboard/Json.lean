import Breadboard.Word

/-!
# JSON values

A placed component is configured by a JSON value, and the report of a
circuit is one. A number written without fraction and exponent is an
integer; any other number is kept as it was written, because nothing here
computes with it.

The readers `word`, `width`, `flag` and `text` look up one field and never
fail: a field that is missing or has another shape gives the default, and so
does a value that is not an object.
-/

namespace Breadboard

/-- A JSON value. -/
inductive Json where
  | null
  | bool (value : Bool)
  | int (value : Int)
  | real (literal : String)
  | str (value : String)
  | arr (items : List Json)
  | obj (fields : List (String × Json))
  deriving Inhabited

namespace Json

/-- The value of a field of an object. -/
def field? (key : String) : Json → Option Json
  | obj fields => fields.lookup key
  | _ => none

/-- The value as a natural number below a bound. -/
def natBelow? (bound : Nat) : Json → Option Nat
  | int (.ofNat n) => if n < bound then some n else none
  | _ => none

/-- A field holding an integer that fits a word. -/
def word (args : Json) (key : String) (default : Word) : Word :=
  match (args.field? key).bind (natBelow? UInt64.size) with
  | some n => UInt64.ofNat n
  | none => default

/-- A field holding a width. Widths have 32 bits. -/
def width (args : Json) (key : String) (default : Nat) : Nat :=
  ((args.field? key).bind (natBelow? UInt32.size)).getD default

/-- A field holding a truth value. -/
def flag (args : Json) (key : String) (default : Bool) : Bool :=
  match args.field? key with
  | some (bool value) => value
  | _ => default

/-- A field holding a string. -/
def text (args : Json) (key default : String) : String :=
  match args.field? key with
  | some (str value) => value
  | _ => default

theorem natBelow?_lt {bound n : Nat} {value : Json} (h : value.natBelow? bound = some n) :
    n < bound := by
  unfold natBelow? at h
  split at h
  · split at h
    · cases h; assumption
    · cases h
  · cases h

theorem width_lt (args : Json) (key : String) {default : Nat} (h : default < UInt32.size) :
    args.width key default < UInt32.size := by
  unfold width
  cases hf : (args.field? key).bind (natBelow? UInt32.size) with
  | none => exact h
  | some n =>
    obtain ⟨_, _, hn⟩ := Option.bind_eq_some_iff.mp hf
    exact natBelow?_lt hn

end Json

end Breadboard
