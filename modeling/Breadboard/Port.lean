import Breadboard.Word

/-!
# Ports

A port is a place where a wire can be attached. Its type is a set of six
flags: two say which way values flow, one allows the pin to stop driving,
three classify the signal.
-/

namespace Breadboard

/-- The flags of a port. A bus pin is input, output and tri-state at once. Of
the three classifying flags only `ctrl` has an effect: a control port always
counts as used. -/
structure PortType where
  input : Bool := false
  output : Bool := false
  tristate : Bool := false
  data : Bool := false
  addr : Bool := false
  ctrl : Bool := false
  deriving DecidableEq, Repr, Inhabited

namespace PortType

/-- The flags in their fixed order, each with its name. -/
def flags (type : PortType) : List (String × Bool) :=
  [("In", type.input), ("Out", type.output), ("Tri", type.tristate),
    ("Data", type.data), ("Addr", type.addr), ("Ctrl", type.ctrl)]

/-- The flags set in either type. -/
def union (a b : PortType) : PortType where
  input := a.input || b.input
  output := a.output || b.output
  tristate := a.tristate || b.tristate
  data := a.data || b.data
  addr := a.addr || b.addr
  ctrl := a.ctrl || b.ctrl

/-- Whether every flag of `b` is set in `a`. -/
def contains (a b : PortType) : Bool :=
  a.union b = a

/-- A pin that can face either way. -/
def bidirectional (type : PortType) : Bool :=
  type.input && type.output

/-- The same port seen from the other side of a hierarchy boundary: input and
output change places and the other flags stay. -/
def flipped (type : PortType) : PortType :=
  { type with input := type.output, output := type.input }

/-- The flags as a number: the first has weight 1 and each next one twice the
weight before. -/
def bits (type : PortType) : Nat :=
  type.flags.foldr (fun (_, set) rest => set.toNat + 2 * rest) 0

/-- The names of the flags that are set. -/
def display (type : PortType) : String :=
  let names := type.flags.filterMap fun (name, set) => if set then some name else none
  "PortType(" ++ String.intercalate "|" names ++ ")"

/-! ## Common types -/

def dataIn : PortType := { input := true, data := true }

def dataOut : PortType := { output := true, data := true }

def dataOutTri : PortType := { output := true, tristate := true, data := true }

def dataBus : PortType := { input := true, output := true, tristate := true, data := true }

def ctrlIn : PortType := { input := true, ctrl := true }

/-! ## Laws -/

theorem flipped_flipped (type : PortType) : type.flipped.flipped = type := rfl

theorem contains_iff (a b : PortType) :
    a.contains b = true ↔
      (b.input → a.input) ∧ (b.output → a.output) ∧ (b.tristate → a.tristate) ∧
      (b.data → a.data) ∧ (b.addr → a.addr) ∧ (b.ctrl → a.ctrl) := by
  obtain ⟨_, _, _, _, _, _⟩ := a
  obtain ⟨_, _, _, _, _, _⟩ := b
  simp only [contains, union, PortType.mk.injEq, decide_eq_true_eq]
  simp only [Bool.or_eq_left_iff_imp]

end PortType

/-- A port as its definition declares it. -/
structure PortDecl where
  id : String
  type : PortType
  width : Nat
  deriving DecidableEq, Repr, Inhabited

/-- A port of a placed part, with the net it is bound to. -/
structure Port extends PortDecl where
  net : Option Nat := none
  deriving DecidableEq, Repr, Inhabited

/-- A port that no wire touches yet. -/
def PortDecl.unbound (decl : PortDecl) : Port :=
  { decl with }

/-- Whether a wire is attached. -/
def Port.bound (port : Port) : Bool :=
  port.net.isSome

end Breadboard
