import Breadboard.Simulation.Basic

/-!
# Looking things up

Reading and setting a running circuit from outside, by path. The text
`component.port` names a port; its component ends at the last point.
-/

namespace Breadboard

/-- The kinds of parts that can be read or set from outside. -/
inductive PartKind where
  | input
  | probe
  | register
  | ram
  deriving DecidableEq, Repr

/-- Why something was not found. -/
inductive LookupError where
  | noPart (path : String)
  | noNet (path : String)
  | notPortPath (text : String)
  | noPort (part port : String)
  | wrongKind (path : String) (kind : PartKind)
  deriving DecidableEq, Repr

/-- The wording of a failed look-up, given what the kinds of parts are called. -/
def LookupError.message (kindName : PartKind → String) : LookupError → String
  | noPart path => s!"No component at {path}"
  | noNet path => s!"No net at {path}"
  | notPortPath text => s!"Expected comp.port, found {text}"
  | noPort part port => s!"Component {part} has no port {port}"
  | wrongKind path kind =>
    let name := kindName kind
    s!"Component {path} is not a {name}"

namespace Simulation

def partAt (simulation : Simulation) (path : String) : Except LookupError Nat :=
  match simulation.netlist.partAt? ⟨path⟩ with
  | some index => .ok index
  | none => .error (.noPart path)

def netAt (simulation : Simulation) (path : String) : Except LookupError Nat :=
  match simulation.netlist.netAt? ⟨path⟩ with
  | some index => .ok index
  | none => .error (.noNet path)

/-- The pin of a part that belongs to a port id. -/
def pinState? (simulation : Simulation) (index : Nat) (port : String) : Option Pin := do
  let part ← simulation.netlist.parts[index]?
  let position ← part.port? port
  return (simulation.state.part index).pin position

/-- A net with its state. -/
def netState? (simulation : Simulation) (index : Nat) : Option (Net × NetState) :=
  simulation.netlist.nets[index]?.map (·, simulation.state.net index)

/-- The value of the net at a path. -/
def peek (simulation : Simulation) (path : String) : Except LookupError Word :=
  (simulation.netAt path).map fun index => (simulation.state.net index).value

/-- The value of a port given as `component.port`. -/
def peekPort (simulation : Simulation) (text : String) : Except LookupError Word :=
  match splitLast '.' text.toList with
  | none => .error (.notPortPath text)
  | some (component, port) => do
    let path := String.ofList component
    let port := String.ofList port
    let index ← simulation.partAt path
    match simulation.pinState? index port with
    | some pin => return pin.value
    | none => throw (.noPort path port)

/-! ## Parts of a kind -/

/-- The part at a path, with what `read` finds in its memory. -/
def partOf {α : Type} (simulation : Simulation) (path : String) (kind : PartKind)
    (read : Memory → Option α) : Except LookupError (Nat × α) := do
  let index ← simulation.partAt path
  match read (simulation.state.part index).memory with
  | some found => return (index, found)
  | none => throw (.wrongKind path kind)

def setMemory (simulation : Simulation) (index : Nat) (memory : Memory) : Simulation :=
  let part := simulation.state.part index
  { simulation with state := simulation.state.setPart index { part with memory } }

def inputValue (simulation : Simulation) (path : String) : Except LookupError Word :=
  (·.2) <$> simulation.partOf path .input fun
    | .input value => some value
    | _ => none

/-- Set an input, cut to its width. Nothing propagates before the next settle. -/
def setInput (simulation : Simulation) (path : String) (value : Word) :
    Except LookupError Simulation := do
  let (index, _) ← simulation.partOf path .input fun
    | .input value => some value
    | _ => none
  match (simulation.netlist.parts.getD index default).device with
  | .input width _ => return simulation.setMemory index (.input (trim width value))
  | _ => return simulation

def probeValue (simulation : Simulation) (path : String) : Except LookupError (Word × Bool) :=
  (·.2) <$> simulation.partOf path .probe fun
    | .probe value resolved => some (value, resolved)
    | _ => none

def registerValue (simulation : Simulation) (path : String) : Except LookupError Word :=
  (·.2) <$> simulation.partOf path .register fun
    | .register value => some value
    | _ => none

/-- The cells of a memory. -/
def ramCells (simulation : Simulation) (path : String) : Except LookupError (Array Word) :=
  (·.2) <$> simulation.partOf path .ram fun
    | .ram cells => some cells
    | _ => none

/-- The value of a cell; none beyond the end. -/
def readRam (simulation : Simulation) (path : String) (addr : Nat) :
    Except LookupError (Option Word) :=
  (·[addr]?) <$> simulation.ramCells path

/-- Set a cell, cut to the width of the memory. Beyond the end nothing happens. -/
def writeRam (simulation : Simulation) (path : String) (addr : Nat) (value : Word) :
    Except LookupError Simulation := do
  let (index, cells) ← simulation.partOf path .ram fun
    | .ram cells => some cells
    | _ => none
  match (simulation.netlist.parts.getD index default).device with
  | .ram _ width =>
    return simulation.setMemory index (.ram (cells.setIfInBounds addr (trim width value)))
  | _ => return simulation

end Simulation

end Breadboard
