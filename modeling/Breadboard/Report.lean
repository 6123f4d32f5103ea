import Breadboard.Json.Printer
import Breadboard.Simulation.Basic

/-!
# Reports

Two ways to show the state of a circuit: a table of the nets and their
values, and a JSON value with every net, part and pin. The fields of its
objects are in the order of their names.
-/

namespace Breadboard.Report

/-! ## The table of nets -/

/-- Fill up on the right to a number of characters. -/
def padRight (width : Nat) (text : String) : String :=
  text ++ String.ofList (List.replicate (width - text.length) ' ')

/-- Fill up on the left to a number of characters. -/
def padLeft (width : Nat) (text : String) : String :=
  String.ofList (List.replicate (width - text.length) ' ') ++ text

/-- A word in hexadecimal digits, marked as such. -/
def hexadecimal (value : Word) : String :=
  "0x" ++ String.ofList (Nat.toDigits 16 value.toNat)

/-- What the table adds to the value of a net. -/
def note (net : Net) (state : NetState) : String :=
  if state.isFloating net then " (floating)"
  else if state.isConflicted net then " (conflict)"
  else ""

/-- One line of the table, with its end. -/
def netLine (simulation : Simulation) (net : Net) (index : Nat) : String :=
  let state := simulation.state.net index
  padRight 24 (simulation.netlist.netPath index).text ++ " " ++
    padLeft 6 (hexadecimal state.value) ++ note net state ++ "\n"

/-- All nets, one on a line. -/
def netTable (simulation : Simulation) : String :=
  String.join (simulation.netlist.nets.zipIdx.map fun (net, index) =>
    netLine simulation net index)

/-! ## The JSON snapshot -/

def word (value : Word) : Json :=
  .int value.toNat

def pin (pin : Pin) : Json :=
  .obj [("dir", .str pin.facing.symbol), ("enabled", .bool pin.enabled),
    ("resolved", .bool pin.resolved), ("used", .bool pin.used), ("value", word pin.value)]

/-- The pins of a part by port id. Of several ports with one id only the first
can be named. -/
def pins (part : Part) (state : PartState) : Json :=
  let ids := (part.ports.map (·.id)).eraseDups.mergeSort fun a b => decide (a ≤ b)
  .obj (ids.filterMap fun id => (part.port? id).map fun index => (id, pin (state.pin index)))

def part (simulation : Simulation) (part : Part) (index : Nat) : Json :=
  .obj [("def", .str part.definition), ("path", .str (simulation.netlist.partPath index).text),
    ("ports", pins part (simulation.state.part index)), ("valid", .bool part.valid)]

def net (simulation : Simulation) (net : Net) (index : Nat) : Json :=
  let state := simulation.state.net index
  .obj [("enabled", .int state.enabledCount),
    ("path", .str (simulation.netlist.netPath index).text), ("tristate", .bool net.tristate),
    ("value", word state.value), ("width", .int net.width)]

/-- Everything there is to see. -/
def snapshot (simulation : Simulation) : Json :=
  let reason : Json :=
    match simulation.state.status.reason? with
    | some reason => .str reason
    | none => .null
  .obj [("clock", .int simulation.ticks),
    ("comps", .arr (simulation.netlist.parts.zipIdx.map fun (held, index) =>
      part simulation held index)),
    ("haltReason", reason),
    ("halted", .bool simulation.isHalted),
    ("nets", .arr (simulation.netlist.nets.zipIdx.map fun (held, index) =>
      net simulation held index))]

end Breadboard.Report
