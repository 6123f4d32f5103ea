import Breadboard.Definition.Boundary
import Breadboard.Device.Basic

/-!
# Built-in definitions

Each built-in definition gives, for the arguments of a component, the
declared ports and what is built from them. The devices count on the order
of the ports fixed here.
-/

namespace Breadboard

/-- What is built for one component: all its ports, its phases and its
behaviour. A component is valid when its definition has behaviour of its own. -/
structure Assembly where
  ports : List PortDecl
  phases : List Phase
  device : Device
  valid : Bool := true
  deriving Repr

/-- The built-in definitions. -/
inductive Builtin where
  | constant
  | input
  | probe
  | mux
  | adder
  | buffer
  | register
  | ram
  | bridge
  | halt
  | boundary
  deriving DecidableEq, Repr

namespace Builtin

def all : List Builtin :=
  [constant, input, probe, mux, adder, buffer, register, ram, bridge, halt, boundary]

/-- The id under which a definition is kept in a library. -/
def id : Builtin → String
  | constant => "core/io/const"
  | input => "core/io/input"
  | probe => "core/io/probe"
  | mux => "core/flow/mux2"
  | adder => "core/math/adder"
  | buffer => "core/flow/tribuf"
  | register => "core/reg/reg"
  | ram => "core/mem/ram"
  | bridge => "core/bus/bridge"
  | halt => "core/ctrl/halt"
  | boundary => Boundary.definition

def ofId? (id : String) : Option Builtin :=
  all.find? (·.id = id)

/-! ## Ports and behaviour -/

/-- The declared ports. -/
def ports (builtin : Builtin) (args : Json) : List PortDecl :=
  let width := args.width "width" 1
  match builtin with
  | constant | input => [⟨"out", { output := true }, width⟩]
  | probe => [⟨"in", { input := true }, width⟩]
  | mux =>
    [⟨"a", .dataIn, width⟩, ⟨"b", .dataIn, width⟩, ⟨"sel", .ctrlIn, 1⟩,
      ⟨"out", .dataOut, width⟩]
  | adder =>
    [⟨"a", .dataIn, width⟩, ⟨"b", .dataIn, width⟩, ⟨"out", .dataOut, width⟩] ++
      (if args.flag "carryIn" false then [⟨"cin", { input := true }, 1⟩] else []) ++
      (if args.flag "carryOut" false then [⟨"cout", { output := true }, 1⟩] else [])
  | buffer =>
    [⟨"en", .ctrlIn, 1⟩, ⟨"in", .dataIn, width⟩, ⟨"out", .dataOutTri, width⟩]
  | register => [⟨"d", .dataIn, width⟩, ⟨"en", .ctrlIn, 1⟩, ⟨"q", .dataOut, width⟩]
  | ram =>
    [⟨"addr", { input := true, addr := true }, args.width "addrWidth" 4⟩,
      ⟨"data", .dataBus, width⟩, ⟨"we", .ctrlIn, 1⟩, ⟨"oe", .ctrlIn, 1⟩]
  | bridge =>
    [⟨"en", .ctrlIn, 1⟩, ⟨"dir", .ctrlIn, 1⟩, ⟨"a", .dataBus, width⟩,
      ⟨"b", .dataBus, width⟩]
  | halt => [⟨"in", .ctrlIn, 1⟩]
  | boundary =>
    let outer := Boundary.outerDecl args ""
    [⟨Boundary.innerPin, outer.type.flipped, outer.width⟩]

/-- What is built. Only a boundary port has a port that is not declared: its
external pin. -/
def assemble (builtin : Builtin) (args : Json) : Assembly :=
  let width := args.width "width" 1
  let value := trim width (args.word "value" 0)
  let ports := builtin.ports args
  match builtin with
  | constant => { ports, phases := [{ writes := [0] }], device := .constant value }
  | input => { ports, phases := [{ writes := [0] }], device := .input width value }
  | probe => { ports, phases := [{ reads := [0] }], device := .probe }
  | mux => { ports, phases := [{ reads := [0, 1, 2], writes := [3] }], device := .mux }
  | adder =>
    let carryIn := args.flag "carryIn" false
    let carryOut := args.flag "carryOut" false
    let phase : Phase :=
      { reads := [0, 1] ++ (if carryIn then [3] else [])
        writes := [2] ++ (if carryOut then [if carryIn then 4 else 3] else []) }
    { ports, phases := [phase], device := .adder width carryIn carryOut }
  | buffer => { ports, phases := [{ reads := [0, 1], writes := [2] }], device := .buffer }
  | register =>
    { ports, phases := [{ writes := [2] }, { reads := [0, 1], latch := true }]
      device := .register }
  | ram =>
    { ports
      phases := [{ reads := [0, 2, 3], writes := [1] }, { reads := [0, 1, 2], latch := true }]
      device := .ram (args.width "addrWidth" 4) width }
  | bridge =>
    { ports, phases := [{ reads := [0, 1] }, { writes := [2, 3], anyOf := [2, 3] }]
      device := .bridge }
  | halt =>
    { ports, phases := [{ reads := [0] }], device := .halt (args.text "reason" "Halt requested") }
  | boundary =>
    let outer := Boundary.outerDecl args ""
    let phase : Phase :=
      if outer.type.input then { reads := [1], writes := [0] } else { reads := [0], writes := [1] }
    { ports := ports ++ [{ outer with id := Boundary.externalPin }]
      phases := [phase]
      device := .boundary outer.type.input outer.type.tristate value }

end Builtin

end Breadboard
