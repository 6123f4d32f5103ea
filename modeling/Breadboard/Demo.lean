import Breadboard.Library

/-!
# Canned circuits

Small circuits to try things out on, and a library with one more definition,
an incrementer that exists only as a schematic.
-/

namespace Breadboard.Demo

/-! ## Components -/

/-- The arguments of a component given by its width alone. -/
def wide (width : Nat) : Json :=
  .obj [("width", .int width)]

def wideValue (width value : Nat) : Json :=
  .obj [("width", .int width), ("value", .int value)]

def bit (value : Nat) : Json :=
  .obj [("value", .int value)]

def component (builtin : Builtin) (id : String) (args : Json) : Component :=
  ⟨id, builtin.id, args⟩

/-! ## Circuits -/

/-- An 8-bit incrementer from `i` to `o`, with boundary ports. -/
def incrementer : Schematic where
  components :=
    [component .boundary "i" (.obj [("dir", .str "in"), ("width", .int 8)]),
      component .boundary "o" (.obj [("dir", .str "out"), ("width", .int 8)]),
      component .constant "one" (wideValue 8 1),
      component .adder "add" (wide 8)]
  wires :=
    [.ofTexts "wi" ["i.a", "add.a"],
      .ofTexts "w1" ["one.out", "add.b"],
      .ofTexts "wo" ["add.out", "o.a"]]

/-- The built-in definitions and `demo/inc`. -/
def library : Library :=
  Library.builtin.addSchematic "demo/inc" incrementer

/-- `out` shows `a`, which is 5, while `sel` is 0, and `b`, which is 9,
otherwise. -/
def mux (sel : Nat) : Schematic where
  components :=
    [component .input "a" (wideValue 8 5),
      component .input "b" (wideValue 8 9),
      component .input "sel" (bit sel),
      component .mux "mux" (wide 8),
      component .probe "out" (wide 8)]
  wires :=
    [.ofTexts "wa" ["a.out", "mux.a"],
      .ofTexts "wb" ["b.out", "mux.b"],
      .ofTexts "wsel" ["sel.out", "mux.sel"],
      .ofTexts "wout" ["mux.out", "out.in"]]

/-- A register that counts up on every clock edge. Setting `stop` halts the
circuit. -/
def counter (width : Nat) : Schematic where
  components :=
    [component .register "count" (wide width),
      component .constant "one" (wideValue width 1),
      component .adder "inc" (wide width),
      component .probe "out" (wide width),
      component .input "stop" (.obj []),
      component .halt "halt" (.obj [("reason", .str "Stop switch set")])]
  wires :=
    [.ofTexts "q" ["count.q", "inc.a", "out.in"],
      .ofTexts "w1" ["one.out", "inc.b"],
      .ofTexts "next" ["inc.out", "count.d"],
      .ofTexts "wstop" ["stop.out", "halt.in"]]

/-- Two buffers and a memory that share one 8-bit bus. -/
def bus : Schematic where
  components :=
    [component .input "x" (wideValue 8 5),
      component .input "y" (wideValue 8 9),
      component .input "en_x" (bit 1),
      component .input "en_y" (bit 0),
      component .buffer "tx" (wide 8),
      component .buffer "ty" (wide 8),
      component .input "addr" (wide 4),
      component .input "we" (.obj []),
      component .input "oe" (.obj []),
      component .ram "ram" (.obj [("width", .int 8), ("addrWidth", .int 4)]),
      component .probe "probe" (wide 8)]
  wires :=
    [.ofTexts "wx" ["x.out", "tx.in"],
      .ofTexts "wy" ["y.out", "ty.in"],
      .ofTexts "wen_x" ["en_x.out", "tx.en"],
      .ofTexts "wen_y" ["en_y.out", "ty.en"],
      .ofTexts "waddr" ["addr.out", "ram.addr"],
      .ofTexts "wwe" ["we.out", "ram.we"],
      .ofTexts "woe" ["oe.out", "ram.oe"],
      .ofTexts "bus" ["tx.out", "ty.out", "ram.data", "probe.in"]]

/-- Two buses joined by a bridge; `x` drives one and `y` the other. -/
def bridge : Schematic where
  components :=
    [component .input "x" (wideValue 8 5),
      component .input "y" (wideValue 8 9),
      component .input "en_x" (bit 1),
      component .input "en_y" (bit 0),
      component .buffer "tx" (wide 8),
      component .buffer "ty" (wide 8),
      component .input "en" (bit 1),
      component .input "dir" (bit 0),
      component .bridge "bridge" (wide 8),
      component .probe "pa" (wide 8),
      component .probe "pb" (wide 8)]
  wires :=
    [.ofTexts "wx" ["x.out", "tx.in"],
      .ofTexts "wy" ["y.out", "ty.in"],
      .ofTexts "wen_x" ["en_x.out", "tx.en"],
      .ofTexts "wen_y" ["en_y.out", "ty.en"],
      .ofTexts "wen" ["en.out", "bridge.en"],
      .ofTexts "wdir" ["dir.out", "bridge.dir"],
      .ofTexts "bus_a" ["tx.out", "bridge.a", "pa.in"],
      .ofTexts "bus_b" ["ty.out", "bridge.b", "pb.in"]]

/-- `x` through the incrementer of the library. -/
def hierarchy : Schematic where
  components :=
    [component .input "x" (wideValue 8 41),
      ⟨"inc", "demo/inc", .obj []⟩,
      component .probe "out" (wide 8)]
  wires :=
    [.ofTexts "wx" ["x.out", "inc.i"],
      .ofTexts "wout" ["inc.o", "out.in"]]

/-- The same circuit with the incrementer placed inline. -/
def inlined : Schematic where
  components :=
    [component .input "x" (wideValue 8 41),
      component .constant "one" (wideValue 8 1),
      component .adder "add" (wide 8),
      component .probe "out" (wide 8)]
  wires :=
    [.ofTexts "wx" ["x.out", "add.a"],
      .ofTexts "w1" ["one.out", "add.b"],
      .ofTexts "wout" ["add.out", "out.in"]]

/-- The circuits that can be asked for by name. -/
def named : List (String × Schematic) :=
  [("mux", mux 0), ("counter", counter 8), ("bus", bus), ("bridge", bridge), ("hier", hierarchy)]

def schematic? (name : String) : Option Schematic :=
  named.lookup name

def names : List String :=
  named.map (·.1)

end Breadboard.Demo
