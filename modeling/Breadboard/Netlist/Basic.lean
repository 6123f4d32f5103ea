import Breadboard.Device.Basic
import Breadboard.Diagnostic

/-!
# Netlists

A netlist is a flat circuit: parts, nets that join their ports, and the
scopes that both were placed in. It holds nothing that changes while the
circuit runs. Parts, nets and scopes are known by their positions; a scope's
parent stands before it, and the scope at position 0 is the top.
-/

namespace Breadboard

/-- One level of hierarchy: the scope around it, none for the top, and the id of
the component that it expands. -/
structure Scope where
  parent : Option Nat
  name : String
  deriving DecidableEq, Repr, Inhabited

/-- A port of a part. -/
structure PortRef where
  part : Nat
  port : Nat
  deriving DecidableEq, Repr, Inhabited

/-- A net: the wires that form it, the ports that may drive it and the ports
that read it. The width is 0 until the first port is bound. -/
structure Net where
  scope : Nat
  wires : List String
  width : Nat := 0
  tristate : Bool := false
  sources : List PortRef := []
  targets : List PortRef := []
  deriving DecidableEq, Repr, Inhabited

/-- A component as it was built. -/
structure Part where
  id : String
  scope : Nat
  definition : String
  ports : List Port
  phases : List Phase
  device : Device
  valid : Bool
  deriving Repr, Inhabited

namespace Part

/-- The position of the first port with this id. -/
def port? (part : Part) (id : String) : Option Nat :=
  part.ports.findIdx? (·.id = id)

/-- Whether the clock edge concerns the part. -/
def latched (part : Part) : Bool :=
  part.phases.any (·.latch)

end Part

/-- A flat circuit, with what was found wrong while it was made. -/
structure Netlist where
  parts : List Part := []
  nets : List Net := []
  scopes : List Scope := []
  diagnostics : List Diagnostic := []
  deriving Repr, Inhabited

/-! ## Paths -/

/-- The path of a scope; none for the top. -/
def scopePath (scopes : List Scope) (index : Nat) : Option Path :=
  match scopes[index]? with
  | some ⟨some parent, name⟩ =>
    if parent < index then
      match scopePath scopes parent with
      | some path => some (path.join name)
      | none => some ⟨name⟩
    else none
  | _ => none

/-- The path of `id` in a scope. -/
def localPath (scopes : List Scope) (scope : Nat) (id : String) : Path :=
  match scopePath scopes scope with
  | some path => path.join id
  | none => ⟨id⟩

/-- The last entry for a path: where a path was given twice, the later one
counts. -/
def latest? (entries : List (Path × Nat)) (path : Path) : Option Nat :=
  entries.reverse.lookup path

/-- The entries that can be found, one for each path, in the order of the paths. -/
def latestEntries (entries : List (Path × Nat)) : List (Path × Nat) :=
  let paths := (entries.map (·.1)).eraseDups.mergeSort fun a b => (compare a b).isLE
  paths.filterMap fun path => (latest? entries path).map (path, ·)

namespace Netlist

def partPath (netlist : Netlist) (index : Nat) : Path :=
  let part := netlist.parts.getD index default
  localPath netlist.scopes part.scope part.id

/-- A net is known by its first wire. -/
def netPath (netlist : Netlist) (index : Nat) : Path :=
  let net := netlist.nets.getD index default
  match net.wires with
  | wire :: _ => localPath netlist.scopes net.scope wire
  | [] => ⟨"net" ++ toString index⟩

def port? (netlist : Netlist) (ref : PortRef) : Option Port :=
  netlist.parts[ref.part]?.bind (·.ports[ref.port]?)

def portPath (netlist : Netlist) (ref : PortRef) : Path :=
  (netlist.partPath ref.part).join ((netlist.port? ref).getD default).id

/-- The path of every part. -/
def partEntries (netlist : Netlist) : List (Path × Nat) :=
  (List.range netlist.parts.length).map fun index => (netlist.partPath index, index)

/-- The path of every wire of every net. -/
def netEntries (netlist : Netlist) : List (Path × Nat) :=
  netlist.nets.zipIdx.flatMap fun (net, index) =>
    net.wires.map fun wire => (localPath netlist.scopes net.scope wire, index)

/-- The part at a path. -/
def partAt? (netlist : Netlist) (path : Path) : Option Nat :=
  latest? netlist.partEntries path

/-- The net that the wire at a path belongs to. -/
def netAt? (netlist : Netlist) (path : Path) : Option Nat :=
  latest? netlist.netEntries path

/-- The net that a port drives: it is bound to it and listed among its sources. -/
def drivenNet? (netlist : Netlist) (ref : PortRef) : Option Nat :=
  ((netlist.port? ref).bind (·.net)).filter fun net =>
    netlist.nets[net]?.any fun net => ref ∈ net.sources

/-- The net that a port reads: it is bound to it and listed among its targets. -/
def readNet? (netlist : Netlist) (ref : PortRef) : Option Nat :=
  ((netlist.port? ref).bind (·.net)).filter fun net =>
    netlist.nets[net]?.any fun net => ref ∈ net.targets

end Netlist

end Breadboard
