import Breadboard.Library
import Breadboard.Netlist.Basic
import Breadboard.Netlist.WireGroups

/-!
# Flattening

`flatten` turns a schematic into a netlist. A component whose definition has
a schematic is expanded into a scope of its own before it is built; when all
components of a schematic are placed, its wires are bound. A port of an
expanded component stands for two: its own and the external pin of the
boundary port of that id inside. Values that enter reach both; a value that
leaves comes from the component itself if it is valid, and from the boundary
port otherwise.

What cannot be placed or bound is skipped and reported.
-/

namespace Breadboard

/-- A placed component: its part, and for each port id the boundary port inside. -/
structure Placed where
  part : Nat
  boundary : List (String × Nat) := []
  deriving Repr, Inhabited

/-- The components placed so far, the latest first. -/
abbrev Placements := List (String × Placed)

namespace Netlist

def report (netlist : Netlist) (diagnostic : Diagnostic) : Netlist :=
  { netlist with diagnostics := netlist.diagnostics ++ [diagnostic] }

def addScope (netlist : Netlist) (parent : Nat) (name : String) : Netlist :=
  { netlist with scopes := netlist.scopes ++ [{ parent := some parent, name }] }

def addPart (netlist : Netlist) (part : Part) : Netlist :=
  { netlist with parts := netlist.parts ++ [part] }

/-! ## Binding wires -/

/-- Attach a port to a net. Its width is that of the first port attached, and a
port of another width is turned away. A port that neither drives nor reads is
left alone. -/
def bind (netlist : Netlist) (index : Nat) (ref : PortRef) (asSource : Bool) : Netlist :=
  match netlist.port? ref, netlist.nets[index]? with
  | some port, some net =>
    let drives := asSource && port.type.output
    let reads := port.type.input
    if !drives && !reads then netlist
    else if net.width ≠ 0 ∧ net.width ≠ port.width then
      netlist.report (.widthMismatch (netlist.netPath index) net.width port.width)
    else
      let net :=
        { net with
          width := port.width
          tristate := net.tristate || port.type.tristate
          sources := if drives then net.sources ++ [ref] else net.sources
          targets := if reads then net.targets ++ [ref] else net.targets }
      let attach (part : Part) : Part :=
        { part with ports := part.ports.modify ref.port fun port => { port with net := index } }
      { netlist with
        nets := netlist.nets.set index net
        parts := netlist.parts.modify ref.part attach }
  | _, _ => netlist

/-- Attach a port of a placed component, and the boundary port behind it if
there is one. -/
def bindPlaced (netlist : Netlist) (index : Nat) (placed : Placed) (port : Nat) (id : String) :
    Netlist :=
  let outer : PortRef := ⟨placed.part, port⟩
  let inner : Option PortRef :=
    (placed.boundary.lookup id).bind fun part =>
      (netlist.parts[part]?.bind (·.port? Boundary.externalPin)).map (⟨part, ·⟩)
  match inner with
  | none => netlist.bind index outer true
  | some inner =>
    let own := netlist.parts[placed.part]?.any (·.valid)
    (netlist.bind index outer own).bind index inner !own

/-- Attach one end of a wire to a net. -/
def bindEnd (scope : Nat) (placements : Placements) (index : Nat) (netlist : Netlist)
    (wireEnd : String × Endpoint) : Netlist :=
  let (wire, endpoint) := wireEnd
  match placements.lookup endpoint.component with
  | none =>
    netlist.report (.unknownComponent (localPath netlist.scopes scope wire) endpoint.component)
  | some placed =>
    match netlist.parts[placed.part]?.bind (·.port? endpoint.port) with
    | none => netlist.report (.unknownPort (netlist.partPath placed.part) endpoint.port)
    | some port => netlist.bindPlaced index placed port endpoint.port

/-- The ends of a group of wires, each with the wire that names it first. -/
def groupEnds (wires : List Wire) : List (String × Endpoint) :=
  (wires.flatMap fun wire => wire.endpoints.map (wire.id, ·)).eraseDupsBy fun a b => a.2 == b.2

/-- Make the net of a group of wires. -/
def bindGroup (wires : List Wire) (scope : Nat) (placements : Placements) (netlist : Netlist)
    (group : List Nat) : Netlist :=
  let members := group.filterMap (wires[·]?)
  let index := netlist.nets.length
  let netlist :=
    { netlist with nets := netlist.nets ++ [{ scope, wires := members.map (·.id) }] }
  (groupEnds members).foldl (bindEnd scope placements index) netlist

/-- Make the nets of all wires of a schematic. -/
def bindWires (wires : List Wire) (scope : Nat) (placements : Placements) (netlist : Netlist) :
    Netlist :=
  (wireGroups wires).foldl (bindGroup wires scope placements) netlist

end Netlist

/-! ## Placing components -/

/-- The part that an assembly becomes. -/
def Assembly.toPart (assembly : Assembly) (component : Component) (scope : Nat) : Part where
  id := component.id
  scope
  definition := component.definition
  ports := assembly.ports.map PortDecl.unbound
  phases := assembly.phases
  device := assembly.device
  valid := assembly.valid

/-- For each port id the part of the boundary port that shows it; the latest
first. -/
def boundaryParts (inside : Schematic) (inner : Placements) : List (String × Nat) :=
  let shown (component : Component) : Option (String × Nat) :=
    (inner.lookup component.id).map fun placed =>
      ((Boundary.outerDecl component.args component.id).id, placed.part)
  ((inside.components.filter (·.definition = Boundary.definition)).filterMap shown).reverse

/-- How a schematic is laid out in a scope of a netlist. -/
abbrev Layout := Schematic → Nat → Netlist → Netlist × Placements

/-- Place one component. `expand` lays out the schematic of its definition. -/
def place (library : Library) (expand : Layout) (scope : Nat) (state : Netlist × Placements)
    (component : Component) : Netlist × Placements :=
  let (netlist, placements) := state
  let path := localPath netlist.scopes scope component.id
  match library.get? component.definition with
  | none => (netlist.report (.unknownDefinition path component.definition), placements)
  | some entry =>
    let (netlist, boundary) :=
      match entry.inside with
      | none => (netlist, [])
      | some inside =>
        let child := netlist.scopes.length
        let (netlist, inner) := expand inside child (netlist.addScope scope component.id)
        (netlist, boundaryParts inside inner)
    match entry.definition.assemble component.args with
    | .error error => (netlist.report (.build path error), placements)
    | .ok assembly =>
      let placed : Placed := ⟨netlist.parts.length, boundary⟩
      (netlist.addPart (assembly.toPart component scope), (component.id, placed) :: placements)

/-- Lay out a schematic with at most `depth` levels of hierarchy below and
including it. -/
def layout (library : Library) : (depth : Nat) → Layout
  | 0 => fun _ _ netlist => (netlist, [])
  | depth + 1 => fun schematic scope netlist =>
    let (netlist, placements) :=
      schematic.components.foldl (place library (layout library depth) scope) (netlist, [])
    (netlist.bindWires schematic.wires scope placements, placements)

/-! ## The flat circuit -/

/-- Report the nets that are not tri-state and have several drivers. -/
def Netlist.reportDrivers (netlist : Netlist) : Netlist :=
  let found := netlist.nets.zipIdx.filterMap fun (net, index) =>
    if !net.tristate && 1 < net.sources.length then
      some (.multipleDrivers (netlist.netPath index) net.sources.length)
    else none
  { netlist with diagnostics := netlist.diagnostics ++ found }

/-- Flatten a schematic. A definition that does not contain itself is nested in
at most as many others as the library has, so that many levels are enough. -/
def flatten (library : Library) (schematic : Schematic) : Netlist :=
  let top : Netlist := { scopes := [⟨none, ""⟩] }
  (layout library (library.entries.length + 1) schematic 0 top).1.reportDrivers

end Breadboard
