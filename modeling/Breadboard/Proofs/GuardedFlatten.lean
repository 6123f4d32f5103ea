import Breadboard.Proofs.Attempts
import Breadboard.Proofs.Guards
import Breadboard.Proofs.Inline

/-!
# Flattening meets no trap

`Guarded.flatten` lays a schematic out as `flatten` does, but looks every scope, part,
port and net up in its table, and gives up where a definition is expanded deeper than a
library without self-containing definitions allows. It returns the netlist of `flatten`
for every schematic, however malformed (`Guarded.flatten_eq`): what was placed keeps its
place, and scopes come behind the ones around them (`Netlist.Housed`).
-/

namespace Breadboard

namespace Guarded

/-! ## Paths -/

/-- The path of a scope; none for the top. -/
def scopePath (scopes : List Scope) (index : Nat) : Guarded (Option Path) :=
  match scopes[index]? with
  | none => .error .index
  | some ⟨none, _⟩ => .ok none
  | some ⟨some parent, name⟩ =>
    if parent < index then do
      match ← scopePath scopes parent with
      | some path => return some (path.join name)
      | none => return some ⟨name⟩
    else .error .endless

def localPath (scopes : List Scope) (scope : Nat) (id : String) : Guarded Path := do
  match ← scopePath scopes scope with
  | some path => return path.join id
  | none => return ⟨id⟩

def partPath (netlist : Netlist) (index : Nat) : Guarded Path := do
  let part ← entry netlist.parts index
  localPath netlist.scopes part.scope part.id

def netPath (netlist : Netlist) (index : Nat) : Guarded Path := do
  let net ← entry netlist.nets index
  match net.wires with
  | wire :: _ => localPath netlist.scopes net.scope wire
  | [] => return ⟨"net" ++ toString index⟩

/-! ## Merging wires -/

/-- The root above a wire, on a way that goes to earlier wires only. -/
def find (forest : Forest) (wire : Nat) : Guarded (Forest × Nat) := do
  let parent ← entry forest.parents wire
  if parent = wire then
    return (forest, wire)
  let above ← entry forest.parents parent
  if h : above < wire then
    find (forest.hang wire above (Nat.le_of_lt h)) above
  else .error .endless
termination_by wire

/-- Make one class of the classes of two wires. -/
def merge (forest : Forest) (wire other : Nat) : Guarded Forest := do
  let (forest, first) ← find forest wire
  let (forest, second) ← find forest other
  let _ ← within forest.parents.length (max first second)
  return forest.hang (max first second) (min first second)
    (Forest.min_le_max first second)

/-- Visit one end of a wire. -/
def visit (merging : Merging) (wireEnd : Nat × Endpoint) : Guarded Merging := do
  let (wire, endpoint) := wireEnd
  match merging.owners.lookup endpoint with
  | some owner => return { merging with forest := ← merge merging.forest wire owner }
  | none => return { merging with owners := (endpoint, wire) :: merging.owners }

def roots (forest : Forest) : List Nat → Guarded (List Nat)
  | [] => return []
  | wire :: rest => do
    let (forest, root) ← find forest wire
    return root :: (← roots forest rest)

def wireGroups (wires : List Wire) : Guarded (List (List Nat)) := do
  let merging ← (numberedEnds wires).foldlM visit { forest := .apart wires.length }
  return classes (← roots merging.forest (List.range wires.length))

/-! ## Binding wires -/

/-- Attach a port to a net. -/
def bindPort (netlist : Netlist) (index : Nat) (ref : PortRef) (asSource : Bool) :
    Guarded Netlist := do
  let part ← entry netlist.parts ref.part
  let port ← entry part.ports ref.port
  let drives := asSource && port.type.output
  let reads := port.type.input
  if !drives && !reads then
    return netlist
  let net ← entry netlist.nets index
  if net.width ≠ 0 ∧ net.width ≠ port.width then
    let path ← netPath netlist index
    return netlist.report (.widthMismatch path net.width port.width)
  let nets ← replace netlist.nets index
    { net with
      width := port.width
      tristate := net.tristate || port.type.tristate
      sources := if drives then net.sources ++ [ref] else net.sources
      targets := if reads then net.targets ++ [ref] else net.targets }
  let ports ← change part.ports ref.port fun port => { port with net := index }
  let parts ← replace netlist.parts ref.part { part with ports }
  return { netlist with nets, parts }

/-- Attach a port of a placed component, and the boundary port behind it if there is one. -/
def bindPlaced (netlist : Netlist) (index : Nat) (placed : Placed) (port : Nat) (id : String) :
    Guarded Netlist := do
  match placed.boundary.lookup id with
  | none => bindPort netlist index ⟨placed.part, port⟩ true
  | some boundary =>
    let shown ← entry netlist.parts boundary
    match shown.port? Boundary.externalPin with
    | none => bindPort netlist index ⟨placed.part, port⟩ true
    | some external =>
      let host ← entry netlist.parts placed.part
      let netlist ← bindPort netlist index ⟨placed.part, port⟩ host.valid
      bindPort netlist index ⟨boundary, external⟩ !host.valid

/-- Attach one end of a wire to a net. -/
def bindEnd (scope : Nat) (placements : Placements) (index : Nat) (netlist : Netlist)
    (wireEnd : String × Endpoint) : Guarded Netlist := do
  let (wire, endpoint) := wireEnd
  match placements.lookup endpoint.component with
  | none =>
    let path ← localPath netlist.scopes scope wire
    return netlist.report (.unknownComponent path endpoint.component)
  | some placed =>
    let host ← entry netlist.parts placed.part
    match host.port? endpoint.port with
    | none =>
      let path ← partPath netlist placed.part
      return netlist.report (.unknownPort path endpoint.port)
    | some port => bindPlaced netlist index placed port endpoint.port

/-- Make the net of a group of wires, which can be found by each of them. -/
def bindGroup (wires : List Wire) (scope : Nat) (placements : Placements) (netlist : Netlist)
    (group : List Nat) : Guarded Netlist := do
  let members ← group.mapM (entry wires)
  let _ ← members.mapM fun wire => localPath netlist.scopes scope wire.id
  let index := netlist.nets.length
  let netlist :=
    { netlist with nets := netlist.nets ++ [{ scope, wires := members.map (·.id) }] }
  (Netlist.groupEnds members).foldlM (bindEnd scope placements index) netlist

def bindWires (wires : List Wire) (scope : Nat) (placements : Placements) (netlist : Netlist) :
    Guarded Netlist := do
  (← wireGroups wires).foldlM (bindGroup wires scope placements) netlist

/-! ## Placing components -/

/-- What a built-in definition builds. The external pin of a boundary port is the last of
its ports. -/
def assembleBuiltin (builtin : Builtin) (args : Json) : Guarded Assembly := do
  let value ← trim (args.width "width" 1) (args.word "value" 0)
  let assembly := builtin.assemble args
  match builtin with
  | .constant => return { assembly with device := .constant value }
  | .input => return { assembly with device := .input (args.width "width" 1) value }
  | .boundary =>
    let outer := Boundary.outerDecl args ""
    let external ← sub assembly.ports.length 1
    let phase : Phase :=
      if outer.type.input then { reads := [external], writes := [0] }
      else { reads := [0], writes := [external] }
    return { assembly with
      phases := [phase]
      device := .boundary outer.type.input outer.type.tristate value }
  | _ => return assembly

def assemble (definition : Definition) (args : Json) : Guarded (Except BuildError Assembly) := do
  match definition.behaviour with
  | .builtin builtin => return .ok (← assembleBuiltin builtin args)
  | _ => return definition.assemble args

/-- How a schematic is laid out in a scope of a netlist. -/
abbrev Layout := Schematic → Nat → Netlist → Guarded (Netlist × Placements)

/-- Lay out what a component expands to. -/
def enter (expand : Layout) (scope : Nat) (netlist : Netlist) (component : Component) :
    (inside : Option Schematic) → Guarded (Netlist × List (String × Nat))
  | none => return (netlist, [])
  | some inside => do
    let (netlist, inner) ← expand inside netlist.scopes.length
      (netlist.addScope scope component.id)
    return (netlist, boundaryParts inside inner)

/-- Place one component. -/
def place (library : Library) (expand : Layout) (scope : Nat) (state : Netlist × Placements)
    (component : Component) : Guarded (Netlist × Placements) := do
  let (netlist, placements) := state
  let path ← localPath netlist.scopes scope component.id
  match library.get? component.definition with
  | none => return (netlist.report (.unknownDefinition path component.definition), placements)
  | some found =>
    let (netlist, boundary) ← enter expand scope netlist component found.inside
    match ← assemble found.definition component.args with
    | .error error => return (netlist.report (.build path error), placements)
    | .ok assembly =>
      let placed : Placed := ⟨netlist.parts.length, boundary⟩
      return (netlist.addPart (assembly.toPart component scope),
        (component.id, placed) :: placements)

/-- Lay out a schematic, and give up below the last level. -/
def layout (library : Library) : (depth : Nat) → Layout
  | 0 => fun _ _ _ => .error .endless
  | depth + 1 => fun schematic scope netlist => do
    let (netlist, placements) ←
      schematic.components.foldlM (place library (layout library depth) scope) (netlist, [])
    let netlist ← bindWires schematic.wires scope placements netlist
    return (netlist, placements)

/-! ## The flat circuit -/

/-- Report the nets that are not tri-state and have several drivers. -/
def reportDrivers (netlist : Netlist) : Guarded Netlist := do
  let report (entry : Net × Nat) : Guarded (Option Diagnostic) := do
    let (net, index) := entry
    if !net.tristate && 1 < net.sources.length then
      return some (.multipleDrivers (← netPath netlist index) net.sources.length)
    else return none
  return { netlist with
    diagnostics := netlist.diagnostics ++ (← gather report netlist.nets.zipIdx) }

def flatten (library : Library) (schematic : Schematic) : Guarded Netlist := do
  let (netlist, _) ← layout library (library.entries.length + 1) schematic 0
    { scopes := [⟨none, ""⟩] }
  reportDrivers netlist

end Guarded

/-! ## What is placed keeps its place -/

/-- Scopes stand behind the ones around them, and parts and nets in scopes that exist. -/
structure Netlist.Housed (netlist : Netlist) : Prop where
  nested : ∀ {index parent : Nat} {name : String},
    netlist.scopes[index]? = some ⟨some parent, name⟩ → parent < index
  part : ∀ part ∈ netlist.parts, part.scope < netlist.scopes.length
  net : ∀ net ∈ netlist.nets, net.scope < netlist.scopes.length

namespace Netlist

variable {library : Library} {netlist next : Netlist} {index scope : Nat} {ref : PortRef}
  {asSource : Bool} {placements : Placements} {port : Port}

namespace Housed

theorem report (h : netlist.Housed) (diagnostic : Diagnostic) :
    (netlist.report diagnostic).Housed :=
  ⟨h.nested, h.part, h.net⟩

theorem addScope (h : netlist.Housed) (hscope : scope < netlist.scopes.length) (name : String) :
    (netlist.addScope scope name).Housed := by
  have hlength : (netlist.addScope scope name).scopes.length = netlist.scopes.length + 1 := by
    simp [Netlist.addScope]
  refine ⟨fun {index parent other} hfound => ?_, fun part hpart => ?_, fun net hnet => ?_⟩
  · rcases Nat.lt_or_ge index netlist.scopes.length with hlt | hge
    · exact h.nested ((List.getElem?_append_left hlt).symm.trans hfound)
    · have hindex : index < netlist.scopes.length + 1 :=
        hlength ▸ (List.getElem?_eq_some_iff.mp hfound).1
      obtain rfl : index = netlist.scopes.length := by omega
      have hlast : (⟨some scope, name⟩ : Scope) = ⟨some parent, other⟩ :=
        Option.some.inj (List.getElem?_concat_length.symm.trans hfound)
      cases hlast
      exact hscope
  · rw [hlength]
    exact Nat.lt_succ_of_lt (h.part part hpart)
  · rw [hlength]
    exact Nat.lt_succ_of_lt (h.net net hnet)

theorem addPart (h : netlist.Housed) {part : Part} (hscope : part.scope < netlist.scopes.length) :
    (netlist.addPart part).Housed := by
  refine ⟨h.nested, fun other hother => ?_, h.net⟩
  rcases List.mem_append.mp hother with hother | hother
  · exact h.part other hother
  · rw [List.mem_singleton.mp hother]
    exact hscope

theorem addNet (h : netlist.Housed) (hscope : scope < netlist.scopes.length)
    (wires : List String) :
    ({ netlist with nets := netlist.nets ++ [{ scope, wires }] } : Netlist).Housed := by
  refine ⟨h.nested, h.part, fun other hother => ?_⟩
  rcases List.mem_append.mp hother with hother | hother
  · exact h.net other hother
  · rw [List.mem_singleton.mp hother]
    exact hscope

end Housed

theorem scopes_bind (netlist : Netlist) (index : Nat) (ref : PortRef) (asSource : Bool) :
    (netlist.bind index ref asSource).scopes = netlist.scopes := by
  rcases bind_cases netlist index ref asSource with ⟨_, heq⟩ | ⟨_, _, _, _, _, _, heq⟩
  · rw [heq]
  · rw [heq, scopes_attached]

theorem Housed.bind (h : netlist.Housed) : (netlist.bind index ref asSource).Housed := by
  rcases bind_cases netlist index ref asSource with
    ⟨_, heq⟩ | ⟨port, net, hport, hnet, -, -, heq⟩
  · rw [heq]
    exact ⟨h.nested, h.part, h.net⟩
  · rw [heq]
    refine ⟨h.nested, fun part hpart => ?_, fun other hother => ?_⟩
    · obtain ⟨position, hposition⟩ := List.mem_iff_getElem?.mp hpart
      rw [parts_attached] at hposition
      obtain ⟨before, hbefore, rfl⟩ := Option.map_eq_some_iff.mp hposition
      have hscope := h.part before (List.mem_of_getElem? hbefore)
      split <;> exact hscope
    · rcases List.mem_or_eq_of_mem_set hother with hother | rfl
      · exact h.net other hother
      · exact h.net net (List.mem_of_getElem? hnet)

/-- What binding the ends of a wire relies on: the net and the scope exist, and so do the
parts of the placed components. -/
structure Ready (netlist : Netlist) (index scope : Nat) (placements : Placements) : Prop where
  housed : netlist.Housed
  index : index < netlist.nets.length
  scope : scope < netlist.scopes.length
  placed : Within netlist.parts.length placements

namespace Ready

theorem report (h : netlist.Ready index scope placements) (diagnostic : Diagnostic) :
    (netlist.report diagnostic).Ready index scope placements :=
  ⟨h.housed.report diagnostic, h.index, h.scope, h.placed⟩

theorem bind (h : netlist.Ready index scope placements) :
    (netlist.bind index ref asSource).Ready index scope placements := by
  obtain ⟨hparts, hnets⟩ := length_bind netlist index ref asSource
  refine ⟨h.housed.bind, hnets ▸ h.index, ?_, hparts ▸ h.placed⟩
  rw [scopes_bind]
  exact h.scope

end Ready

end Netlist

namespace Guarded

open Netlist

variable {library : Library} {netlist next : Netlist} {index scope : Nat} {ref : PortRef}
  {asSource : Bool} {placements : Placements} {port : Port} {wires : List Wire}

theorem scopePath_eq (h : netlist.Housed) : ∀ {scope : Nat}, scope < netlist.scopes.length →
    scopePath netlist.scopes scope = .ok (Breadboard.scopePath netlist.scopes scope) := by
  intro scope
  induction scope using Nat.strongRecOn with
  | ind scope ih =>
    intro hscope
    have hfound := List.getElem?_eq_getElem hscope
    generalize netlist.scopes[scope] = found at hfound
    obtain ⟨_ | parent, name⟩ := found
    · rw [scopePath, Breadboard.scopePath, hfound]
    · have hparent := h.nested hfound
      have hinner := ih parent hparent (Nat.lt_trans hparent hscope)
      rw [scopePath, Breadboard.scopePath, hfound]
      simp only [hparent, if_true, hinner, ok_bind]
      cases Breadboard.scopePath netlist.scopes parent <;> rfl

theorem localPath_eq (h : netlist.Housed) (hscope : scope < netlist.scopes.length) (id : String) :
    localPath netlist.scopes scope id = .ok (Breadboard.localPath netlist.scopes scope id) := by
  rw [localPath, Breadboard.localPath, scopePath_eq h hscope, ok_bind]
  cases Breadboard.scopePath netlist.scopes scope <;> rfl

theorem partPath_eq (h : netlist.Housed) (hindex : index < netlist.parts.length) :
    partPath netlist index = .ok (netlist.partPath index) := by
  have hpart := List.getElem?_eq_getElem hindex
  rw [partPath, entry_eq hpart, ok_bind,
    localPath_eq h (h.part _ (List.getElem_mem hindex)), Netlist.partPath,
    List.getD_eq_getElem?_getD, hpart]
  rfl

theorem netPath_eq (h : netlist.Housed) (hindex : index < netlist.nets.length) :
    netPath netlist index = .ok (netlist.netPath index) := by
  have hnet := List.getElem?_eq_getElem hindex
  have hscope := h.net _ (List.getElem_mem hindex)
  rw [netPath, entry_eq hnet, ok_bind, Netlist.netPath, List.getD_eq_getElem?_getD, hnet]
  simp only [Option.getD_some]
  cases netlist.nets[index].wires with
  | nil => rfl
  | cons wire rest => exact localPath_eq h hscope wire

/-! ## Binding meets no trap -/

theorem bindPort_eq (h : netlist.Ready index scope placements)
    (hport : netlist.port? ref = some port) (asSource : Bool) :
    bindPort netlist index ref asSource = .ok (netlist.bind index ref asSource) := by
  obtain ⟨part, hpart, hfound⟩ := part_of_port hport
  have hnet := List.getElem?_eq_getElem h.index
  have hindex := (List.getElem?_eq_some_iff.mp hpart).1
  have hposition := (List.getElem?_eq_some_iff.mp hfound).1
  rw [bindPort, entry_eq hpart, ok_bind, entry_eq hfound, ok_bind, Netlist.bind, hport, hnet]
  dsimp only
  split
  · rfl
  · rw [entry_eq hnet, ok_bind]
    split
    · rw [netPath_eq h.housed h.index]
      rfl
    · rw [replace_eq h.index, ok_bind, change_eq hposition, ok_bind, replace_eq hindex, ok_bind,
        pure_eq_ok]
      rw [modify_eq_set hpart]

theorem bindPlaced_eq (h : netlist.Ready index scope placements) {placed : Placed}
    (hpart : placed.part < netlist.parts.length)
    (hinner : ∀ inner ∈ placed.boundary, inner.2 < netlist.parts.length)
    {position : Nat} (hport : netlist.port? ⟨placed.part, position⟩ = some port) (id : String) :
    bindPlaced netlist index placed position id =
        .ok (netlist.bindPlaced index placed position id) ∧
      (netlist.bindPlaced index placed position id).Ready index scope placements := by
  have houter := bindPort_eq h hport
  rw [bindPlaced, Netlist.bindPlaced_eq, Netlist.behind?]
  cases hlookup : placed.boundary.lookup id with
  | none => exact ⟨houter true, h.bind⟩
  | some boundary =>
    have hboundary : boundary < netlist.parts.length := hinner _ (mem_of_lookup hlookup)
    have hshown := List.getElem?_eq_getElem hboundary
    have hhost := List.getElem?_eq_getElem hpart
    generalize netlist.parts[boundary] = shown at hshown
    rw [Option.bind_some, Netlist.position?, hshown, Option.bind_some]
    dsimp only
    rw [entry_eq hshown, ok_bind]
    cases hexternal : shown.port? Boundary.externalPin with
    | none => exact ⟨houter true, h.bind⟩
    | some external =>
      have hbound : ∃ port, netlist.port? ⟨boundary, external⟩ = some port :=
        port?_of_position? (by rw [Netlist.position?, hshown]; exact hexternal)
      obtain ⟨pin, hpin⟩ := hbound
      obtain ⟨pin', hpin', -⟩ := (kept_bind netlist index ⟨placed.part, position⟩
        netlist.parts[placed.part].valid).port hpin
      rw [Option.map_some]
      dsimp only
      rw [entry_eq hhost, ok_bind, houter, ok_bind, hhost, Option.any_some]
      exact ⟨bindPort_eq h.bind hpin' _, h.bind.bind⟩

theorem bindEnd_eq (h : netlist.Ready index scope placements) (wireEnd : String × Endpoint) :
    bindEnd scope placements index netlist wireEnd =
        .ok (netlist.bindEnd scope placements index wireEnd) ∧
      (netlist.bindEnd scope placements index wireEnd).Ready index scope placements := by
  obtain ⟨wire, endpoint⟩ := wireEnd
  rw [bindEnd, Netlist.bindEnd_eq]
  cases hlookup : placements.lookup endpoint.component with
  | none =>
    dsimp only
    rw [localPath_eq h.housed h.scope]
    exact ⟨rfl, h.report _⟩
  | some placed =>
    obtain ⟨hpart, hinner⟩ := h.placed _ _ hlookup
    have hhost := List.getElem?_eq_getElem hpart
    dsimp only
    rw [entry_eq hhost, ok_bind, Netlist.position?, hhost, Option.bind_some]
    cases hport : netlist.parts[placed.part].port? endpoint.port with
    | none =>
      dsimp only
      rw [partPath_eq h.housed hpart]
      exact ⟨rfl, h.report _⟩
    | some position =>
      have hbound : ∃ port, netlist.port? ⟨placed.part, position⟩ = some port :=
        port?_of_position? (by rw [Netlist.position?, hhost]; exact hport)
      obtain ⟨port, hport⟩ := hbound
      exact bindPlaced_eq h hpart hinner hport _

/-! ## Merging wires meets no trap -/

theorem find_eq {forest : Forest} {wire : Nat} (hlt : wire < forest.parents.length) :
    find forest wire = .ok (forest.find wire) := by
  have hentry : ∀ {forest : Forest} {wire}, wire < forest.parents.length →
      entry forest.parents wire = .ok (forest.parent wire) := fun hlt => entry_eq_getD hlt _
  fun_induction Forest.find forest wire with
  | case1 forest wire h =>
    rw [find, hentry hlt, ok_bind, if_pos h]
    rfl
  | case2 forest wire h above habove ih =>
    have hparent := Nat.lt_trans (Forest.parent_lt h) hlt
    rw [find, hentry hlt, ok_bind, if_neg h, hentry hparent, ok_bind, dif_pos habove]
    exact ih (by rw [Forest.length_hang]; exact Nat.lt_trans habove hlt)

theorem merge_eq {forest : Forest} {wire other : Nat} (hwire : wire < forest.parents.length)
    (hother : other < forest.parents.length) :
    merge forest wire other = .ok (forest.merge wire other) := by
  have hother' : other < (forest.find wire).1.parents.length := by rwa [Forest.length_find]
  have hroots : max (forest.find wire).2 ((forest.find wire).1.find other).2 <
      ((forest.find wire).1.find other).1.parents.length := by
    have := forest.root_le wire
    have := forest.root_le other
    simp only [Forest.find_snd, Forest.root_find, Forest.length_find]
    omega
  rw [merge, find_eq hwire, ok_bind]
  dsimp only
  rw [find_eq hother', ok_bind]
  rw [within_eq hroots]
  rfl

theorem roots_eq {list : List Nat} : ∀ {forest : Forest},
    (∀ wire ∈ list, wire < forest.parents.length) →
      roots forest list = .ok (forest.roots list) := by
  induction list with
  | nil => exact fun _ => rfl
  | cons wire rest ih =>
    intro forest hlt
    have hrest : ∀ other ∈ rest, other < (forest.find wire).1.parents.length := by
      intro other hother
      rw [Forest.length_find]
      exact hlt other (List.mem_cons_of_mem _ hother)
    rw [roots, find_eq (hlt wire List.mem_cons_self), ok_bind]
    dsimp only
    rw [ih hrest]
    rfl

theorem visit_eq {visited : List (Nat × Endpoint)} {merging : Merging}
    (h : merging.Valid wires visited) {wireEnd : Nat × Endpoint}
    (hend : wireEnd ∈ numberedEnds wires) :
    visit merging wireEnd = .ok (merging.visit wireEnd) := by
  obtain ⟨wire, endpoint⟩ := wireEnd
  simp only [visit, Merging.visit]
  cases howner : merging.owners.lookup endpoint with
  | none => rfl
  | some owner =>
    dsimp only
    rw [merge_eq (h.length ▸ lt_of_mem_numberedEnds hend)
      (h.length ▸ lt_of_mem_numberedEnds (h.owner (mem_of_lookup howner)))]
    rfl

theorem wireGroups_eq (wires : List Wire) :
    wireGroups wires = .ok (Breadboard.wireGroups wires) := by
  have hstep : ∀ merging, ∀ wireEnd ∈ numberedEnds wires,
      (∃ visited, merging.Valid wires visited) →
        visit merging wireEnd = .ok (merging.visit wireEnd) ∧
          ∃ visited, (merging.visit wireEnd).Valid wires visited := by
    rintro merging wireEnd hend ⟨visited, hvalid⟩
    exact ⟨visit_eq hvalid hend, _, hvalid.visit hend⟩
  obtain ⟨heq, visited, hvalid⟩ := foldlM_eq _ hstep ⟨[], Merging.valid_apart wires⟩
  rw [wireGroups, heq, ok_bind, roots_eq fun wire hwire =>
    hvalid.length.symm ▸ List.mem_range.mp hwire]
  rfl

/-! ## Whole schematics meet no trap -/

/-- What binding the wires of a schematic relies on. -/
structure Roomy (netlist : Netlist) (scope : Nat) (placements : Placements) : Prop where
  housed : netlist.Housed
  scope : scope < netlist.scopes.length
  placed : Within netlist.parts.length placements

theorem bindGroup_eq (h : Roomy netlist scope placements) {group : List Nat}
    (hgroup : group ∈ Breadboard.wireGroups wires) :
    bindGroup wires scope placements netlist group =
        .ok (netlist.bindGroup wires scope placements group) ∧
      Roomy (netlist.bindGroup wires scope placements group) scope placements := by
  have hmembers := mapM_entry fun wire => lt_of_mem_wireGroups hgroup
  have hpaths : (group.filterMap (wires[·]?)).mapM
      (fun wire => localPath netlist.scopes scope wire.id) = .ok _ :=
    mapM_eq fun wire _ => localPath_eq h.housed h.scope wire.id
  rw [bindGroup, hmembers, ok_bind, hpaths, ok_bind, Netlist.bindGroup]
  dsimp only
  have hready : ({ netlist with
      nets := netlist.nets ++ [{ scope, wires := (group.filterMap (wires[·]?)).map (·.id) }] } :
      Netlist).Ready netlist.nets.length scope placements := by
    refine ⟨h.housed.addNet h.scope _, ?_, h.scope, h.placed⟩
    rw [List.length_append]
    exact Nat.lt_succ_self _
  obtain ⟨heq, hafter⟩ := foldlM_eq
    (fun next : Netlist => next.Ready netlist.nets.length scope placements)
    (fun _ wireEnd _ hnext => bindEnd_eq hnext wireEnd) hready
  exact ⟨heq, hafter.housed, hafter.scope, hafter.placed⟩

theorem bindWires_eq (h : Roomy netlist scope placements) (wires : List Wire) :
    bindWires wires scope placements netlist =
        .ok (netlist.bindWires wires scope placements) ∧
      Roomy (netlist.bindWires wires scope placements) scope placements := by
  rw [bindWires, wireGroups_eq, ok_bind]
  exact foldlM_eq (fun next : Netlist => Roomy next scope placements)
    (fun _ _ hgroup hnext => bindGroup_eq hnext hgroup) h

/-! ## Placing meets no trap -/

theorem assembleBuiltin_eq (builtin : Builtin) (args : Json) :
    assembleBuiltin builtin args = .ok (builtin.assemble args) := by
  cases builtin <;> simp [assembleBuiltin, Builtin.assemble, Builtin.ports, sub]

theorem assemble_eq (definition : Definition) (args : Json) :
    assemble definition args = .ok (definition.assemble args) := by
  obtain ⟨id, behaviour⟩ := definition
  cases behaviour with
  | builtin builtin =>
    rw [assemble]
    dsimp only
    rw [assembleBuiltin_eq]
    rfl
  | outline ports => rfl
  | scripted script => rfl

/-- The layout of a schematic that unfolds in some depth meets no trap. -/
def Untrapped (library : Library) (depth : Nat) : Prop :=
  ∀ {schematic : Schematic} {scope : Nat} {netlist : Netlist},
    schematic.Unfolds library depth → netlist.Housed → scope < netlist.scopes.length →
    layout library depth schematic scope netlist =
        .ok (Breadboard.layout library depth schematic scope netlist) ∧
      Roomy (Breadboard.layout library depth schematic scope netlist).1 scope
        (Breadboard.layout library depth schematic scope netlist).2

variable {depth : Nat} {component : Component}

theorem Untrapped.enter (h : Untrapped library depth) (hhoused : netlist.Housed)
    (hscope : scope < netlist.scopes.length) (component : Component) {inside : Option Schematic}
    (hunfolds : ∀ schematic, inside = some schematic → schematic.Unfolds library depth) :
    Guarded.enter (layout library depth) scope netlist component inside =
        .ok (Netlist.enter (Breadboard.layout library depth) scope netlist component inside) ∧
      let entered := Netlist.enter (Breadboard.layout library depth) scope netlist component inside
      entered.1.Housed ∧ scope < entered.1.scopes.length ∧
        netlist.parts.length ≤ entered.1.parts.length ∧
        ∀ inner ∈ entered.2, inner.2 < entered.1.parts.length := by
  cases inside with
  | none => exact ⟨rfl, hhoused, hscope, Nat.le_refl _, fun _ hinner => nomatch hinner⟩
  | some schematic =>
    have hchild : netlist.scopes.length < (netlist.addScope scope component.id).scopes.length := by
      simp [Netlist.addScope]
    obtain ⟨heq, hroomy⟩ := h (hunfolds schematic rfl) (hhoused.addScope hscope component.id) hchild
    have hgrows := grows_layout library depth schematic netlist.scopes.length
      (netlist.addScope scope component.id)
    rw [Guarded.enter, heq, ok_bind]
    exact ⟨rfl, hroomy.housed, Nat.lt_trans hscope hroomy.scope, (names_grows hgrows).1,
      within_boundaryParts hroomy.placed⟩

theorem Roomy.addPart (h : Roomy netlist scope placements) {boundary : List (String × Nat)}
    (hinner : ∀ inner ∈ boundary, inner.2 < netlist.parts.length) (assembly : Assembly)
    (component : Component) :
    Roomy (netlist.addPart (assembly.toPart component scope)) scope
      ((component.id, ⟨netlist.parts.length, boundary⟩) :: placements) := by
  have hlength : (netlist.addPart (assembly.toPart component scope)).parts.length =
      netlist.parts.length + 1 := List.length_append
  refine ⟨h.housed.addPart h.scope, h.scope, fun id placed hlookup => ?_⟩
  rw [hlength]
  rw [List.lookup_cons] at hlookup
  split at hlookup
  · rw [← Option.some.inj hlookup]
    exact ⟨Nat.lt_succ_self _, fun inner hmem => Nat.lt_succ_of_lt (hinner inner hmem)⟩
  · exact (h.placed.mono (Nat.le_succ _)) id placed hlookup

theorem Untrapped.place (h : Untrapped library depth) {state : Netlist × Placements}
    (hunfolds : ∀ inside, library.inside? component = some inside → inside.Unfolds library depth)
    (hstate : Roomy state.1 scope state.2) :
    Guarded.place library (layout library depth) scope state component =
        .ok (Breadboard.place library (Breadboard.layout library depth) scope state component) ∧
      Roomy (Breadboard.place library (Breadboard.layout library depth) scope state component).1
        scope (Breadboard.place library (Breadboard.layout library depth) scope state component).2 := by
  obtain ⟨netlist, placements⟩ := state
  rw [Netlist.place_eq, Guarded.place]
  dsimp only
  rw [localPath_eq hstate.housed hstate.scope, ok_bind]
  cases hfound : library.get? component.definition with
  | none => exact ⟨rfl, hstate.housed.report _, hstate.scope, hstate.placed⟩
  | some found =>
    have hinside : ∀ inside, found.inside = some inside → inside.Unfolds library depth :=
      fun inside hinside => hunfolds inside (by rw [Library.inside?, hfound]; exact hinside)
    obtain ⟨heq, hhoused, hscope, hparts, hinner⟩ := h.enter hstate.housed hstate.scope component hinside
    have hroomy : Roomy _ scope placements := ⟨hhoused, hscope, hstate.placed.mono hparts⟩
    dsimp only
    rw [heq, ok_bind]
    dsimp only
    rw [assemble_eq, ok_bind]
    cases found.definition.assemble component.args with
    | error error => exact ⟨rfl, hhoused.report _, hscope, hroomy.placed⟩
    | ok assembly => exact ⟨rfl, hroomy.addPart hinner assembly component⟩

theorem untrapped_layout (library : Library) : ∀ depth, Untrapped library depth := by
  intro depth
  induction depth with
  | zero => exact fun hunfolds => hunfolds.elim
  | succ depth ih =>
    intro schematic scope netlist hunfolds hhoused hscope
    have hstart : Roomy (netlist, ([] : Placements)).1 scope (netlist, ([] : Placements)).2 :=
      ⟨hhoused, hscope, fun _ _ hlookup => nomatch hlookup⟩
    obtain ⟨heq, hroomy⟩ := foldlM_eq
      (fun state : Netlist × Placements => Roomy state.1 scope state.2)
      (fun _ component hcomponent hstate => ih.place (hunfolds component hcomponent) hstate) hstart
    obtain ⟨hbound, hafter⟩ := bindWires_eq hroomy schematic.wires
    rw [layout]
    dsimp only
    rw [heq, ok_bind, hbound]
    exact ⟨rfl, hafter⟩

theorem reportDrivers_eq (h : netlist.Housed) :
    reportDrivers netlist = .ok netlist.reportDrivers := by
  rw [reportDrivers, Netlist.reportDrivers, gather_eq]
  · rfl
  · rintro ⟨net, index⟩ hentry
    have hindex := (List.getElem?_eq_some_iff.mp (List.mem_zipIdx_iff_getElem?.mp hentry)).1
    dsimp only
    split
    · rw [netPath_eq h hindex]
      rfl
    · rfl

/-- The circuit that a schematic is laid out in. -/
theorem housed_top : ({ scopes := [⟨none, ""⟩] } : Netlist).Housed := by
  refine ⟨fun {index parent name} hfound => ?_, fun _ hpart => (nomatch hpart), fun _ hnet => nomatch hnet⟩
  match index with
  | 0 => cases hfound

/-- Flattening meets no trap, and makes the netlist of `flatten`. -/
theorem flatten_eq (hacyclic : library.Acyclic) (schematic : Schematic) :
    flatten library schematic = .ok (Breadboard.flatten library schematic) ∧
      (Breadboard.flatten library schematic).Housed := by
  obtain ⟨heq, hroomy⟩ := untrapped_layout library _ (hacyclic.unfolds schematic) housed_top
    Nat.zero_lt_one
  obtain ⟨hnested, hpart, hnet⟩ := hroomy.housed
  rw [flatten, heq, ok_bind]
  exact ⟨reportDrivers_eq ⟨hnested, hpart, hnet⟩, hnested, hpart, hnet⟩

end Guarded

end Breadboard
