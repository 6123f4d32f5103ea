import Breadboard.Proofs.LaidBus
import Breadboard.Proofs.Renumbered
import Mathlib.Algebra.Order.BigOperators.Group.List
import Mathlib.Algebra.Order.Group.Nat

/-!
# A shared bus is static

On its way from the inputs to the bus a value goes down to the buffers, level by level,
and up again. So the tasks of a circuit with a shared bus can be ranked (`busRank`):
those on the way down by how deep they are, and those on the way up, beyond all of
these, by how far they still have to go. The rank grows from a phase to the nets it
drives (`LaidBus.rank_lt_of_writes`) and from a net to the phases that read it
(`LaidBus.rank_lt_of_reads`), so that the circuit is static (`LaidBus.static`).
-/

namespace Breadboard

variable {library : Library} {lanes : List (Lane library)} {netlist : Netlist} {spots : List Spot}
  {spot : Spot} {component driver inner : Component} {placed : Placed} {part : Part}
  {depth index place position : Nat} {ref : PortRef} {endpoint : Endpoint} {net : Net}

/-! ## The parts of the circuit -/

/-- What a component of the circuit is. -/
inductive BusRole (library : Library) (component : Component) : Prop where
  | input (hdefinition : component.definition = Builtin.input.id)
  | probe (hdefinition : component.definition = Builtin.probe.id)
  | buffer (hdefinition : component.definition = Builtin.buffer.id)
      (hwraps : library.Wraps 0 component)
  | inbound (hmem : component ∈ [dataPort, enablePort])
  | outbound (heq : component = outPort)
  | expanded {inside : Schematic} (hinside : library.inside? component = some inside)

theorem Library.Wraps.role (hlibrary : library.Furnished) (h : library.Wraps depth component) :
    BusRole library component := by
  rcases h.inside?_eq hlibrary with ⟨-, rfl, hbuffer, -⟩ | ⟨inner, less, -, -, -, hinside⟩
  · exact .buffer hbuffer h
  · exact .expanded hinside

/-- A boundary port that lets a value in. -/
theorem inbound_assembly (hmem : component ∈ [dataPort, enablePort]) :
    component.definition = Builtin.boundary.id ∧
      (Builtin.boundary.assemble component.args).phases = [{ reads := [1], writes := [0] }] ∧
      (∃ value, (Builtin.boundary.assemble component.args).device = .boundary true false value) ∧
      ((Boundary.outerDecl component.args component.id).id = "in" ∨
        (Boundary.outerDecl component.args component.id).id = "en") := by
  simp only [List.mem_cons, List.not_mem_nil, or_false] at hmem
  rcases hmem with rfl | rfl
  · exact ⟨rfl, rfl, ⟨_, rfl⟩, .inl rfl⟩
  · exact ⟨rfl, rfl, ⟨_, rfl⟩, .inr rfl⟩

theorem Part.MadeOf.phase_eq {assembly : Assembly} {phase only : Phase} (h : part.MadeOf assembly)
    (honly : assembly.phases = [only]) (hphase : part.phases[position]? = some phase) :
    phase = only := by
  rw [h.phases, honly] at hphase
  exact List.mem_singleton.mp (List.mem_of_getElem? hphase)

namespace LaidBus

variable (h : LaidBus lanes netlist spots)

include h

theorem role (hspot : spot ∈ spots) (hmem : component ∈ spot.schematic.components) :
    BusRole library component := by
  rcases h.spot_cases hspot with htop | ⟨-, depth, inner, hinner, -, hdrawn⟩
  · rw [congrArg Site.schematic htop] at hmem
    rcases busCircuit_cases hmem with rfl | ⟨lane, -, rfl | rfl | rfl⟩
    · exact .probe rfl
    · exact .input lane.data_input
    · exact .input lane.enable_input
    · exact lane.wraps.role h.furnished
  · rw [hdrawn] at hmem
    simp only [busDriver, List.mem_cons, List.not_mem_nil, or_false] at hmem
    rcases hmem with rfl | rfl | rfl | rfl
    · exact .inbound (by simp)
    · exact .inbound (by simp)
    · exact .outbound rfl
    · exact hinner.role h.furnished

/-- A driver is supplied wherever it stands. -/
theorem exists_supplies (hspot : spot ∈ spots) (hmem : driver ∈ spot.schematic.components)
    (hwraps : library.Wraps depth driver) :
    (∃ source pin, spot.schematic.Supplies library driver ⟨"in", .dataIn, 8⟩ source pin) ∧
      ∃ source pin, spot.schematic.Supplies library driver ⟨"en", .ctrlIn, 1⟩ source pin := by
  rcases h.spot_cases hspot with htop | ⟨-, -, inner, -, hid, hdrawn⟩
  · rw [congrArg Site.schematic htop] at hmem ⊢
    rcases busCircuit_cases hmem with rfl | ⟨lane, hlane, rfl | rfl | rfl⟩
    · cases hwraps.eq_buffer h.furnished .probe rfl
    · cases hwraps.eq_buffer h.furnished _ lane.data_input
    · cases hwraps.eq_buffer h.furnished _ lane.enable_input
    · obtain ⟨hdata, henable⟩ := supplies_busCircuit h.furnished h.laned hlane
      exact ⟨⟨_, _, hdata⟩, ⟨_, _, henable⟩⟩
  · rw [hdrawn] at hmem ⊢
    simp only [busDriver, List.mem_cons, List.not_mem_nil, or_false] at hmem
    rcases hmem with rfl | rfl | rfl | rfl
    · cases hwraps.eq_buffer h.furnished .boundary rfl
    · cases hwraps.eq_buffer h.furnished .boundary rfl
    · cases hwraps.eq_buffer h.furnished .boundary rfl
    · obtain ⟨hdata, henable⟩ := supplies_busDriver h.furnished hid
      exact ⟨⟨_, _, hdata⟩, ⟨_, _, henable⟩⟩

/-- A net at an input of a driver has no tri-state drivers. -/
theorem plain_of_input (hspot : spot ∈ spots) (hmem : driver ∈ spot.schematic.components)
    (hwraps : library.Wraps depth driver) (hcarries : Carries netlist spot position index)
    (hnet : netlist.nets[index]? = some net) {id : String} (hid : id = "in" ∨ id = "en")
    (hend : WireEnd spot.schematic.wires position ⟨driver.id, id⟩) : net.tristate = false := by
  obtain ⟨⟨source, pin, hdata⟩, ⟨source', pin', henable⟩⟩ := h.exists_supplies hspot hmem hwraps
  have hdecl := h.driver_decl hspot hmem hwraps
  rcases hid with rfl | rfl
  · exact h.plain_of_supplies hspot hdata (hdecl "in") rfl hcarries hend hnet
  · exact h.plain_of_supplies hspot henable (hdecl "en") rfl hcarries hend hnet

/-- No wire ends at the outer side of a boundary port from within. -/
theorem port_ne_external (hspot : spot ∈ spots)
    (hend : WireEnd spot.schematic.wires position endpoint) :
    endpoint.port ≠ Boundary.externalPin := by
  obtain ⟨other, wire, -, hwire, hmem⟩ := hend
  have hwire := List.mem_of_getElem? hwire
  rcases h.spot_cases hspot with htop | ⟨-, -, inner, -, -, hdrawn⟩
  · rw [congrArg Site.schematic htop] at hwire
    rcases List.mem_append.mp hwire with hwire | hwire
    · obtain ⟨lane, -, hwire⟩ := List.mem_flatMap.mp hwire
      simp only [Lane.wires, List.mem_cons, List.not_mem_nil, or_false] at hwire
      rcases hwire with rfl | rfl <;> simp only [List.mem_cons, List.not_mem_nil, or_false] at hmem <;>
        rcases hmem with rfl | rfl <;> simp [Boundary.externalPin]
    · obtain rfl := List.mem_singleton.mp hwire
      rcases List.mem_append.mp hmem with hmem | hmem
      · obtain ⟨lane, -, rfl⟩ := List.mem_map.mp hmem
        simp [Lane.outlet, Boundary.externalPin]
      · obtain rfl := List.mem_singleton.mp hmem
        simp [Boundary.externalPin]
  · rw [hdrawn] at hwire
    simp only [busDriver, List.mem_cons, List.not_mem_nil, or_false] at hwire
    rcases hwire with rfl | rfl | rfl <;>
      simp only [List.mem_cons, List.not_mem_nil, or_false] at hmem <;>
      rcases hmem with rfl | rfl <;> simp [Boundary.externalPin]

end LaidBus

/-! ## Ranks -/

/-- An end of a wire attaches a pin to a net. -/
structure Pinned (netlist : Netlist) (spots : List Spot) (spot : Spot) (endpoint : Endpoint)
    (asSource : Bool) (index : Nat) (ref : PortRef) : Prop where
  listed : spot ∈ spots
  carried : ∃ position, Carries netlist spot position index ∧
    WireEnd spot.schematic.wires position endpoint
  attached : (ref, asSource) ∈ netlist.attachments spot.placements endpoint

/-- How deep the scopes are, and a height beyond all of them. -/
structure Levels (spots : List Spot) (level : Nat → Nat) (top : Nat) : Prop where
  eq : ∀ spot ∈ spots, level spot.scope = spot.names.length
  lt : ∀ spot ∈ spots, 2 * spot.names.length + 2 ≤ top

/-- How far a value has come that reaches a net at this depth. -/
def Net.busRank (net : Net) (top depth : Nat) : Nat :=
  if net.tristate then 2 * (top - depth) else 2 * depth + 1

def Device.busRank (device : Device) (top depth : Nat) : Nat :=
  match device with
  | .input .. => 0
  | .boundary true .. => 2 * depth
  | .buffer => 2 * depth + 2
  | .boundary false .. => 2 * (top - depth) + 1
  | _ => 2 * top + 1

def busRank (netlist : Netlist) (level : Nat → Nat) (top : Nat) : Task → Nat
  | .net index =>
    let net := netlist.nets.getD index default
    net.busRank top (level net.scope)
  | .phase index _ =>
    let part := netlist.parts.getD index default
    part.device.busRank top (level part.scope)

section

variable {level : Nat → Nat} {top : Nat}

theorem Levels.exists_net (hlevels : Levels spots level top) {asSource : Bool}
    (hpinned : Pinned netlist spots spot endpoint asSource index ref) :
    ∃ net, netlist.nets[index]? = some net ∧
      busRank netlist level top (.net index) = net.busRank top spot.names.length := by
  obtain ⟨position, ⟨_, -, -, net, hnet, hjoins⟩, -⟩ := hpinned.carried
  refine ⟨net, hnet, ?_⟩
  simp only [busRank, List.getD_eq_getElem?_getD, hnet, Option.getD_some, hjoins.scope_eq,
    hlevels.eq spot hpinned.listed]

theorem Levels.rank_phase (hlevels : Levels spots level top) (hspot : spot ∈ spots)
    (hpart : netlist.parts[index]? = some part) (hscope : part.scope = spot.scope) :
    busRank netlist level top (.phase index position) =
      part.device.busRank top spot.names.length := by
  simp only [busRank, List.getD_eq_getElem?_getD, hpart, Option.getD_some, hscope,
    hlevels.eq spot hspot]

end

namespace LaidBus

variable (h : LaidBus lanes netlist spots) {level : Nat → Nat} {top : Nat}

include h

theorem exists_pinned_source (hsource : netlist.HasSource index ref) :
    ∃ spot endpoint, Pinned netlist spots spot endpoint true index ref := by
  obtain ⟨net, hnet, -⟩ := id hsource
  obtain ⟨spot, hspot, position, wire, hwire, hcarries⟩ :=
    h.chart.exists_carried (List.getElem?_eq_some_iff.mp hnet).1
  obtain ⟨⟨endpoint, hend, hmem⟩, -⟩ := hcarries.hasSource_iff.mp hsource
  exact ⟨spot, endpoint, hspot, ⟨position, hcarries, hend⟩, hmem⟩

theorem exists_pinned_target (htarget : netlist.HasTarget index ref) :
    ∃ spot endpoint asSource, Pinned netlist spots spot endpoint asSource index ref := by
  obtain ⟨net, hnet, -⟩ := id htarget
  obtain ⟨spot, hspot, position, wire, hwire, hcarries⟩ :=
    h.chart.exists_carried (List.getElem?_eq_some_iff.mp hnet).1
  obtain ⟨⟨endpoint, asSource, hend, hmem⟩, -⟩ := hcarries.hasTarget_iff.mp htarget
  exact ⟨spot, endpoint, asSource, hspot, ⟨position, hcarries, hend⟩, hmem⟩

/-- A pin other than the outer one of a boundary port is wired beside its component. -/
theorem near_of_pinned {other : Spot} {asSource : Bool} {k : Nat}
    (hpinned : Pinned netlist spots spot endpoint asSource index ⟨placed.part, k⟩)
    (hlocated : Located library netlist spots other component placed) (builtin : Builtin)
    (hdefinition : component.definition = builtin.id) (hne : builtin = .boundary → k ≠ 1) :
    spot = other ∧ ∃ decl, (builtin.assemble component.args).ports[k]? = some decl ∧
      endpoint = ⟨component.id, decl.id⟩ := by
  have hinside := h.furnished.inside?_eq_none _ hdefinition
  rcases (h.chart.end_of_pin hpinned.listed hpinned.attached hlocated hinside rfl).2 with
    ⟨rfl, hend, hposition⟩ | ⟨outer, hcrossing, -, hone⟩
  · rw [hlocated.position?_builtin h.furnished _ hdefinition] at hposition
    obtain ⟨hlt, hid, -⟩ := List.findIdx?_eq_some_iff_getElem.mp hposition
    refine ⟨rfl, _, List.getElem?_eq_getElem hlt, ?_⟩
    rw [of_decide_eq_true hid, ← hend]
  · exact absurd hone (hne (Builtin.id_injective (hdefinition.symm.trans hcrossing.boundary)))

/-- The outer pin of a boundary port is wired around its spot. -/
theorem far_of_pinned {other : Spot} {asSource : Bool}
    (hpinned : Pinned netlist spots spot endpoint asSource index ⟨placed.part, 1⟩)
    (hlocated : Located library netlist spots other component placed)
    (hdefinition : component.definition = Boundary.definition) :
    ∃ outer, Crossing library netlist spots spot outer other component placed ∧
      endpoint = ⟨outer.id, (Boundary.outerDecl component.args component.id).id⟩ := by
  have hinside := h.furnished.inside?_eq_none .boundary hdefinition
  rcases (h.chart.end_of_pin hpinned.listed hpinned.attached hlocated hinside rfl).2 with
    ⟨rfl, hend, hposition⟩ | ⟨outer, hcrossing, hend, -⟩
  · rw [hlocated.position?_builtin h.furnished .boundary hdefinition] at hposition
    obtain ⟨hlt, hid, -⟩ := List.findIdx?_eq_some_iff_getElem.mp hposition
    obtain ⟨position, -, hwire⟩ := hpinned.carried
    exact absurd (of_decide_eq_true hid).symm (h.port_ne_external hpinned.listed hwire)
  · exact ⟨outer, hcrossing, hend⟩

theorem exists_levels : ∃ level top, Levels spots level top := by
  have hspelled := spelled_busCircuit h.furnished h.laned
  have hnames : ∀ spot ∈ spots, ∀ name ∈ spot.names, Path.separator ∉ name.toList :=
    fun spot hspot => hspelled.names (h.chart.sites ▸ List.mem_map_of_mem hspot)
  refine ⟨fun scope => ((spots.find? (·.scope = scope)).map (·.names.length)).getD 0,
    (spots.map fun spot => 2 * spot.names.length + 2).sum, fun spot hspot => ?_, fun spot hspot => ?_⟩
  · obtain ⟨other, hother⟩ := Option.isSome_iff_exists.mp
      (List.find?_isSome.mpr ⟨spot, hspot, decide_eq_true rfl⟩ :
        (spots.find? (·.scope = spot.scope)).isSome)
    have hscope : other.scope = spot.scope := by simpa using List.find?_some hother
    have hmem := List.mem_of_find?_eq_some hother
    have hsame : other.names = spot.names := by
      refine Path.names_eq (hnames other hmem) (hnames spot hspot) ?_
      rw [← (h.chart.laid other hmem).path, hscope, (h.chart.laid spot hspot).path]
    simp only [hother, Option.map_some, Option.getD_some, hsame]
  · exact List.le_sum_of_mem (List.mem_map_of_mem hspot)

theorem single : netlist.Single :=
  Chart.single_of_paired h.flat.wired h.paired

/-- A phase belongs to a component of the circuit. -/
theorem exists_owner {phase : Phase} (hphase : netlist.Ordinary index position phase) :
    ∃ spot component placed part, Located library netlist spots spot component placed ∧
      placed.part = index ∧ BusRole library component ∧ netlist.parts[index]? = some part ∧
      part.phases[position]? = some phase ∧ part.scope = spot.scope := by
  obtain ⟨part, hpart, hfound⟩ := Netlist.part_of_phase hphase
  obtain ⟨spot, component, placed, hlocated, rfl⟩ :=
    h.chart.locate (List.getElem?_eq_some_iff.mp hpart).1
  obtain ⟨-, -, found, -, -, hfound', -, -, hscope⟩ := hlocated.madeOf
  obtain rfl := Option.some.inj (hpart.symm.trans hfound')
  exact ⟨spot, component, placed, part, hlocated, rfl, h.role hlocated.listed hlocated.drawn, hpart,
    hfound, hscope⟩

/-- The part of an expanded component does nothing. -/
theorem madeOf_expanded {inside : Schematic}
    (hlocated : Located library netlist spots spot component placed)
    (hinside : library.inside? component = some inside)
    (hpart : netlist.parts[placed.part]? = some part) :
    part.MadeOf (.hollow (Library.boundaryPorts inside)) := by
  obtain ⟨entry, assembly, found, hentry, hassemble, hfound, hmade, -⟩ := hlocated.madeOf
  obtain rfl := Option.some.inj (hpart.symm.trans hfound)
  obtain ⟨-, rfl⟩ := h.furnished.composed.expanded hinside hentry hassemble
  exact hmade

/-- The part of an expanded component drives no net. -/
theorem not_pinned_expanded {inside : Schematic} {other : Spot} {k : Nat}
    (hlocated : Located library netlist spots other component placed)
    (hinside : library.inside? component = some inside) :
    ¬ Pinned netlist spots spot endpoint true index ⟨placed.part, k⟩ := by
  intro hpinned
  obtain ⟨other', component', placed', hlocated', hplain, hpart, -⟩ :=
    h.chart.exists_driver hpinned.listed hpinned.attached
  obtain ⟨rfl, rfl⟩ := h.chart.eq_of_part hlocated hlocated' hpart
  cases hplain.symm.trans hinside

/-- The net that a tri-state pin drives is tri-state. -/
theorem tristate_of_source (hsource : netlist.HasSource index ref)
    (hnet : netlist.nets[index]? = some net) {decl : PortDecl}
    (hdecl : netlist.decl? ref = some decl) (htristate : decl.type.tristate = true) :
    net.tristate = true := by
  obtain ⟨_, hfound, hmem⟩ := hsource
  obtain rfl := Option.some.inj (hnet.symm.trans hfound)
  obtain ⟨port, hattached, -⟩ := h.flat.wired.source hnet hmem
  obtain ⟨port', hport', rfl⟩ := Option.map_eq_some_iff.mp hdecl
  obtain rfl := Option.some.inj (hattached.found.symm.trans hport')
  exact hattached.tristate htristate

/-- The part of a component of this kind. -/
theorem madeOf_part (hlocated : Located library netlist spots spot component placed)
    (hpart : netlist.parts[placed.part]? = some part) (builtin : Builtin)
    (hdefinition : component.definition = builtin.id) :
    part.MadeOf (builtin.assemble component.args) := by
  obtain ⟨found, hfound, hmade, -⟩ := hlocated.madeOf_builtin h.furnished builtin hdefinition
  obtain rfl := Option.some.inj (hpart.symm.trans hfound)
  exact hmade

/-- A phase comes before the nets it drives. -/
theorem rank_lt_of_writes (hlevels : Levels spots level top) {port : Nat}
    (hwrites : netlist.Writes index position port place) :
    busRank netlist level top (.phase index position) < busRank netlist level top (.net place) := by
  obtain ⟨phase, hphase, hmem, hdriven⟩ := hwrites
  have hsource := (Embedding.drivenNet_iff.mp hdriven).2
  obtain ⟨other, endpoint, hpinned⟩ := h.exists_pinned_source hsource
  obtain ⟨net, hnet, hrank⟩ := hlevels.exists_net hpinned
  obtain ⟨spot, component, placed, part, hlocated, rfl, hrole, hpart, hfound, hscope⟩ :=
    h.exists_owner hphase
  have hbelow := hlevels.lt spot hlocated.listed
  have hbelow' := hlevels.lt other hpinned.listed
  rw [hrank, hlevels.rank_phase hlocated.listed hpart hscope]
  cases hrole with
  | input hdefinition =>
    rw [(h.madeOf_part hlocated hpart .input hdefinition).device, Net.busRank]
    change 0 < _
    split <;> omega
  | probe hdefinition =>
    obtain rfl := (h.madeOf_part hlocated hpart .probe hdefinition).phase_eq rfl hfound
    cases hmem
  | buffer hdefinition hwraps =>
    have hmade := h.madeOf_part hlocated hpart .buffer hdefinition
    obtain rfl := hmade.phase_eq rfl hfound
    obtain rfl := List.mem_singleton.mp hmem
    obtain ⟨rfl, -⟩ := h.near_of_pinned hpinned hlocated .buffer hdefinition nofun
    have htristate := h.tristate_of_source hsource hnet (Netlist.decl?_of_madeOf hpart hmade 2) rfl
    rw [hmade.device, Net.busRank, if_pos htristate]
    change 2 * _ + 2 < _
    omega
  | inbound hport =>
    obtain ⟨hdefinition, hphases, ⟨value, hdevice⟩, -⟩ := inbound_assembly hport
    have hmade := h.madeOf_part hlocated hpart .boundary hdefinition
    obtain rfl := hmade.phase_eq hphases hfound
    obtain rfl := List.mem_singleton.mp hmem
    obtain ⟨rfl, -⟩ := h.near_of_pinned hpinned hlocated .boundary hdefinition (by simp)
    rw [hmade.device, hdevice, Net.busRank]
    change 2 * _ < _
    split <;> omega
  | outbound heq =>
    subst heq
    have hmade := h.madeOf_part hlocated hpart .boundary rfl
    obtain rfl := hmade.phase_eq rfl hfound
    obtain rfl := List.mem_singleton.mp hmem
    obtain ⟨outer, hcrossing, -⟩ := h.far_of_pinned hpinned hlocated rfl
    have htristate := h.tristate_of_source hsource hnet (Netlist.decl?_of_madeOf hpart hmade 1) rfl
    have hdeeper := congrArg List.length hcrossing.names
    rw [List.length_append, List.length_singleton] at hdeeper
    rw [hmade.device, Net.busRank, if_pos htristate]
    change 2 * _ + 1 < _
    omega
  | expanded hinside => exact absurd hpinned (h.not_pinned_expanded hlocated hinside)

/-- What is expanded is a driver. -/
theorem exists_wraps (hspot : spot ∈ spots) (hmem : component ∈ spot.schematic.components)
    {inside : Schematic} (hinside : library.inside? component = some inside) :
    ∃ depth, library.Wraps depth component := by
  rcases h.spot_cases hspot with htop | ⟨-, depth, inner, hinner, -, hdrawn⟩
  · rw [congrArg Site.schematic htop] at hmem
    obtain ⟨lane, -, rfl⟩ := exists_lane_of_expanded h.furnished hmem hinside
    exact ⟨_, lane.wraps⟩
  · rw [hdrawn] at hmem
    exact ⟨depth, eq_of_expanded_busDriver h.furnished hmem hinside ▸ hinner⟩

/-- A net at an input of a driver is on the way down. -/
theorem rank_of_input (hlevels : Levels spots level top) {asSource : Bool}
    (hpinned : Pinned netlist spots spot endpoint asSource index ref)
    (hmem : driver ∈ spot.schematic.components) (hwraps : library.Wraps depth driver) {id : String}
    (hid : id = "in" ∨ id = "en") (hend : endpoint = ⟨driver.id, id⟩) :
    busRank netlist level top (.net index) = 2 * spot.names.length + 1 := by
  obtain ⟨net, hnet, hrank⟩ := hlevels.exists_net hpinned
  obtain ⟨position, hcarries, hwire⟩ := hpinned.carried
  have hplain := h.plain_of_input hpinned.listed hmem hwraps hcarries hnet hid (hend ▸ hwire)
  rw [hrank, Net.busRank, hplain, if_neg Bool.false_ne_true]

/-- A phase comes after the nets it reads. -/
theorem rank_lt_of_reads (hlevels : Levels spots level top) {port : Nat} {mode : ReadMode}
    (hreads : netlist.Reads index position port place mode) :
    busRank netlist level top (.net place) < busRank netlist level top (.phase index position) := by
  obtain ⟨phase, hphase, hmem, hread, -⟩ := hreads
  obtain ⟨other, endpoint, asSource, hpinned⟩ :=
    h.exists_pinned_target (Embedding.readNet_iff.mp hread).2
  obtain ⟨net, hnet, hrank⟩ := hlevels.exists_net hpinned
  obtain ⟨spot, component, placed, part, hlocated, rfl, hrole, hpart, hfound, hscope⟩ :=
    h.exists_owner hphase
  have hbelow := hlevels.lt spot hlocated.listed
  have hbelow' := hlevels.lt other hpinned.listed
  have hlast : busRank netlist level top (.net place) < 2 * top + 1 := by
    rw [hrank, Net.busRank]
    split <;> omega
  rw [hlevels.rank_phase hlocated.listed hpart hscope]
  cases hrole with
  | input hdefinition =>
    obtain rfl := (h.madeOf_part hlocated hpart .input hdefinition).phase_eq rfl hfound
    cases hmem
  | probe hdefinition =>
    rw [(h.madeOf_part hlocated hpart .probe hdefinition).device]
    exact hlast
  | buffer hdefinition hwraps =>
    have hmade := h.madeOf_part hlocated hpart .buffer hdefinition
    obtain rfl := hmade.phase_eq rfl hfound
    obtain ⟨rfl, decl, hdecl, hend⟩ := h.near_of_pinned hpinned hlocated .buffer hdefinition nofun
    have hid : decl.id = "in" ∨ decl.id = "en" := by
      simp only [List.append_nil, List.mem_cons, List.not_mem_nil, or_false] at hmem
      rcases hmem with rfl | rfl
      · exact .inr (Option.some.inj hdecl ▸ rfl)
      · exact .inl (Option.some.inj hdecl ▸ rfl)
    rw [h.rank_of_input hlevels hpinned hlocated.drawn hwraps hid hend, hmade.device]
    exact Nat.lt_succ_self _
  | inbound hport =>
    obtain ⟨hdefinition, hphases, ⟨value, hdevice⟩, hid⟩ := inbound_assembly hport
    have hmade := h.madeOf_part hlocated hpart .boundary hdefinition
    obtain rfl := hmade.phase_eq hphases hfound
    obtain rfl := List.mem_singleton.mp hmem
    obtain ⟨outer, hcrossing, hend⟩ := h.far_of_pinned hpinned hlocated hdefinition
    obtain ⟨depth, hwraps⟩ := h.exists_wraps hcrossing.listed hcrossing.drawn hcrossing.inside
    have hdeeper := congrArg List.length hcrossing.names
    rw [List.length_append, List.length_singleton] at hdeeper
    rw [h.rank_of_input hlevels hpinned hcrossing.drawn hwraps hid hend, hmade.device, hdevice]
    change _ < 2 * _
    omega
  | outbound heq =>
    subst heq
    have hmade := h.madeOf_part hlocated hpart .boundary rfl
    obtain rfl := hmade.phase_eq rfl hfound
    obtain rfl := List.mem_singleton.mp hmem
    obtain ⟨rfl, -⟩ := h.near_of_pinned hpinned hlocated .boundary rfl (by simp)
    rw [hrank, hmade.device, Net.busRank]
    change _ < 2 * _ + 1
    split <;> omega
  | expanded hinside =>
    rw [(h.madeOf_expanded hlocated hinside hpart).device]
    exact hlast

/-- Every part has a single phase, which reads no any-of port. -/
theorem phase_zero {phase : Phase} (hphase : netlist.Ordinary index position phase) :
    position = 0 ∧ phase.anyOf = [] := by
  obtain ⟨spot, component, placed, part, hlocated, rfl, hrole, hpart, hfound, -⟩ :=
    h.exists_owner hphase
  have hone : ∃ only : Phase, part.phases = [only] ∧ only.anyOf = [] := by
    cases hrole with
    | input hdefinition => exact ⟨_, (h.madeOf_part hlocated hpart .input hdefinition).phases, rfl⟩
    | probe hdefinition => exact ⟨_, (h.madeOf_part hlocated hpart .probe hdefinition).phases, rfl⟩
    | buffer hdefinition =>
      exact ⟨_, (h.madeOf_part hlocated hpart .buffer hdefinition).phases, rfl⟩
    | inbound hport =>
      obtain ⟨hdefinition, hphases, -⟩ := inbound_assembly hport
      exact ⟨_, (h.madeOf_part hlocated hpart .boundary hdefinition).phases.trans hphases, rfl⟩
    | outbound heq =>
      subst heq
      exact ⟨_, (h.madeOf_part hlocated hpart .boundary rfl).phases, rfl⟩
    | expanded hinside => exact ⟨_, (h.madeOf_expanded hlocated hinside hpart).phases, rfl⟩
  obtain ⟨only, hphases, hanyOf⟩ := hone
  rw [hphases] at hfound
  rw [List.mem_singleton.mp (List.mem_of_getElem? hfound)]
  exact ⟨Nat.lt_one_iff.mp (List.getElem?_eq_some_iff.mp hfound).1, hanyOf⟩

/-- A circuit with a shared bus is static. -/
theorem static : netlist.Static := by
  obtain ⟨level, top, hlevels⟩ := h.exists_levels
  exact Netlist.static_of_levels (fun index => busRank netlist level top (.phase index 0))
    (fun place => busRank netlist level top (.net place)) h.phase_zero
    (h.rank_lt_of_writes hlevels) (h.rank_lt_of_reads hlevels) h.single

end LaidBus

end Breadboard
