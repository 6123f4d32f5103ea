import Breadboard.Proofs.BusMemory

/-!
# Circuits on a single sheet

Many circuits are drawn on one sheet: all components are built in, and every wire leads
from one plain output to inputs of its width. If the components can be given levels that
grow along the wires, apart from those that only a clock edge reads (`Sheet`), then the
circuit is static (`LaidSheet.static`), whatever its size.

Such a circuit can be read off its drawing. Every component has its part
(`LaidSheet.exists_houses`) and every wire its net (`LaidSheet.exists_conducts`), and once
the circuit has settled, the ends of a wire agree (`Netlist.Conducts.wordAt_sink`).
-/

namespace Breadboard

/-! ## Numbers as words -/

theorem span_eq_pow {width : Nat} (hword : width ≤ 64) : span width = 2 ^ width := by
  rw [span, Nat.min_eq_left hword, Nat.one_shiftLeft]

theorem toNat_trim_ofNat {width : Nat} (hword : width ≤ 64) (number : Nat) :
    (trim width (.ofNat number)).toNat = number % 2 ^ width := by
  rw [toNat_trim, span_eq_pow hword, UInt64.toNat_ofNat']
  exact Nat.mod_mod_of_dvd number (Nat.pow_dvd_pow 2 hword)

/-- The lowest bits of a number are its rest. -/
theorem trim_ofNat {width : Nat} (hword : width ≤ 64) (number : Nat) :
    trim width (.ofNat number) = .ofNat (number % 2 ^ width) := by
  apply UInt64.toNat_inj.mp
  have hlt := Nat.mod_lt number (Nat.two_pow_pos width)
  rw [toNat_trim_ofNat hword, UInt64.toNat_ofNat',
    Nat.mod_eq_of_lt (Nat.lt_of_lt_of_le hlt (Nat.pow_le_pow_right (by decide) hword))]

/-! ## Built-in definitions -/

theorem Library.furnished_builtin : Library.builtin.Furnished where
  composed := composed_builtin
  acyclic := acyclic_of_rank (fun _ => 0) fun entry hentry inside hinside => by
    have hnone := expands_builtin entry hentry
    rw [hinside] at hnone
    cases hnone
  sealed := sealed_builtin
  builtin := by
    intro builtin
    cases builtin <;> rfl

/-- A width that is written down is read again. -/
theorem Json.width_eq {width : Nat} (hword : width ≤ 64) (rest : List (String × Json)) :
    (Json.obj (("width", .int width) :: rest)).width "width" 1 = width := by
  change (if width < UInt32.size then some width else none).getD 1 = width
  rw [if_pos (Nat.lt_of_le_of_lt hword (by decide)), Option.getD_some]

/-! ## Sheets -/

/-- The end of a wire is at this port of a built-in component. -/
structure Schematic.EndsAt (schematic : Schematic) (endpoint : Endpoint) (component : Component)
    (builtin : Builtin) (position : Nat) (decl : PortDecl) : Prop where
  drawn : component ∈ schematic.components
  kind : component.definition = builtin.id
  id : endpoint.component = component.id
  found : (builtin.assemble component.args).ports.findIdx? (·.id = endpoint.port) = some position
  decl : (builtin.assemble component.args).ports[position]? = some decl

/-- The end of a wire is at a plain output of this width. -/
def Schematic.Drives (schematic : Schematic) (source : Endpoint) (width : Nat) : Prop :=
  ∃ component builtin position decl, schematic.EndsAt source component builtin position decl ∧
    decl.type.output = true ∧ decl.type.input = false ∧ decl.type.tristate = false ∧
    decl.width = width

/-- The end of a wire is at a plain input of this width. If the component reads it before the
clock edge, then it is above this level. -/
def Schematic.Hears (schematic : Schematic) (level : String → Nat) (below : Nat)
    (sink : Endpoint) (width : Nat) : Prop :=
  ∃ component builtin position decl, schematic.EndsAt sink component builtin position decl ∧
    decl.type.input = true ∧ decl.type.output = false ∧ decl.type.tristate = false ∧
    decl.width = width ∧ ∀ phase ∈ (builtin.assemble component.args).phases, phase.latch = false →
      position ∈ phase.reads → below < level component.id

/-- A circuit of built-in components in which each wire leads from one output to inputs on
higher levels, or to inputs that the clock edge reads. -/
structure Sheet (library : Library) (schematic : Schematic) (level : String → Nat) : Prop where
  furnished : library.Furnished
  nodup : (schematic.components.map (·.id)).Nodup
  kind : ∀ component ∈ schematic.components, ∃ builtin : Builtin,
    component.definition = builtin.id ∧ builtin ≠ .bridge ∧
      (builtin.assemble component.args).device.overshifts = false
  disjoint : Disjoint schematic.wires
  leads : ∀ wire ∈ schematic.wires, ∃ source sinks width, wire.endpoints = source :: sinks ∧
    width ≠ 0 ∧ schematic.Drives source width ∧
    ∀ sink ∈ sinks, schematic.Hears level (level source.component) sink width

/-- Heights of things with different names are levels. -/
theorem exists_level {α : Type} {items : List α} {id : α → String} (hids : (items.map id).Nodup)
    (height : α → Nat) : ∃ level : String → Nat, ∀ item ∈ items, level (id item) = height item := by
  refine ⟨fun name => ((items.map fun item => (id item, height item)).lookup name).getD 0,
    fun item hitem => ?_⟩
  have hfound : (items.map fun item => (id item, height item)).lookup (id item) =
      some (height item) := by
    refine lookup_of_mem ?_ (List.mem_map_of_mem hitem)
    rwa [List.map_map]
  exact congrArg (Option.getD · 0) hfound

/-- A built-in component other than a bridge settles in one phase. -/
theorem Builtin.phase_zero {builtin : Builtin} (hbridge : builtin ≠ .bridge) {args : Json}
    {position : Nat} {phase : Phase}
    (hphase : (builtin.assemble args).phases[position]? = some phase)
    (hlatch : phase.latch = false) : position = 0 ∧ phase.anyOf = [] := by
  have hone : ∀ {only : Phase}, (builtin.assemble args).phases = [only] → only.anyOf = [] →
      position = 0 ∧ phase.anyOf = [] := fun {only} honly hnone => by
    rw [honly] at hphase
    rw [List.mem_singleton.mp (List.mem_of_getElem? hphase)]
    exact ⟨Nat.lt_one_iff.mp (List.getElem?_eq_some_iff.mp hphase).1, hnone⟩
  have htwo : ∀ {first edge : Phase}, (builtin.assemble args).phases = [first, edge] →
      first.anyOf = [] → edge.latch = true → position = 0 ∧ phase.anyOf = [] :=
    fun {first edge} hboth hnone hedge => by
    rw [hboth] at hphase
    rcases position with _ | _ | position
    · exact ⟨rfl, Option.some.inj hphase ▸ hnone⟩
    · rw [← Option.some.inj hphase, hedge] at hlatch
      cases hlatch
    · cases hphase
  cases builtin with
  | bridge => exact absurd rfl hbridge
  | register => exact htwo rfl rfl rfl
  | ram => exact htwo rfl rfl rfl
  | boundary =>
    refine hone rfl ?_
    split <;> rfl
  | _ => exact hone rfl rfl

section

variable {library : Library} {schematic : Schematic} {level : String → Nat} {netlist : Netlist}
  {root : Spot} {component : Component} {builtin : Builtin} {part : Part}
  {position index place width : Nat} {decl : PortDecl} {endpoint source : Endpoint}
  {sinks : List Endpoint} {wire : Wire} {ref : PortRef} {net : Net}

namespace Sheet

variable (h : Sheet library schematic level)

include h

theorem plain : ∀ component ∈ schematic.components, library.inside? component = none :=
  fun component hmem => by
    obtain ⟨builtin, hdefinition, -⟩ := h.kind component hmem
    exact h.furnished.inside?_eq_none builtin hdefinition

/-- What is known of a component, given what it is built as. -/
theorem kind_eq (hmem : component ∈ schematic.components)
    (hdefinition : component.definition = builtin.id) :
    builtin ≠ .bridge ∧ (builtin.assemble component.args).device.overshifts = false := by
  obtain ⟨found, hfound, hkind⟩ := h.kind component hmem
  obtain rfl := Builtin.id_injective (hfound.symm.trans hdefinition)
  exact hkind

/-- The port that an end of a wire is at, as it is declared. -/
theorem decl?_eq (hend : schematic.EndsAt endpoint component builtin position decl) :
    schematic.decl? library endpoint = some decl := by
  have hsame : endpoint = ⟨component.id, endpoint.port⟩ := by rw [← hend.id]
  rw [hsame, decl?_builtin h.furnished h.nodup hend.drawn builtin hend.kind,
    List.find?_eq_bind_findIdx?_getElem?, hend.found, Option.bind_some, hend.decl]

/-- An output has one width. -/
theorem width_eq {width' : Nat} (hdrives : schematic.Drives source width)
    (hdrives' : schematic.Drives source width') : width = width' := by
  obtain ⟨_, _, _, decl, hat, -, -, -, rfl⟩ := hdrives
  obtain ⟨_, _, _, decl', hat', -, -, -, rfl⟩ := hdrives'
  rw [Option.some.inj ((h.decl?_eq hat).symm.trans (h.decl?_eq hat'))]

theorem sensible : schematic.Sensible library where
  nodup := h.nodup
  builds component hmem := by
    obtain ⟨builtin, hdefinition, -⟩ := h.kind component hmem
    exact ⟨_, h.furnished.assembly?_eq builtin hdefinition⟩
  exposed component hmem inside hinside := by
    rw [h.plain component hmem] at hinside
    cases hinside
  ends := h.disjoint.ends fun wire hwire => by
    obtain ⟨source, sinks, width, hends, -, ⟨_, _, _, decl, hsource, -, -, -, hwidth⟩, hsinks⟩ :=
      h.leads wire hwire
    refine ⟨width, fun endpoint hend => ?_⟩
    rw [hends, List.mem_cons] at hend
    rcases hend with rfl | hend
    · exact ⟨decl, h.decl?_eq hsource, hwidth⟩
    · obtain ⟨_, _, _, decl, hsink, -, -, -, hwidth, -⟩ := hsinks endpoint hend
      exact ⟨decl, h.decl?_eq hsink, hwidth⟩

end Sheet

/-! ## The circuit as it is laid out -/

/-- A sheet that is flat, and where its components and wires are found. -/
structure LaidSheet (library : Library) (schematic : Schematic) (level : String → Nat)
    (netlist : Netlist) (root : Spot) : Prop where
  sheet : Sheet library schematic level
  drawing : Drawing library schematic netlist root
  flat : netlist.Flat
  paired : ∀ ref, netlist.Paired ref
  tristate : ∀ net ∈ netlist.nets, net.tristate = true → netlist.ListsTristate net

theorem Sheet.exists_laidSheet (h : Sheet library schematic level) :
    ∃ root, LaidSheet library schematic level (flatten library schematic) root := by
  obtain ⟨root, hdrawing⟩ := exists_drawing h.furnished.composed h.plain h.sensible
  exact ⟨root, h, hdrawing, ⟨library, _, h.furnished.composed.native, rfl⟩,
    h.furnished.sealed.paired_flatten _, Netlist.tristate_flatten library schematic⟩

theorem Located.id_getD {spots : List Spot} {spot : Spot} {placed : Placed}
    (h : Located library netlist spots spot component placed) :
    (netlist.parts.getD placed.part default).id = component.id := by
  obtain ⟨-, -, part, -, -, hpart, -, hid, -⟩ := h.madeOf
  rw [List.getD_eq_getElem?_getD, hpart, Option.getD_some, hid]

/-- The net carries what the source shows to all sinks. -/
structure Netlist.Conducts (netlist : Netlist) (source : Endpoint) (sinks : List Endpoint)
    (width index : Nat) : Prop where
  line : ∃ ref net, netlist.pinAt? source = some ref ∧ netlist.nets[index]? = some net ∧
    net.tristate = false ∧ net.width = width ∧ net.sources = [ref]
  targets : ∀ sink ∈ sinks, ∃ ref, netlist.pinAt? sink = some ref ∧ netlist.HasTarget index ref

/-- The level of a part, by the id of its component. -/
def Netlist.levelOf (netlist : Netlist) (level : String → Nat) (part : Nat) : Nat :=
  level (netlist.parts.getD part default).id

/-- A net stands above its source. -/
def Netlist.height (netlist : Netlist) (level : String → Nat) (index : Nat) : Nat :=
  ((netlist.nets.getD index default).sources.head?.map fun ref =>
    2 * netlist.levelOf level ref.part + 1).getD 0

namespace LaidSheet

variable {placed : Placed}

variable (h : LaidSheet library schematic level netlist root)

include h

/-- The part of a component. -/
theorem host (hmem : component ∈ schematic.components) :
    ∃ placed, Located library netlist [root] root component placed :=
  h.drawing.chart.host (List.mem_singleton_self root) (h.drawing.drawn ▸ hmem)

theorem houses (hlocated : Located library netlist [root] root component placed)
    (hdefinition : component.definition = builtin.id) :
    netlist.Houses component builtin placed.part := by
  obtain ⟨part, hpart, hmade, -⟩ := hlocated.madeOf_builtin h.sheet.furnished builtin hdefinition
  refine ⟨?_, part, hpart, hmade⟩
  rw [← h.drawing.chart.partAt?_eq hlocated, Site.path, h.drawing.names]
  rfl

theorem exists_houses (builtin : Builtin) (hmem : component ∈ schematic.components)
    (hdefinition : component.definition = builtin.id) :
    ∃ index, netlist.Houses component builtin index := by
  obtain ⟨placed, hlocated⟩ := h.host hmem
  exact ⟨placed.part, h.houses hlocated hdefinition⟩

/-- What an end of a wire attaches. -/
theorem exists_attached (hend : schematic.EndsAt endpoint component builtin position decl) :
    ∃ placed, Located library netlist [root] root component placed ∧
      netlist.attachments root.placements endpoint = [(⟨placed.part, position⟩, true)] ∧
      netlist.pinAt? endpoint = some ⟨placed.part, position⟩ ∧
      netlist.decl? ⟨placed.part, position⟩ = some decl := by
  have hsame : endpoint = ⟨component.id, endpoint.port⟩ := by rw [← hend.id]
  obtain ⟨placed, hlocated⟩ := h.host hend.drawn
  have hhouses := h.houses hlocated hend.kind
  obtain ⟨part, hpart, hmade⟩ := id hhouses.made
  refine ⟨placed, hlocated, ?_, ?_, (Netlist.decl?_of_madeOf hpart hmade position).trans hend.decl⟩
  · rw [hsame, hlocated.attachments_builtin h.sheet.furnished builtin hend.kind _ _ hend.found]
  · rw [hsame]
    exact hhouses.pinAt?_eq hend.found

/-- A wire with the net that carries it. -/
structure Strand (schematic : Schematic) (level : String → Nat) (netlist : Netlist) (root : Spot)
    (place index : Nat) (source : Endpoint) (sinks : List Endpoint) (width : Nat) (net : Net)
    (ref : PortRef) : Prop where
  listed : netlist.nets[index]? = some net
  drawn : ∃ wire ∈ schematic.wires, wire.endpoints = source :: sinks
  ends : ∀ endpoint, WireEnd root.schematic.wires place endpoint ↔
    endpoint = source ∨ endpoint ∈ sinks
  drives : schematic.Drives source width
  tristate : net.tristate = false
  wide : net.width = width
  pin : netlist.pinAt? source = some ref
  attached : netlist.attachments root.placements source = [(ref, true)]
  decl : ∃ decl, netlist.decl? ref = some decl ∧ decl.type.input = false
  sources : net.sources = [ref]
  id : (netlist.parts.getD ref.part default).id = source.component
  hears : ∀ sink ∈ sinks, schematic.Hears level (level source.component) sink width

/-- The only driver of a net is the source of the wire that it carries. -/
theorem sources_eq (hends : ∀ endpoint, WireEnd root.schematic.wires place endpoint ↔
      endpoint = source ∨ endpoint ∈ sinks)
    (hcarries : Carries netlist root place index) (hnet : netlist.nets[index]? = some net)
    (hattached : netlist.attachments root.placements source = [(ref, true)])
    (houtput : netlist.Outputs ref)
    (hsinks : ∀ sink ∈ sinks, schematic.Hears level (level source.component) sink width) :
    net.sources = [ref] := by
  refine Chart.sources_eq h.paired hnet fun other => ?_
  rw [hcarries.hasSource_iff]
  constructor
  · rintro ⟨⟨endpoint, hend, hmem⟩, found, hfound, hout⟩
    rcases (hends endpoint).mp hend with rfl | hsink
    · rw [hattached] at hmem
      exact (Prod.mk.inj (List.mem_singleton.mp hmem)).1
    · obtain ⟨_, _, position, decl, hsink, -, hplain, -⟩ := hsinks endpoint hsink
      obtain ⟨placed, -, hattached', -, hdecl⟩ := h.exists_attached hsink
      rw [hattached'] at hmem
      obtain ⟨rfl, -⟩ := Prod.mk.inj (List.mem_singleton.mp hmem)
      rw [Option.some.inj (hfound.symm.trans hdecl), hplain] at hout
      cases hout
  · rintro rfl
    exact ⟨⟨source, (hends source).mpr (.inl rfl), hattached ▸ List.mem_singleton_self _⟩, houtput⟩

theorem exists_strand (hwire : schematic.wires[place]? = some wire)
    (hcarries : Carries netlist root place index) : ∃ source sinks width net ref,
      wire.endpoints = source :: sinks ∧
      Strand schematic level netlist root place index source sinks width net ref := by
  obtain ⟨source, sinks, width, hshape, hwidth, hsource, hsinks⟩ :=
    h.sheet.leads wire (List.mem_of_getElem? hwire)
  obtain ⟨component, builtin, position, decl, hat, houtput, hplain, hclosed, hsame⟩ := id hsource
  obtain ⟨placed, hlocated, hattached, hpin, hdecl⟩ := h.exists_attached hat
  have hroot := List.mem_singleton_self root
  have hnet := List.getElem?_eq_getElem hcarries.net
  have hends : ∀ endpoint, WireEnd root.schematic.wires place endpoint ↔
      endpoint = source ∨ endpoint ∈ sinks := fun endpoint => by
    rw [h.drawing.drawn, h.sheet.disjoint.wireEnd_iff hwire, hshape, List.mem_cons]
  have hdecl? : ∀ {endpoint component builtin position decl},
      schematic.EndsAt endpoint component builtin position decl →
        root.schematic.decl? library endpoint = some decl := fun hat =>
    h.drawing.drawn ▸ h.sheet.decl?_eq hat
  refine ⟨source, sinks, width, _, _, hshape, hnet,
    ⟨wire, List.mem_of_getElem? hwire, hshape⟩, hends, hsource, ?_, ?_, hpin, hattached,
    ⟨decl, hdecl, hplain⟩, h.sources_eq hends hcarries hnet hattached ⟨decl, hdecl, houtput⟩ hsinks,
    hlocated.id_getD.trans hat.id.symm, hsinks⟩
  · refine h.drawing.chart.plain_of_ends h.tristate hroot hcarries hnet fun endpoint hend => ?_
    rcases (hends endpoint).mp hend with rfl | hsink
    · exact ⟨decl, hdecl? hat, hclosed⟩
    · obtain ⟨_, _, _, decl, hsink, -, -, hclosed, -⟩ := hsinks endpoint hsink
      exact ⟨decl, hdecl? hsink, hclosed⟩
  · rw [← hsame]
    exact h.drawing.chart.width_of_end h.flat hroot hcarries hnet ((hends source).mpr (.inl rfl))
      (hdecl? hat) (hsame ▸ hwidth)

/-- Every wire is carried by a net, which is found by the name of the wire if no other wire
is called so. -/
theorem exists_conducts (hwire : wire ∈ schematic.wires)
    (hshape : wire.endpoints = source :: sinks) (hdrives : schematic.Drives source width) :
    ∃ index, netlist.Conducts source sinks width index ∧
      ((schematic.wires.map (·.id)).Nodup → netlist.netAt? ⟨wire.id⟩ = some index) := by
  obtain ⟨place, hlt, rfl⟩ := List.mem_iff_getElem.mp hwire
  have hfound := List.getElem?_eq_getElem hlt
  obtain ⟨index, hcarries⟩ := h.drawing.chart.exists_carries (List.mem_singleton_self root)
    (h.drawing.drawn ▸ hlt)
  obtain ⟨_, _, _, net, ref, hshape', hstrand⟩ := h.exists_strand hfound hcarries
  obtain ⟨rfl, rfl⟩ := List.cons.inj (hshape.symm.trans hshape')
  obtain rfl := h.sheet.width_eq hdrives hstrand.drives
  refine ⟨index,
    ⟨⟨ref, net, hstrand.pin, hstrand.listed, hstrand.tristate, hstrand.wide, hstrand.sources⟩,
      fun sink hsink => ?_⟩, fun hnodup => ?_⟩
  · obtain ⟨_, _, position, decl, hat, hinput, -⟩ := hstrand.hears sink hsink
    obtain ⟨placed, -, hattached, hpin, hdecl⟩ := h.exists_attached hat
    refine ⟨_, hpin, hcarries.hasTarget_of_reached
      ⟨sink, (hstrand.ends sink).mpr (.inr hsink), ?_⟩ ⟨decl, hdecl, hinput⟩⟩
    rw [hattached]
    exact List.mem_singleton_self _
  · have hpath : ∀ id : String, root.path id = ⟨id⟩ := fun id => by
      rw [Site.path, h.drawing.names]
      rfl
    have hdrawn : root.schematic.wires[place]? = some schematic.wires[place] := by
      rw [h.drawing.drawn, hfound]
    obtain ⟨found, hlatest⟩ := exists_latest? (h.drawing.chart.mem_netEntries_iff.mpr
      ⟨root, List.mem_singleton_self root, place, _, hdrawn, (hpath _).symm, hcarries⟩)
    obtain ⟨spot, hspot, other, wire, hother, hsame, hcarries'⟩ :=
      h.drawing.chart.mem_netEntries_iff.mp (mem_of_latest? hlatest)
    obtain rfl := List.mem_singleton.mp hspot
    rw [h.drawing.drawn] at hother
    have hid := Path.mk.inj (hsame.trans (hpath wire.id))
    obtain rfl : place = other := by
      refine (List.getElem?_inj (by rwa [List.length_map]) hnodup).mp ?_
      rw [List.getElem?_map, List.getElem?_map, hfound, hother, Option.map_some, Option.map_some,
        hid]
    have hend := (hstrand.ends source).mpr (.inl rfl)
    obtain rfl := h.drawing.chart.eq_of_end (Chart.single_of_paired h.flat.wired h.paired)
      (List.mem_singleton_self spot) hcarries hcarries' hend hend
    exact hlatest

/-! ## Levels -/

omit h in
theorem Strand.height_eq (hstrand : Strand schematic level netlist root place index source sinks
    width net ref) : netlist.height level index = 2 * level source.component + 1 := by
  rw [Netlist.height, List.getD_eq_getElem?_getD, hstrand.listed, Option.getD_some, hstrand.sources,
    List.head?_cons, Option.map_some, Option.getD_some, Netlist.levelOf, hstrand.id]

/-- Every part is that of a built-in component. -/
theorem exists_owner {owner : Part} (howner : netlist.parts[index]? = some owner) :
    ∃ component ∈ schematic.components, ∃ builtin : Builtin,
      component.definition = builtin.id ∧ netlist.Houses component builtin index ∧
        owner.MadeOf (builtin.assemble component.args) := by
  obtain ⟨spot, component, placed, hlocated, rfl⟩ :=
    h.drawing.chart.locate (List.getElem?_eq_some_iff.mp howner).1
  obtain rfl := List.mem_singleton.mp hlocated.listed
  have hmem : component ∈ schematic.components := h.drawing.drawn ▸ hlocated.drawn
  obtain ⟨builtin, hdefinition, -⟩ := h.sheet.kind component hmem
  have hhouses := h.houses hlocated hdefinition
  obtain ⟨found, hfound, hmade⟩ := id hhouses.made
  obtain rfl := Option.some.inj (hfound.symm.trans howner)
  exact ⟨component, hmem, builtin, hdefinition, hhouses, hmade⟩

/-- Every part settles in one phase. -/
theorem phase_zero {part : Nat} {phase : Phase} (hphase : netlist.Ordinary part position phase) :
    position = 0 ∧ phase.anyOf = [] := by
  obtain ⟨owner, howner, hplace⟩ := Netlist.part_of_phase hphase
  obtain ⟨component, hmem, builtin, hdefinition, -, hmade⟩ := h.exists_owner howner
  rw [hmade.phases] at hplace
  exact Builtin.phase_zero (h.sheet.kind_eq hmem hdefinition).1 hplace hphase.2

/-- Every net carries a wire. -/
theorem exists_strand_of_lt (hlt : index < netlist.nets.length) :
    ∃ place source sinks width net ref, Carries netlist root place index ∧
      Strand schematic level netlist root place index source sinks width net ref := by
  obtain ⟨spot, hspot, place, wire, hwire, hcarries⟩ := h.drawing.chart.exists_carried hlt
  obtain rfl := List.mem_singleton.mp hspot
  rw [h.drawing.drawn] at hwire
  obtain ⟨source, sinks, width, net, ref, -, hstrand⟩ := h.exists_strand hwire hcarries
  exact ⟨place, source, sinks, width, net, ref, hcarries, hstrand⟩

/-- A net is above what writes it. -/
theorem height_of_writes {part port : Nat} (hwrites : netlist.Writes part position port index) :
    2 * netlist.levelOf level part < netlist.height level index := by
  obtain ⟨phase, -, -, hdriven⟩ := hwrites
  obtain ⟨net, hnet, hmem⟩ := (Embedding.drivenNet_iff.mp hdriven).2
  obtain ⟨place, source, sinks, width, found, ref, -, hstrand⟩ :=
    h.exists_strand_of_lt (List.getElem?_eq_some_iff.mp hnet).1
  obtain rfl := Option.some.inj (hnet.symm.trans hstrand.listed)
  rw [hstrand.sources] at hmem
  rw [hstrand.height_eq, ← hstrand.id, ← List.mem_singleton.mp hmem, Netlist.levelOf]
  exact Nat.lt_succ_self _

/-- A net is below what reads it. -/
theorem height_of_reads {part port : Nat} {mode : ReadMode}
    (hreads : netlist.Reads part position port index mode) :
    netlist.height level index < 2 * netlist.levelOf level part := by
  obtain ⟨phase, hphase, hmem, hread, -⟩ := hreads
  have htarget := (Embedding.readNet_iff.mp hread).2
  obtain ⟨net, hnet, -⟩ := id htarget
  obtain ⟨place, source, sinks, width, found, ref, hcarries, hstrand⟩ :=
    h.exists_strand_of_lt (List.getElem?_eq_some_iff.mp hnet).1
  obtain ⟨⟨endpoint, asSource, hend, hattached⟩, decl, hdecl, hinput⟩ :=
    hcarries.hasTarget_iff.mp htarget
  rw [hstrand.height_eq]
  rcases (hstrand.ends endpoint).mp hend with rfl | hsink
  · -- the source is an output, and reads nothing
    rw [hstrand.attached] at hattached
    obtain ⟨rfl, -⟩ := Prod.mk.inj (List.mem_singleton.mp hattached)
    obtain ⟨found, hfound, hplain⟩ := hstrand.decl
    rw [Option.some.inj (hdecl.symm.trans hfound), hplain] at hinput
    cases hinput
  · obtain ⟨component, builtin, position, decl, hat, -, -, -, -, hlevel⟩ :=
      hstrand.hears endpoint hsink
    obtain ⟨placed, hlocated, hattached', -⟩ := h.exists_attached hat
    rw [hattached'] at hattached
    obtain ⟨heq, -⟩ := Prod.mk.inj (List.mem_singleton.mp hattached)
    obtain ⟨rfl, rfl⟩ := PortRef.mk.inj heq
    obtain ⟨found, hfound, hmade⟩ := (h.houses hlocated hat.kind).made
    obtain ⟨owner, howner, hplace⟩ := Netlist.part_of_phase hphase
    obtain rfl := Option.some.inj (hfound.symm.trans howner)
    rw [hmade.phases] at hplace
    rw [(h.phase_zero hphase).2, List.append_nil] at hmem
    have hlt := hlevel phase (List.mem_of_getElem? hplace) hphase.2 hmem
    rw [Netlist.levelOf, hlocated.id_getD]
    omega

/-- A port where no wire ends is not bound. -/
theorem unbound (hmem : component ∈ schematic.components)
    (hdefinition : component.definition = builtin.id)
    (hhouses : netlist.Houses component builtin index)
    (hdecl : (builtin.assemble component.args).ports[position]? = some decl) {port : Port}
    (hport : netlist.port? ⟨index, position⟩ = some port)
    (hfree : ∀ wire ∈ schematic.wires, ⟨component.id, decl.id⟩ ∉ wire.endpoints) :
    port.bound = false := by
  rw [← Bool.not_eq_true]
  intro hbound
  obtain ⟨other, hother⟩ := Option.isSome_iff_exists.mp hbound
  obtain ⟨net, hnet, hlisted⟩ := h.flat.wired.lists_of_bound hport hother
  obtain ⟨place, source, sinks, width, found, ref, hcarries, hstrand⟩ :=
    h.exists_strand_of_lt (List.getElem?_eq_some_iff.mp hnet).1
  -- whichever end of the wire brings the port to the net, it is an end at the port
  obtain ⟨endpoint, asSource, hend, hattached⟩ :
      ∃ endpoint asSource, WireEnd root.schematic.wires place endpoint ∧
        (⟨index, position⟩, asSource) ∈ netlist.attachments root.placements endpoint := by
    rcases hlisted with hsource | htarget
    · obtain ⟨⟨endpoint, hend, hattached⟩, -⟩ := hcarries.hasSource_iff.mp ⟨net, hnet, hsource⟩
      exact ⟨endpoint, true, hend, hattached⟩
    · obtain ⟨⟨endpoint, asSource, hend, hattached⟩, -⟩ :=
        hcarries.hasTarget_iff.mp ⟨net, hnet, htarget⟩
      exact ⟨endpoint, asSource, hend, hattached⟩
  obtain ⟨owner, kind, position', decl', hat⟩ : ∃ owner kind position decl,
      schematic.EndsAt endpoint owner kind position decl := by
    rcases (hstrand.ends endpoint).mp hend with rfl | hsink
    · obtain ⟨_, _, _, _, hat, -⟩ := hstrand.drives
      exact ⟨_, _, _, _, hat⟩
    · obtain ⟨_, _, _, _, hat, -⟩ := hstrand.hears endpoint hsink
      exact ⟨_, _, _, _, hat⟩
  obtain ⟨placed, hlocated, hattached', -⟩ := h.exists_attached hat
  rw [hattached'] at hattached
  obtain ⟨heq, -⟩ := Prod.mk.inj (List.mem_singleton.mp hattached)
  obtain ⟨rfl, rfl⟩ := PortRef.mk.inj heq
  obtain ⟨host, hhost⟩ := h.host hmem
  have hfound := (h.houses hhost hdefinition).found
  obtain ⟨-, rfl⟩ := h.drawing.chart.eq_of_part hlocated hhost
    (Option.some.inj (hhouses.found.symm.trans hfound))
  obtain rfl := Builtin.id_injective (hat.kind.symm.trans hdefinition)
  obtain ⟨hlt, hport, -⟩ := List.findIdx?_eq_some_iff_getElem.mp hat.found
  rw [← (List.getElem?_eq_some_iff.mp hdecl).2, of_decide_eq_true hport, ← hat.id] at hfree
  obtain ⟨wire, hwire, hshape⟩ := hstrand.drawn
  refine hfree wire hwire ?_
  rw [hshape, List.mem_cons]
  exact (hstrand.ends endpoint).mp hend

theorem static : netlist.Static :=
  Netlist.static_of_levels (2 * netlist.levelOf level ·) (netlist.height level) h.phase_zero
    h.height_of_writes h.height_of_reads (Chart.single_of_paired h.flat.wired h.paired)

/-- No adder is so wide that its carry is lost. -/
theorem fault_eq_none : netlist.fault? = none := by
  rw [Netlist.fault?_eq_none_iff]
  intro owner hmem
  obtain ⟨index, howner⟩ := List.getElem?_of_mem hmem
  obtain ⟨component, hmember, builtin, hdefinition, -, hmade⟩ := h.exists_owner howner
  rw [hmade.device, (h.sheet.kind_eq hmember hdefinition).2]

end LaidSheet

end

end Breadboard
