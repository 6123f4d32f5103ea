import Breadboard.Proofs.Declared
import Breadboard.Proofs.Outlets

/-!
# A shared bus as it is laid out

In the chart of a circuit with a shared bus each driver is found with its outlet: a line
leads from the input at the top to the port of the driver (`LaidBus.exists_line`), on
through the boundary ports of every level to the buffer, and the output comes out again
(`LaidBus.exists_outlet`, by induction on how deep the buffer is wrapped).
-/

namespace Breadboard

variable {library : Library} {lanes : List (Lane library)} {netlist : Netlist} {spots : List Spot}
  {spot : Spot} {component driver source inner : Component} {placed : Placed} {lane : Lane library}
  {port : PortDecl} {pin : String} {depth data enable : Nat} {ref : PortRef}

/-- A flat circuit with a shared bus, and its chart. -/
structure LaidBus (lanes : List (Lane library)) (netlist : Netlist) (spots : List Spot) : Prop where
  furnished : library.Furnished
  laned : Laned lanes
  chart : Chart library (busCircuit lanes) netlist spots
  flat : netlist.Flat
  paired : ∀ ref, netlist.Paired ref
  tristate : ∀ net ∈ netlist.nets, net.tristate = true → netlist.ListsTristate net

/-- What leads to a port of a driver ends at all pins that stand for the port. -/
def Leads (netlist : Netlist) (spot : Spot) (driver : Component) (id : String) (index : Nat) : Prop :=
  ∀ ref asSource, (ref, asSource) ∈ netlist.attachments spot.placements ⟨driver.id, id⟩ →
    netlist.Inputs ref → netlist.HasTarget index ref

/-- A circuit with a shared bus is laid out without a report. -/
theorem exists_laidBus (hlibrary : library.Furnished) (h : Laned lanes) :
    ∃ spots, LaidBus lanes (flatten library (busCircuit lanes)) spots := by
  have hunfolds := hlibrary.acyclic.unfolds (busCircuit lanes)
  have hsensible := fun site (hsite : site ∈ (busCircuit lanes).sites library) =>
    sensible_of_mem_sites hlibrary h hsite
  have hspelled := spelled_busCircuit hlibrary h
  have htop : scopePath [⟨none, ""⟩] 0 = Path.ofNames [] := by
    rw [scopePath]
    rfl
  have hnone := cleanly_layout hlibrary.composed _ (busCircuit lanes) [] 0
    { scopes := [⟨none, ""⟩] } hunfolds Nat.zero_lt_one htop hsensible rfl
  have hexposed : ∀ site ∈ (busCircuit lanes).sites library, site.names ≠ [] →
      ((Library.boundaryPorts site.schematic).map (·.id)).Nodup := by
    intro site hsite hnames
    rcases site_cases hlibrary hsite with rfl | ⟨-, depth, inner, hinner, -, hdrawn⟩
    · exact absurd rfl hnames
    · rw [hdrawn, boundaryPorts_busDriver (hinner.not_boundary hlibrary)]
      decide
  obtain ⟨spots, hchart, -⟩ := exists_chart_of_layout hlibrary.composed hunfolds
    (fun site hsite => (hsensible site hsite).nodup) hexposed
    (fun site hsite component hmem other hother component' hmem' hpath =>
      Site.eq_of_path hspelled hsite hother (hspelled site hsite component hmem)
        (hspelled other hother component' hmem') (congrArg Path.text hpath)) hnone
  exact ⟨spots, hlibrary, h, hchart, ⟨library, _, hlibrary.composed.native, rfl⟩,
    hlibrary.sealed.paired_flatten _,
    Netlist.tristate_flatten library (busCircuit lanes)⟩

namespace LaidBus

variable (h : LaidBus lanes netlist spots)

include h

theorem spot_cases (hspot : spot ∈ spots) : spot.toSite = ⟨[], busCircuit lanes⟩ ∨
    spot.names ≠ [] ∧ ∃ depth inner, library.Wraps depth inner ∧ inner.id = "buf" ∧
      spot.schematic = busDriver inner :=
  site_cases h.furnished (h.chart.sites ▸ List.mem_map_of_mem hspot)

theorem sensible (hspot : spot ∈ spots) : spot.schematic.Sensible library :=
  sensible_of_mem_sites h.furnished h.laned (h.chart.sites ▸ List.mem_map_of_mem hspot)

theorem disjoint (hspot : spot ∈ spots) : Disjoint spot.schematic.wires := by
  rcases h.spot_cases hspot with htop | ⟨-, depth, inner, -, hid, hdrawn⟩
  · rw [congrArg Site.schematic htop]
    exact h.laned.disjoint h.furnished
  · exact hdrawn ▸ disjoint_busDriver hid

theorem driver_decl (hspot : spot ∈ spots) (hmem : driver ∈ spot.schematic.components)
    (hwraps : library.Wraps depth driver) (id : String) :
    spot.schematic.decl? library ⟨driver.id, id⟩ = busPorts.find? (·.id = id) :=
  decl?_driver h.furnished (h.sensible hspot).nodup hmem hwraps id

/-- What supplies a driver, and the wire between them. -/
theorem ends_of_supplies (hspot : spot ∈ spots)
    (hsupplies : spot.schematic.Supplies library driver port source pin) :
    ∃ position < spot.schematic.wires.length, ∀ endpoint,
      WireEnd spot.schematic.wires position endpoint ↔
        endpoint = ⟨source.id, pin⟩ ∨ endpoint = ⟨driver.id, port.id⟩ := by
  obtain ⟨id, hwire⟩ := hsupplies.wire
  obtain ⟨position, hlt, hposition⟩ := List.mem_iff_getElem.mp hwire
  refine ⟨position, hlt, fun endpoint => ?_⟩
  rw [(h.disjoint hspot).wireEnd_iff (hposition ▸ List.getElem?_eq_getElem hlt)]
  simp

/-- The net that supplies a driver has no tri-state drivers. -/
theorem plain_of_supplies (hspot : spot ∈ spots)
    (hsupplies : spot.schematic.Supplies library driver port source pin)
    (hport : spot.schematic.decl? library ⟨driver.id, port.id⟩ = some port)
    (hplain : port.type.tristate = false) {position index : Nat} {net : Net}
    (hcarries : Carries netlist spot position index)
    (hend : WireEnd spot.schematic.wires position ⟨driver.id, port.id⟩)
    (hnet : netlist.nets[index]? = some net) : net.tristate = false := by
  obtain ⟨place, -, hends⟩ := h.ends_of_supplies hspot hsupplies
  obtain rfl := (h.disjoint hspot).eq_of_wireEnd hend ((hends _).mpr (.inr rfl))
  obtain ⟨decl, hdecl, -, hclosed, -⟩ := hsupplies.plain
  refine h.chart.plain_of_ends h.tristate hspot hcarries hnet fun endpoint hend => ?_
  rcases (hends endpoint).mp hend with rfl | rfl
  · exact ⟨decl, hdecl, hclosed⟩
  · exact ⟨port, hport, hplain⟩

/-- A port that only takes values in is driven by what supplies it. -/
theorem exists_line (hspot : spot ∈ spots)
    (hsupplies : spot.schematic.Supplies library driver port source pin)
    (hport : spot.schematic.decl? library ⟨driver.id, port.id⟩ = some port)
    (hplain : port.type.output = false ∧ port.type.tristate = false) (hwidth : port.width ≠ 0)
    (hattached : netlist.attachments spot.placements ⟨source.id, pin⟩ =
      [(⟨placed.part, 0⟩, true)]) :
    ∃ index net, netlist.nets[index]? = some net ∧ net.tristate = false ∧
      net.width = port.width ∧ net.sources = [⟨placed.part, 0⟩] ∧
      Leads netlist spot driver port.id index := by
  obtain ⟨position, hlt, hends⟩ := h.ends_of_supplies hspot hsupplies
  obtain ⟨decl, hdecl, houtput, -⟩ := hsupplies.plain
  obtain ⟨index, hcarries⟩ := h.chart.exists_carries hspot hlt
  have hnet := List.getElem?_eq_getElem hcarries.net
  have hend : WireEnd spot.schematic.wires position ⟨driver.id, port.id⟩ :=
    (hends _).mpr (.inr rfl)
  refine ⟨index, _, hnet, h.plain_of_supplies hspot hsupplies hport hplain.2 hcarries hend hnet,
    h.chart.width_of_end h.flat hspot hcarries hnet hend hport hwidth,
    Chart.sources_eq h.paired hnet fun ref => ?_, fun ref asSource hmem hinput => ?_⟩
  · rw [hcarries.hasSource_iff]
    constructor
    · rintro ⟨⟨endpoint, hend, hmem⟩, found, hfound, hout⟩
      rcases (hends endpoint).mp hend with rfl | rfl
      · rw [hattached] at hmem
        exact (Prod.mk.inj (List.mem_singleton.mp hmem)).1
      · obtain ⟨_, hfound', htype, -⟩ := h.chart.decl_of_attached hspot hmem hport
        obtain rfl := Option.some.inj (hfound.symm.trans hfound')
        rw [htype, hplain.1] at hout
        cases hout
    · rintro rfl
      have hmem : (⟨placed.part, 0⟩, true) ∈
          netlist.attachments spot.placements ⟨source.id, pin⟩ := by
        rw [hattached]
        exact List.mem_singleton_self _
      obtain ⟨found, hfound, htype, -⟩ := h.chart.decl_of_attached hspot hmem hdecl
      exact ⟨⟨_, (hends _).mpr (.inl rfl), hmem⟩, found, hfound, htype ▸ houtput⟩
  · exact hcarries.hasTarget_iff.mpr ⟨⟨_, asSource, hend, hmem⟩, hinput⟩

/-! ## Outlets -/

/-- A driver that is wrapped, and the spot inside it. -/
structure Around (library : Library) (netlist : Netlist) (spots : List Spot) (spot : Spot)
    (driver : Component) (placed : Placed) (child : Spot) (inner : Component) : Prop where
  located : Located library netlist spots spot driver placed
  inside : library.inside? driver = some (busDriver inner)
  wraps : ∃ depth, library.Wraps (depth + 1) driver
  named : inner.id = "buf"
  listed : child ∈ spots
  names : child.names = spot.names ++ [driver.id]
  drawn : child.schematic = busDriver inner

/-- A port of a wrapped driver stands for a boundary port inside. -/
theorem exists_crossing {child : Spot}
    (haround : Around library netlist spots spot driver placed child inner) (boundary : Component)
    (hboundary : boundary ∈ [dataPort, enablePort, outPort]) : ∃ placed' port,
      Crossing library netlist spots spot driver child boundary placed' ∧
        netlist.attachments spot.placements ⟨driver.id, boundary.id⟩ =
          [(⟨placed.part, port⟩, false), (⟨placed'.part, 1⟩, true)] := by
  have hspot := haround.located.listed
  have hmem : boundary ∈ child.schematic.components := by
    rw [haround.drawn]
    exact List.mem_append_left [inner] hboundary
  obtain ⟨hdefinition, hshown, hdeclared⟩ : boundary.definition = Boundary.definition ∧
      (Boundary.outerDecl boundary.args boundary.id).id = boundary.id ∧
        ∃ decl, busPorts.find? (·.id = boundary.id) = some decl := by
    simp only [List.mem_cons, List.not_mem_nil, or_false] at hboundary
    rcases hboundary with rfl | rfl | rfl <;> exact ⟨rfl, rfl, _, rfl⟩
  obtain ⟨placed', hlocated'⟩ := h.chart.host haround.listed hmem
  have hcrossing : Crossing library netlist spots spot driver child boundary placed' :=
    ⟨hspot, haround.located.drawn, haround.drawn ▸ haround.inside, haround.names, hlocated',
      hdefinition⟩
  obtain ⟨decl, hdecl⟩ := hdeclared
  obtain ⟨depth, hwraps⟩ := haround.wraps
  have hsome := h.chart.attachments_of_decl hspot (h.sensible hspot)
    ((h.driver_decl hspot haround.located.drawn hwraps boundary.id).trans hdecl)
  obtain ⟨port, heq⟩ := h.chart.attachments_crossing haround.located hcrossing (hshown.symm ▸ hsome)
  exact ⟨placed', port, hcrossing, hshown ▸ heq⟩

/-- A line is handed on into a wrapped driver. -/
theorem exists_inlet {child : Spot} {boundary : Component} {outer : Nat}
    (haround : Around library netlist spots spot driver placed child inner)
    (hboundary : boundary ∈ [dataPort, enablePort])
    (hsupplies : (busDriver inner).Supplies library inner port boundary "a")
    (hport : (busDriver inner).decl? library ⟨inner.id, port.id⟩ = some port)
    (hshown : boundary.id = port.id) (hplain : port.type.output = false ∧ port.type.tristate = false)
    (hwidth : port.width ≠ 0) (hline : netlist.Line outer port.width)
    (hleads : Leads netlist spot driver port.id outer) :
    ∃ index, netlist.Inlet boundary port.width outer index ∧
      Leads netlist child inner port.id index := by
  obtain ⟨placed', own, hcrossing, hattached⟩ := h.exists_crossing haround boundary
    (List.mem_append_left [outPort] hboundary)
  obtain ⟨hdefinition, hposition⟩ : boundary.definition = Builtin.boundary.id ∧
      (Builtin.boundary.assemble boundary.args).ports.findIdx? (·.id = "a") = some 0 := by
    simp only [List.mem_cons, List.not_mem_nil, or_false] at hboundary
    rcases hboundary with rfl | rfl <;> exact ⟨rfl, rfl⟩
  obtain ⟨part, hpart, hmade, -⟩ := hcrossing.located.madeOf_builtin h.furnished _ hdefinition
  have hinner := hcrossing.located.attachments_builtin h.furnished _ hdefinition _ _ hposition
  rw [← haround.drawn] at hsupplies hport
  obtain ⟨index, net, hnet, hclosed, hsame, hsources, htargets⟩ :=
    h.exists_line haround.listed hsupplies hport hplain hwidth hinner
  refine ⟨index, ⟨hline, ⟨net, hnet, hclosed, hsame⟩, placed'.part, part, net, hpart, hmade,
    hleads _ true ?_ ?_, hnet, hsources⟩, htargets⟩
  · rw [← hshown, hattached]
    simp
  · refine ⟨_, h.chart.decl_external hcrossing, ?_⟩
    simp only [List.mem_cons, List.not_mem_nil, or_false] at hboundary
    rcases hboundary with rfl | rfl <;> rfl

/-- The output of what is wrapped leads to the boundary port that lets it out. -/
theorem exists_inner_bus {child : Spot} (hchild : child ∈ spots)
    (hdrawn : child.schematic = busDriver inner) (hwraps : library.Wraps depth inner)
    (hlocated : Located library netlist spots child outPort placed)
    (houtput : netlist.Outputs ref)
    (hattached : (ref, true) ∈ netlist.attachments child.placements ⟨inner.id, "out"⟩)
    (honly : ∀ other, (other, true) ∈ netlist.attachments child.placements ⟨inner.id, "out"⟩ →
      other = ref) :
    ∃ bus net, netlist.nets[bus]? = some net ∧ net.tristate = true ∧ net.width = 8 ∧
      net.sources = [ref] ∧ netlist.HasTarget bus ⟨placed.part, 0⟩ := by
  have hwire : child.schematic.wires[2]? = some ⟨"wo", [⟨inner.id, "out"⟩, ⟨outPort.id, "a"⟩]⟩ := by
    rw [hdrawn]
    rfl
  have hends : ∀ endpoint, WireEnd child.schematic.wires 2 endpoint ↔
      endpoint = ⟨inner.id, "out"⟩ ∨ endpoint = ⟨outPort.id, "a"⟩ := fun endpoint => by
    rw [(h.disjoint hchild).wireEnd_iff hwire]
    simp
  obtain ⟨bus, hcarries⟩ := h.chart.exists_carries hchild (List.getElem?_eq_some_iff.mp hwire).1
  have hnet := List.getElem?_eq_getElem hcarries.net
  have hdecl := h.driver_decl hchild (by simp [hdrawn, busDriver]) hwraps "out"
  have hfirst : WireEnd child.schematic.wires 2 ⟨inner.id, "out"⟩ := (hends _).mpr (.inl rfl)
  obtain ⟨part, hpart, hmade, -⟩ := hlocated.madeOf_builtin h.furnished .boundary rfl
  have hnear := Netlist.decl?_of_madeOf hpart hmade 0
  have hout := hlocated.attachments_builtin h.furnished .boundary rfl "a" 0 rfl
  refine ⟨bus, _, hnet, h.chart.tristate_of_end h.flat hchild hcarries hnet hfirst hdecl rfl,
    h.chart.width_of_end h.flat hchild hcarries hnet hfirst hdecl (by decide),
    Chart.sources_eq h.paired hnet fun other => ?_, ?_⟩
  · rw [hcarries.hasSource_iff]
    constructor
    · rintro ⟨⟨endpoint, hend, hmem⟩, found, hfound, houts⟩
      rcases (hends endpoint).mp hend with rfl | rfl
      · exact honly other hmem
      · rw [hout] at hmem
        obtain ⟨rfl, -⟩ := Prod.mk.inj (List.mem_singleton.mp hmem)
        obtain rfl := Option.some.inj (hfound.symm.trans hnear)
        cases houts
    · rintro rfl
      exact ⟨⟨_, hfirst, hattached⟩, houtput⟩
  · refine hcarries.hasTarget_of_reached ⟨_, (hends _).mpr (.inr rfl), ?_⟩ ⟨_, hnear, rfl⟩
    rw [hout]
    exact List.mem_singleton_self _

/-- A driver has an outlet, and lets nothing else drive. -/
theorem exists_outlet (hwraps : library.Wraps depth driver) (hspot : spot ∈ spots)
    (hmem : driver ∈ spot.schematic.components) (hdata : netlist.Line data 8)
    (henable : netlist.Line enable 1) (hin : Leads netlist spot driver "in" data)
    (hen : Leads netlist spot driver "en" enable) :
    ∃ ref, netlist.Outlet data enable ref ∧ netlist.Outputs ref ∧
      (ref, true) ∈ netlist.attachments spot.placements ⟨driver.id, "out"⟩ ∧
      ∀ other, (other, true) ∈ netlist.attachments spot.placements ⟨driver.id, "out"⟩ →
        other = ref := by
  induction hwraps generalizing spot data enable with
  | @buffer driver hdefinition hwidth =>
    obtain ⟨placed, hlocated⟩ := h.chart.host hspot hmem
    obtain ⟨part, hpart, hmade, -⟩ := hlocated.madeOf_builtin h.furnished _ hdefinition
    have hout := hlocated.attachments_builtin h.furnished _ hdefinition "out" 2 rfl
    refine ⟨⟨placed.part, 2⟩, .buffer hpart hmade ?_ ?_, ?_, by simp [hout], by simp [hout]⟩
    · refine hin _ true ?_ ⟨_, Netlist.decl?_of_madeOf hpart hmade 1, rfl⟩
      rw [hlocated.attachments_builtin h.furnished _ hdefinition "in" 1 rfl]
      exact List.mem_singleton_self _
    · refine hen _ true ?_ ⟨_, Netlist.decl?_of_madeOf hpart hmade 0, rfl⟩
      rw [hlocated.attachments_builtin h.furnished _ hdefinition "en" 0 rfl]
      exact List.mem_singleton_self _
    · exact ⟨_, Netlist.decl?_of_madeOf hpart hmade 2, rfl⟩
  | @wrap depth driver inner hinner hid hinside ih =>
    obtain ⟨placed, hlocated⟩ := h.chart.host hspot hmem
    obtain ⟨child, hchild, hnames, hdrawn, -⟩ := hlocated.hosts.expanded _ hinside
    have haround : Around library netlist spots spot driver placed child inner :=
      ⟨hlocated, hinside, ⟨depth, .wrap hinner hid hinside⟩, hid, hchild, hnames, hdrawn⟩
    have hcore : inner ∈ child.schematic.components := by simp [hdrawn, busDriver]
    have hdecl := fun id => hdrawn ▸ h.driver_decl hchild hcore hinner id
    obtain ⟨hdataPort, henablePort⟩ := supplies_busDriver h.furnished hid
    obtain ⟨data', hinlet, hin'⟩ := h.exists_inlet haround (by simp) hdataPort (hdecl "in") rfl
      ⟨rfl, rfl⟩ (by decide) hdata hin
    obtain ⟨enable', hgate, hen'⟩ := h.exists_inlet haround (by simp) henablePort (hdecl "en") rfl
      ⟨rfl, rfl⟩ (by decide) henable hen
    obtain ⟨ref, houtlet, houtput, hattached, honly⟩ :=
      ih hchild hcore hinlet.inside hgate.inside hin' hen'
    obtain ⟨placed', own, hcrossing, hout⟩ := h.exists_crossing haround outPort (by simp)
    obtain ⟨bus, net, hnet, htristate, hwidth, hsources, htarget⟩ :=
      h.exists_inner_bus hchild hdrawn hinner hcrossing.located houtput hattached honly
    obtain ⟨part, hpart, hmade, -⟩ := hcrossing.located.madeOf_builtin h.furnished .boundary rfl
    change netlist.attachments spot.placements ⟨driver.id, "out"⟩ = _ at hout
    exact ⟨⟨placed'.part, 1⟩, .wrapped houtlet hinlet hgate hpart hmade hnet htristate hwidth hsources
      htarget, ⟨_, h.chart.decl_external hcrossing, rfl⟩, by simp [hout], by simp [hout]⟩

end LaidBus

end Breadboard
