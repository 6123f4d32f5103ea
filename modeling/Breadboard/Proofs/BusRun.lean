import Breadboard.Proofs.BusRank
import Breadboard.Proofs.Directory
import Breadboard.Proofs.Housed
import Breadboard.Proofs.Redrawn
import Breadboard.Proofs.Synchronous

/-!
# A shared bus in operation

The bus at the top of the circuit joins the outlets of all drivers, and lines lead to
them from the inputs (`LaidBus.exists_onBus`). An input holds what it was set to last
(`Component.held`), through all settles (`Fed`), and shows it on its line. So in a settled
circuit just the drivers drive whose enable inputs are not zero (`OnBus.driven`), and
`wrapped_drivers_share_bus` says what this makes of the bus and the probe, whatever was
set before and however deep the buffers are wrapped.
-/

namespace Breadboard

variable {library : Library} {lanes : List (Lane library)} {netlist : Netlist} {spots : List Spot}
  {spot root : Spot} {component input : Component} {part bus probe index : Nat} {ref : PortRef}
  {endpoint endpoint' : Endpoint} {net : Net} {lane : Lane library}

/-! ## The bus and what is on it -/

/-- The line shows the input, and nothing else drives it. -/
structure Netlist.Supply (netlist : Netlist) (input : Component) (part index : Nat) : Prop where
  found : netlist.partAt? ⟨input.id⟩ = some part
  made : ∃ placed, netlist.parts[part]? = some placed ∧
    placed.MadeOf (Builtin.input.assemble input.args)
  line : ∃ net, netlist.nets[index]? = some net ∧ net.tristate = false ∧
    net.width = input.args.width "width" 1 ∧ net.sources = [⟨part, 0⟩]

theorem Netlist.Supply.houses (h : netlist.Supply input part index) :
    netlist.Houses input .input part :=
  ⟨h.found, h.made⟩

/-- The bus joins the outlets of all drivers, and the probe listens. -/
structure OnBus (lanes : List (Lane library)) (netlist : Netlist) (bus probe : Nat) (net : Net)
    (outlet : Lane library → PortRef) : Prop where
  found : netlist.netAt? ⟨"bus"⟩ = some bus
  listed : netlist.nets[bus]? = some net
  tristate : net.tristate = true
  width : net.width = 8
  sources : net.sources.Perm (lanes.map outlet)
  listener : netlist.partAt? ⟨busProbe.id⟩ = some probe
  made : ∃ placed, netlist.parts[probe]? = some placed ∧
    placed.MadeOf (Builtin.probe.assemble busProbe.args)
  target : ⟨probe, 0⟩ ∈ net.targets
  lane : ∀ lane ∈ lanes, ∃ input data gate enable, netlist.Supply lane.data input data ∧
    netlist.Supply lane.enable gate enable ∧ netlist.Outlet data enable (outlet lane)

namespace LaidBus

variable (h : LaidBus lanes netlist spots)

include h

theorem exists_root : ∃ root ∈ spots, root.toSite = ⟨[], busCircuit lanes⟩ := by
  have htop : ⟨[], busCircuit lanes⟩ ∈ (busCircuit lanes).sites library := by
    rw [Schematic.sites, sites]
    exact List.mem_cons_self ..
  rw [← h.chart.sites] at htop
  exact List.mem_map.mp htop

/-- A component of the circuit itself is found by its id. -/
theorem partAt?_top (hroot : root.toSite = ⟨[], busCircuit lanes⟩) {placed : Placed}
    (hlocated : Located library netlist spots root component placed) :
    netlist.partAt? ⟨component.id⟩ = some placed.part := by
  rw [← h.chart.partAt?_eq hlocated, Site.path, congrArg Site.names hroot]
  rfl

/-- A line from an input of the circuit to a port of a driver. -/
theorem exists_supply (hspot : root ∈ spots) (hroot : root.toSite = ⟨[], busCircuit lanes⟩)
    {driver : Component} {port : PortDecl} {depth : Nat}
    (hinput : component.definition = Builtin.input.id)
    (hwidth : component.args.width "width" 1 = port.width) (hpositive : port.width ≠ 0)
    (hdriver : driver ∈ (busCircuit lanes).components) (hwraps : library.Wraps depth driver)
    (hport : busPorts.find? (·.id = port.id) = some port)
    (hplain : port.type.output = false ∧ port.type.tristate = false)
    (hsupplies : (busCircuit lanes).Supplies library driver port component "out") :
    ∃ part index, netlist.Supply component part index ∧ netlist.Line index port.width ∧
      Leads netlist root driver port.id index := by
  have hdrawn : root.schematic = busCircuit lanes := congrArg Site.schematic hroot
  rw [← hdrawn] at hdriver hsupplies
  obtain ⟨placed, hlocated⟩ := h.chart.host hspot hsupplies.drawn
  obtain ⟨part, hpart, hmade, -⟩ := hlocated.madeOf_builtin h.furnished .input hinput
  have hdecl := (h.driver_decl hspot hdriver hwraps port.id).trans hport
  obtain ⟨index, net, hnet, hclosed, hsame, hsources, hleads⟩ := h.exists_line hspot hsupplies hdecl
    hplain hpositive (hlocated.attachments_builtin h.furnished .input hinput "out" 0 rfl)
  exact ⟨placed.part, index, ⟨h.partAt?_top hroot hlocated, ⟨part, hpart, hmade⟩,
    net, hnet, hclosed, hsame.trans hwidth.symm, hsources⟩, ⟨net, hnet, hclosed, hsame⟩, hleads⟩

/-- A lane has its supplies and its outlet. -/
theorem exists_lane (hspot : root ∈ spots) (hroot : root.toSite = ⟨[], busCircuit lanes⟩)
    (hlane : lane ∈ lanes) : ∃ ref, (∃ input data gate enable, netlist.Supply lane.data input data ∧
        netlist.Supply lane.enable gate enable ∧ netlist.Outlet data enable ref) ∧
      netlist.Outputs ref ∧ (ref, true) ∈ netlist.attachments root.placements lane.outlet ∧
      ∀ other, (other, true) ∈ netlist.attachments root.placements lane.outlet → other = ref := by
  have hdriver := Lane.driver_mem hlane
  obtain ⟨hdata, henable⟩ := supplies_busCircuit h.furnished h.laned hlane
  obtain ⟨input, data, hsupply, hline, hin⟩ := h.exists_supply hspot hroot lane.data_input
    lane.data_width (by decide) hdriver lane.wraps rfl ⟨rfl, rfl⟩ hdata
  obtain ⟨gate, enable, hgate, hnarrow, hen⟩ := h.exists_supply hspot hroot lane.enable_input
    lane.enable_width (by decide) hdriver lane.wraps rfl ⟨rfl, rfl⟩ henable
  have hdrawn : root.schematic = busCircuit lanes := congrArg Site.schematic hroot
  obtain ⟨ref, houtlet, hrest⟩ := h.exists_outlet lane.wraps hspot (hdrawn ▸ hdriver) hline hnarrow
    hin hen
  exact ⟨ref, ⟨input, data, gate, enable, hsupply, hgate, houtlet⟩, hrest⟩

omit h in
/-- A text without separators is a path at the top. -/
theorem names_of_path {id text : String} (hfree : Path.separator ∉ text.toList)
    (hpath : ⟨text⟩ = spot.path id) : spot.names = [] ∧ id = text := by
  have htext := congrArg (fun path : Path => path.text.toList) hpath
  simp only [Site.path, Path.toList_within] at htext
  cases haround : Path.ofNames spot.names with
  | some path =>
    rw [haround] at htext
    exact absurd (htext ▸ List.mem_append_right _ (List.mem_cons_self ..)) hfree
  | none =>
    rw [haround] at htext
    refine ⟨?_, (String.ext htext).symm⟩
    rcases List.eq_nil_or_concat spot.names with hnil | ⟨names, name, hnames⟩
    · exact hnil
    · rw [hnames, List.concat_eq_append, Path.ofNames_snoc] at haround
      cases haround

omit h in
theorem getElem?_bus (hroot : root.toSite = ⟨[], busCircuit lanes⟩) :
    root.schematic.wires[(lanes.flatMap Lane.wires).length]? =
      some ⟨"bus", lanes.map Lane.outlet ++ [⟨busProbe.id, "in"⟩]⟩ := by
  rw [congrArg Site.schematic hroot]
  exact List.getElem?_concat_length

/-- The net of the bus is found by the name of the bus. -/
theorem netAt?_bus (hspot : root ∈ spots) (hroot : root.toSite = ⟨[], busCircuit lanes⟩)
    (hcarries : Carries netlist root (lanes.flatMap Lane.wires).length bus) :
    netlist.netAt? ⟨"bus"⟩ = some bus := by
  have hwire := getElem?_bus hroot
  have hnames : root.names = [] := congrArg Site.names hroot
  have hpath : (⟨"bus"⟩ : Path) = root.path "bus" := by
    rw [Site.path, hnames]
    rfl
  obtain ⟨found, hfound⟩ := exists_latest? (h.chart.mem_netEntries_iff.mpr
    ⟨root, hspot, _, _, hwire, hpath, hcarries⟩)
  obtain ⟨spot, hspot', position, wire, hwire', hpath', hcarries'⟩ :=
    h.chart.mem_netEntries_iff.mp (mem_of_latest? hfound)
  obtain ⟨htop, hid⟩ := names_of_path (by decide) hpath'
  obtain rfl := h.chart.eq_of_names hspot' hspot (htop.trans hnames.symm)
  have hend : WireEnd spot.schematic.wires (lanes.flatMap Lane.wires).length ⟨busProbe.id, "in"⟩ :=
    .self hwire (List.mem_append_right _ (List.mem_singleton_self _))
  have hend' : WireEnd spot.schematic.wires position ⟨busProbe.id, "in"⟩ := by
    refine .self hwire' ?_
    have hmem := List.mem_of_getElem? hwire'
    rw [congrArg Site.schematic hroot] at hmem
    rcases List.mem_append.mp hmem with hmem | hmem
    · exact absurd hid (h.laned.unnamed wire hmem)
    · rw [List.mem_singleton.mp hmem]
      exact List.mem_append_right _ (List.mem_singleton_self _)
  obtain rfl := h.chart.eq_of_end h.single hspot hcarries hcarries' hend hend'
  exact hfound

/-- The ends of the bus. -/
theorem busEnd_iff (hspot : root ∈ spots)
    (hroot : root.toSite = ⟨[], busCircuit lanes⟩) :
    WireEnd root.schematic.wires (lanes.flatMap Lane.wires).length endpoint ↔
      (∃ lane ∈ lanes, lane.outlet = endpoint) ∨ endpoint = ⟨busProbe.id, "in"⟩ := by
  rw [(h.disjoint hspot).wireEnd_iff (getElem?_bus hroot), List.mem_append, List.mem_map,
    List.mem_singleton]

/-- The bus is driven by the outlets of all drivers. -/
theorem sources_perm (hspot : root ∈ spots) (hroot : root.toSite = ⟨[], busCircuit lanes⟩)
    (hcarries : Carries netlist root (lanes.flatMap Lane.wires).length bus)
    (hnet : netlist.nets[bus]? = some net) {outlet : Lane library → PortRef}
    (houtput : ∀ lane ∈ lanes, netlist.Outputs (outlet lane))
    (hattached : ∀ lane ∈ lanes,
      (outlet lane, true) ∈ netlist.attachments root.placements lane.outlet)
    (honly : ∀ lane ∈ lanes, ∀ other,
      (other, true) ∈ netlist.attachments root.placements lane.outlet → other = outlet lane)
    (hprobe : ∀ ref, (ref, true) ∈ netlist.attachments root.placements ⟨busProbe.id, "in"⟩ →
      ¬ netlist.Outputs ref) : net.sources.Perm (lanes.map outlet) := by
  have hinjective : (lanes.map outlet).Nodup := by
    refine (List.nodup_map_iff_inj_on h.laned.nodup_drivers.of_map).mpr ?_
    intro lane hlane other hother heq
    refine List.inj_on_of_nodup_map h.laned.nodup_drivers hlane hother ?_
    exact h.chart.component_eq_of_attached hspot (hattached lane hlane)
      (heq ▸ hattached other hother)
  refine (List.perm_ext_iff_of_nodup (Chart.nodup_sources h.paired hnet) hinjective).mpr
    fun ref => ?_
  have hself : ref ∈ net.sources ↔ netlist.HasSource bus ref := by
    simp only [Netlist.HasSource, hnet, Option.some.injEq, exists_eq_left']
  rw [hself, hcarries.hasSource_iff, List.mem_map]
  constructor
  · rintro ⟨⟨endpoint, hend, hmem⟩, hout⟩
    rcases (h.busEnd_iff hspot hroot).mp hend with ⟨lane, hlane, rfl⟩ | rfl
    · exact ⟨lane, hlane, (honly lane hlane ref hmem).symm⟩
    · exact absurd hout (hprobe ref hmem)
  · rintro ⟨lane, hlane, rfl⟩
    exact ⟨⟨lane.outlet, (h.busEnd_iff hspot hroot).mpr (.inl ⟨lane, hlane, rfl⟩),
      hattached lane hlane⟩, houtput lane hlane⟩

theorem exists_onBus : ∃ bus probe net outlet, OnBus lanes netlist bus probe net outlet := by
  obtain ⟨root, hspot, hroot⟩ := h.exists_root
  have hdrawn : root.schematic = busCircuit lanes := congrArg Site.schematic hroot
  choose! outlet hlane houtput hattached honly using
    fun lane (hlane : lane ∈ lanes) => h.exists_lane hspot hroot hlane
  obtain ⟨placed, hlocated⟩ := h.chart.host hspot (hdrawn ▸ busProbe_mem_components lanes)
  obtain ⟨part, hpart, hmade, -⟩ := hlocated.madeOf_builtin h.furnished .probe rfl
  have hprobe := hlocated.attachments_builtin h.furnished .probe rfl "in" 0 rfl
  have hnear := Netlist.decl?_of_madeOf hpart hmade 0
  obtain ⟨bus, hcarries⟩ := h.chart.exists_carries hspot
    (List.getElem?_eq_some_iff.mp (getElem?_bus hroot)).1
  obtain ⟨net, hnet⟩ : ∃ net, netlist.nets[bus]? = some net :=
    ⟨_, List.getElem?_eq_getElem hcarries.net⟩
  -- one driver is enough to tell what the bus is like
  obtain ⟨lane, hmem⟩ := List.exists_mem_of_ne_nil lanes h.laned.inhabited
  have hdecl := h.driver_decl hspot (hdrawn ▸ Lane.driver_mem hmem) lane.wraps "out"
  have hend := (h.busEnd_iff hspot hroot).mpr (.inl ⟨lane, hmem, rfl⟩)
  have hlast := (h.busEnd_iff hspot hroot).mpr (.inr rfl)
  obtain ⟨_, hlisting, htarget⟩ := hcarries.hasTarget_of_reached
    ⟨_, hlast, hprobe ▸ List.mem_singleton_self _⟩ ⟨_, hnear, rfl⟩
  obtain rfl := Option.some.inj (hnet.symm.trans hlisting)
  refine ⟨bus, placed.part, net, outlet, h.netAt?_bus hspot hroot hcarries, hnet,
    h.chart.tristate_of_end h.flat hspot hcarries hnet hend hdecl rfl,
    h.chart.width_of_end h.flat hspot hcarries hnet hend hdecl (by decide),
    h.sources_perm hspot hroot hcarries hnet houtput hattached honly ?_,
    h.partAt?_top hroot hlocated, ⟨part, hpart, hmade⟩, htarget, hlane⟩
  rintro ref hmem ⟨decl, hdecl, hout⟩
  rw [hprobe] at hmem
  obtain ⟨rfl, -⟩ := Prod.mk.inj (List.mem_singleton.mp hmem)
  obtain rfl := Option.some.inj (hdecl.symm.trans hnear)
  cases hout

end LaidBus

/-! ## What inputs hold -/

/-- What an input holds once words have been set: the last one for it, or the one it
starts with, cut to its width. -/
def Component.held (input : Component) (sets : List (String × Word)) : Word :=
  sets.foldl
    (fun held (path, word) =>
      if path = input.id then trim (input.args.width "width" 1) word else held)
    (trim (input.args.width "width" 1) (input.args.word "value" 0))

theorem Component.held_concat (input : Component) (sets : List (String × Word)) (path : String)
    (word : Word) : input.held (sets ++ [(path, word)]) =
      if path = input.id then trim (input.args.width "width" 1) word else input.held sets := by
  rw [held, List.foldl_append]
  rfl

theorem Component.trim_held (input : Component) (sets : List (String × Word)) :
    trim (input.args.width "width" 1) (input.held sets) = input.held sets := by
  induction sets using List.reverseRecOn with
  | nil => exact trim_trim _ _
  | append_singleton sets set ih =>
    rw [held_concat]
    split
    · exact trim_trim _ _
    · exact ih

namespace Simulation

variable {simulation : Simulation} {sets : List (String × Word)} {placed : Part} {word : Word}

/-- Set inputs one after the other, and settle each time. -/
def feed (simulation : Simulation) (sets : List (String × Word)) : Simulation :=
  sets.foldl (fun simulation (path, word) => (simulation.obey (.set path word)).settle) simulation

theorem feed_concat (simulation : Simulation) (sets : List (String × Word)) (path : String)
    (word : Word) : simulation.feed (sets ++ [(path, word)]) =
      ((simulation.feed sets).obey (.set path word)).settle := by
  rw [feed, List.foldl_append]
  rfl

theorem Coherent.memory_settle (h : simulation.Coherent)
    (hpart : simulation.netlist.parts[part]? = some placed) (hstores : placed.device.stores = true) :
    (simulation.settle.state.part part).memory = (simulation.state.part part).memory :=
  (h.tracked_settle.agrees.memory part).trans
    (Netlist.memory_stored h.flat.wired h.sound hpart hstores)

theorem Reachable.obey_set (h : simulation.Reachable) (path : String) (word : Word) :
    (simulation.obey (.set path word)).Reachable := by
  rw [obey]
  cases hnext : simulation.setInput path word with
  | error _ => exact h
  | ok next => exact h.setInput hnext

theorem Coherent.obey_set (h : simulation.Coherent) (path : String) (word : Word) :
    simulation.obey (.set path word) =
      match simulation.netlist.partAt? ⟨path⟩ with
      | none => simulation
      | some index =>
        match (simulation.netlist.parts.getD index default).device with
        | .input width _ => simulation.setMemory index (.input (trim width word))
        | _ => simulation :=
  h.setInput_eq path word

theorem Coherent.netlist_set (h : simulation.Coherent) (path : String) (word : Word) :
    (simulation.obey (.set path word)).netlist = simulation.netlist := by
  rw [h.obey_set]
  split
  · rfl
  · split <;> rfl

/-- Setting an input moves no net. -/
theorem Coherent.peek_set (h : simulation.Coherent) (path : String) (word : Word) (net : String) :
    (simulation.obey (.set path word)).peek net = simulation.peek net := by
  have hnets : (simulation.obey (.set path word)).state.nets = simulation.state.nets := by
    rw [h.obey_set]
    split
    · rfl
    · split <;> rfl
  simp only [peek, netAt, h.netlist_set, State.net, hnets]

/-- Setting an input changes what it holds, and nothing that other inputs hold. -/
theorem Coherent.memory_set (h : simulation.Coherent)
    (hinput : simulation.netlist.Houses input .input part) (path : String) (word : Word) :
    ((simulation.obey (.set path word)).state.part part).memory =
      if path = input.id then .input (trim (input.args.width "width" 1) word)
      else (simulation.state.part part).memory := by
  obtain ⟨placed, hpart, hmade⟩ := hinput.made
  rw [h.obey_set]
  by_cases hpath : path = input.id
  · subst hpath
    rw [hinput.found, if_pos rfl]
    simp only [device_getD hpart, hmade.device, Builtin.assemble]
    exact (memory_setMemory h hpart _ part).trans (if_pos rfl)
  · rw [if_neg hpath]
    cases hother : simulation.netlist.partAt? ⟨path⟩ with
    | none => rfl
    | some other =>
      have hne : part ≠ other := by
        rintro rfl
        have hself := (Netlist.partPath_of_partAt? hinput.found).2
        exact hpath (Path.mk.inj ((Netlist.partPath_of_partAt? hother).2.symm.trans hself))
      obtain ⟨owner, howner⟩ : ∃ owner, simulation.netlist.parts[other]? = some owner :=
        ⟨_, List.getElem?_eq_getElem (Netlist.partPath_of_partAt? hother).1⟩
      dsimp only
      split
      · exact (memory_setMemory h howner _ part).trans (if_neg hne)
      · rfl

/-- The simulation of a circuit in which all inputs hold what was set. -/
structure Fed (netlist : Netlist) (sets : List (String × Word)) (simulation : Simulation) : Prop where
  reachable : simulation.Reachable
  same : simulation.netlist = netlist
  held : ∀ {input : Component} {part index : Nat}, netlist.Supply input part index →
    (simulation.state.part part).memory = .input (input.held sets)

theorem fed_ofNetlist (hflat : netlist.Flat) (hreach : (ofNetlist netlist).Reachable) :
    Fed netlist [] (ofNetlist netlist) := by
  obtain ⟨hsound, hloose⟩ := State.sound_fresh netlist
  have hfresh : ({ netlist, schedule := compile netlist, state := .fresh netlist } :
      Simulation).Coherent := ⟨hflat, rfl, hsound, hloose⟩
  refine ⟨hreach, netlist_settle _, fun {input part index} hsupply => ?_⟩
  obtain ⟨placed, hpart, hmade⟩ := hsupply.made
  refine (hfresh.memory_settle hpart (by rw [hmade.device]; rfl)).trans ?_
  simp [State.fresh, State.part, List.getD_eq_getElem?_getD, hpart, hmade.device, Builtin.assemble,
    Device.fresh, Component.held]

namespace Fed

variable (h : Fed netlist sets simulation)

include h

theorem set (path : String) (word : Word) :
    Fed netlist (sets ++ [(path, word)]) (simulation.obey (.set path word)) := by
  obtain ⟨hreach, rfl, hheld⟩ := h
  have hcoherent := hreach.coherent
  refine ⟨hreach.obey_set path word, hcoherent.netlist_set path word,
    fun {input part index} hsupply => ?_⟩
  rw [hcoherent.memory_set hsupply.houses, Component.held_concat, hheld hsupply]
  exact (apply_ite Memory.input _ _ _).symm

theorem settle : Fed netlist sets simulation.settle := by
  obtain ⟨hreach, rfl, hheld⟩ := h
  refine ⟨hreach.settle, netlist_settle _, fun {input part index} hsupply => ?_⟩
  obtain ⟨placed, hpart, hmade⟩ := hsupply.made
  rw [hreach.coherent.memory_settle hpart (by rw [hmade.device]; rfl)]
  exact hheld hsupply

theorem feed (more : List (String × Word)) : Fed netlist (sets ++ more) (simulation.feed more) := by
  induction more using List.reverseRecOn with
  | nil => rwa [List.append_nil]
  | append_singleton more last ih =>
    rw [feed_concat, ← List.append_assoc]
    exact (ih.set last.1 last.2).settle

end Fed

end Simulation

/-! ## What the bus shows -/

section

variable {before after : State} {sets : List (String × Word)} {outlet : Lane library → PortRef}

/-- A line that an input drives alone shows what the input holds. -/
theorem Netlist.Supply.shows (h : netlist.Supply input part index)
    (hsettled : netlist.Settled before after) (hwired : netlist.Wired)
    (hsound : State.Sound netlist after) {word : Word}
    (hheld : (after.part part).memory = .input word) :
    (after.net index).value = trim (input.args.width "width" 1) word := by
  obtain ⟨net, hnet, hplain, hwidth, hsources⟩ := h.line
  have hshown := h.houses.input_shows hsettled hwired hsound hheld
  rw [h.houses.wordAt_port "out" 0 rfl] at hshown
  rw [(hsettled.plain hnet hplain).1 _ hsources, hshown, hwidth]

theorem Netlist.Supply.value (h : netlist.Supply input part index)
    (hsettled : netlist.Settled before after) (hwired : netlist.Wired)
    (hsound : State.Sound netlist after)
    (hheld : (after.part part).memory = .input (input.held sets)) :
    (after.net index).value = input.held sets :=
  (h.shows hsettled hwired hsound hheld).trans (input.trim_held sets)

namespace OnBus

variable (h : OnBus lanes netlist bus probe net outlet) (hsettled : netlist.Settled before after)
  (hwired : netlist.Wired) (hsound : State.Sound netlist after)
  (hheld : ∀ {input : Component} {part index : Nat}, netlist.Supply input part index →
    (after.part part).memory = .input (input.held sets))

include h hsettled hwired hsound hheld

/-- A driver drives just while its enable input is not zero, and then shows its data
input. -/
theorem driven (hlane : lane ∈ lanes) :
    Net.isDriving netlist after (outlet lane) = decide (lane.enable.held sets ≠ 0) ∧
      (lane.enable.held sets ≠ 0 → (after.pin (outlet lane)).value = lane.data.held sets) := by
  obtain ⟨input, data, gate, enable, hsupply, hgate, houtlet⟩ := h.lane lane hlane
  obtain ⟨wide, hwide, hopen, hwidth, -⟩ := hsupply.line
  obtain ⟨narrow, hnarrow, hclosed, hone, -⟩ := hgate.line
  have hdriven := houtlet.driven hsettled hwired hsound
    ⟨wide, hwide, hopen, hwidth.trans lane.data_width⟩
    ⟨narrow, hnarrow, hclosed, hone.trans lane.enable_width⟩
  rw [← hsupply.value hsettled hwired hsound (hheld hsupply),
    ← hgate.value hsettled hwired hsound (hheld hgate)]
  exact ⟨hdriven.driving, hdriven.value⟩

/-- What drives the bus are the outlets of the enabled drivers. -/
theorem driving_perm : (net.driving netlist after).Perm
    ((lanes.filter fun lane => lane.enable.held sets ≠ 0).map outlet) := by
  refine (h.sources.filter _).trans (.of_eq ?_)
  rw [List.filter_map]
  refine congrArg (List.map outlet) (List.filter_congr fun lane hlane => ?_)
  exact (h.driven hsettled hwired hsound hheld hlane).1

theorem count : (after.net bus).enabledCount =
    (lanes.filter fun lane => lane.enable.held sets ≠ 0).length := by
  rw [hsettled.count h.listed h.tristate,
    (h.driving_perm hsettled hwired hsound hheld).length_eq, List.length_map]

/-- A single enabled driver puts its data on the bus. -/
theorem shown (hone : (lanes.filter fun lane => lane.enable.held sets ≠ 0) = [lane]) :
    (after.net bus).value = lane.data.held sets ∧
      (after.pin ⟨probe, 0⟩).value = lane.data.held sets ∧
      (after.pin ⟨probe, 0⟩).resolved = true := by
  have hmem : lane ∈ lanes.filter fun lane => lane.enable.held sets ≠ 0 := by
    rw [hone]
    exact List.mem_singleton_self _
  obtain ⟨hlane, henabled⟩ := List.mem_filter.mp hmem
  have hdriving := h.driving_perm hsettled hwired hsound hheld
  rw [hone, List.map_singleton, List.perm_singleton] at hdriving
  obtain ⟨hvalue, htargets⟩ := hsettled.driven h.listed h.tristate hdriving
  obtain ⟨hprobe, hresolved⟩ := htargets _ h.target
  have hdata : trim net.width (after.pin (outlet lane)).value = lane.data.held sets := by
    rw [(h.driven hsettled hwired hsound hheld hlane).2 (of_decide_eq_true henabled), h.width,
      ← lane.data_width, lane.data.trim_held]
  exact ⟨hvalue.trans hdata, hprobe.trans hdata, hresolved⟩

/-- Without a single one the bus keeps its value. -/
theorem kept (hnone : (lanes.filter fun lane => lane.enable.held sets ≠ 0).length ≠ 1) :
    (after.net bus).value = (before.net bus).value ∧
      (after.pin ⟨probe, 0⟩).resolved = false := by
  have hlength := (h.driving_perm hsettled hwired hsound hheld).length_eq
  rw [List.length_map] at hlength
  obtain ⟨hvalue, htargets⟩ := hsettled.undriven h.listed h.tristate (hlength ▸ hnone)
  exact ⟨hvalue, htargets _ h.target⟩

end OnBus

end

namespace Simulation

variable {simulation : Simulation} {placed : Part} {path : String}

/-- After a settle a probe holds what its pin shows. -/
theorem Coherent.probeValue_settle (h : simulation.Coherent) (hstatic : simulation.netlist.Static)
    (hfound : simulation.netlist.partAt? ⟨path⟩ = some part)
    (hpart : simulation.netlist.parts[part]? = some placed) (hdevice : placed.device = .probe) :
    simulation.settle.probeValue path = .ok ((simulation.settle.state.pin ⟨part, 0⟩).value,
      (simulation.settle.state.pin ⟨part, 0⟩).resolved) := by
  have hmatches := h.tracked_settle.agrees
  have hmemory := (hmatches.memory part).trans
    (Netlist.memory_last h.flat.wired hstatic h.sound hpart)
  rw [State.effect_eq hpart, hdevice] at hmemory
  rw [hmatches.value ⟨part, 0⟩, hmatches.resolved ⟨part, 0⟩]
  simp only [probeValue, partOf, partAt, netlist_settle, hfound, bind, Except.bind, hmemory,
    Device.effect, Effect.memory_idle, pure, Except.pure]
  rfl

end Simulation

/-- No part of the circuit is an adder. -/
theorem LaidBus.fault_eq_none (h : LaidBus lanes netlist spots) : netlist.fault? = none := by
  rw [Netlist.fault?_eq_none_iff]
  intro part hmem
  obtain ⟨index, hpart⟩ := List.getElem?_of_mem hmem
  obtain ⟨spot, component, placed, hlocated, rfl⟩ :=
    h.chart.locate (List.getElem?_eq_some_iff.mp hpart).1
  cases h.role hlocated.listed hlocated.drawn with
  | input hdefinition => rw [(h.madeOf_part hlocated hpart .input hdefinition).device]; rfl
  | probe hdefinition => rw [(h.madeOf_part hlocated hpart .probe hdefinition).device]; rfl
  | buffer hdefinition => rw [(h.madeOf_part hlocated hpart .buffer hdefinition).device]; rfl
  | inbound hport =>
    rw [(h.madeOf_part hlocated hpart .boundary (inbound_assembly hport).1).device]; rfl
  | outbound heq => rw [(h.madeOf_part hlocated hpart .boundary (heq ▸ rfl)).device]; rfl
  | expanded hinside => rw [(h.madeOf_expanded hlocated hinside hpart).device]; rfl

/-- Drivers of a bus behave like their buffers, however deep these are wrapped: whatever
the inputs are set to, after each settle the bus counts the drivers whose enable input is
not zero; it shows the data input of a single one, and otherwise keeps its value. -/
theorem Simulation.wrapped_drivers_share_bus (hlibrary : library.Furnished) (h : Laned lanes) :
    ∃ first bus, start library (busCircuit lanes) = .ok first ∧
      ∀ (sets : List (String × Word)) (path : String) (word : Word),
        let before := first.feed sets
        let ready := before.obey (.set path word)
        let after := ready.settle
        let enabled := lanes.filter fun lane => lane.enable.held (sets ++ [(path, word)]) ≠ 0
        after.netAt "bus" = .ok bus ∧ (after.state.net bus).enabledCount = enabled.length ∧
          (∀ lane, enabled = [lane] →
            after.peek "bus" = .ok (lane.data.held (sets ++ [(path, word)])) ∧
              after.probeValue "probe" = .ok (lane.data.held (sets ++ [(path, word)]), true)) ∧
          (enabled.length ≠ 1 → after.peek "bus" = ready.peek "bus" ∧
            ready.peek "bus" = before.peek "bus" ∧
            ∃ value, after.probeValue "probe" = .ok (value, false)) := by
  obtain ⟨spots, hlaid⟩ := exists_laidBus hlibrary h
  obtain ⟨bus, probe, net, outlet, hbus⟩ := hlaid.exists_onBus
  have hstart := start_eq hlaid.fault_eq_none
  refine ⟨_, bus, hstart, fun sets path word => ?_⟩
  have hbefore := (fed_ofNetlist hlaid.flat (.start hlibrary.composed.native hstart)).feed sets
  rw [List.nil_append] at hbefore
  intro before ready after enabled
  have hready : Fed _ _ ready := hbefore.set path word
  have hafter : Fed _ _ after := hready.settle
  have hstatic : ready.netlist.Static := hready.same ▸ hlaid.static
  have hsettled := hready.reachable.coherent.settled hstatic
  have hsound := hafter.reachable.coherent.sound
  rw [hready.same] at hsettled
  rw [hafter.same] at hsound
  have hwired := hlaid.flat.wired
  have hheld : ∀ {input : Component} {part index : Nat},
      (flatten library (busCircuit lanes)).Supply input part index →
        (after.state.part part).memory = .input (input.held (sets ++ [(path, word)])) :=
    hafter.held
  have hnetAt : ∀ {simulation : Simulation},
      simulation.netlist = flatten library (busCircuit lanes) → simulation.netAt "bus" = .ok bus :=
    fun {simulation} hsame => by rw [netAt, hsame, hbus.found]
  have hpeek : ∀ {simulation : Simulation},
      simulation.netlist = flatten library (busCircuit lanes) →
        simulation.peek "bus" = .ok (simulation.state.net bus).value :=
    fun {simulation} hsame => by rw [peek, hnetAt hsame]; rfl
  obtain ⟨part, hpart, hmade⟩ := hbus.made
  have hprobe : after.probeValue "probe" = _ :=
    hready.reachable.coherent.probeValue_settle hstatic (by rw [hready.same]; exact hbus.listener)
      (by rw [hready.same]; exact hpart) hmade.device
  refine ⟨hnetAt hafter.same, hbus.count hsettled hwired hsound hheld, fun lane hone => ?_,
    fun hnone => ?_⟩
  · obtain ⟨hvalue, hshown, hresolved⟩ := hbus.shown hsettled hwired hsound hheld hone
    rw [hpeek hafter.same, hprobe, hvalue, hshown, hresolved]
    exact ⟨rfl, rfl⟩
  · obtain ⟨hvalue, hopen⟩ := hbus.kept hsettled hwired hsound hheld hnone
    refine ⟨?_, hbefore.reachable.coherent.peek_set path word "bus",
      (after.state.pin ⟨probe, 0⟩).value, ?_⟩
    · rw [hpeek hafter.same, hpeek hready.same, hvalue]
    · rw [hprobe, hopen]

/-! ## Two drivers -/

theorem Library.Sealed.addSchematic (h : library.Sealed) {id : String} {schematic : Schematic}
    (hsealed : schematic.Sealed) : (library.addSchematic id schematic).Sealed := by
  intro entry hmem inside hinside
  rcases List.mem_append.mp hmem with hmem | hmem
  · exact h entry (List.mem_filter.mp hmem).1 inside hinside
  · rw [List.mem_singleton.mp hmem] at hinside
    exact Option.some.inj hinside ▸ hsealed

theorem sealed_busDriver {inner : Component} (h : inner.definition ≠ Boundary.definition) :
    (busDriver inner).Sealed where
  distinct := by
    have hshown : ∀ component ∈ (busDriver inner).components,
        component.definition = Boundary.definition → component ∈ [dataPort, enablePort, outPort] := by
      intro component hmem hboundary
      rcases List.mem_append.mp (show component ∈ [dataPort, enablePort, outPort] ++ [inner] from hmem)
        with hmem | hmem
      · exact hmem
      · rw [List.mem_singleton.mp hmem] at hboundary
        exact absurd hboundary h
    intro first hfirst second hsecond hboundary hboundary'
    exact List.inj_on_of_nodup_map
      (by decide : ([dataPort, enablePort, outPort].map (·.id)).Nodup)
      (hshown first hfirst hboundary) (hshown second hsecond hboundary')
  hidden := by
    intro wire hwire endpoint hend hport
    simp only [busDriver, List.mem_cons, List.not_mem_nil, or_false] at hwire
    rcases hwire with rfl | rfl | rfl <;>
      simp only [List.mem_cons, List.not_mem_nil, or_false] at hend <;>
      rcases hend with rfl | rfl <;> exact absurd hport (by simp [Boundary.externalPin])

/-- A buffer for eight lines, and drivers wrapped once and twice. -/
def plainDriver (id : String) : Component :=
  ⟨id, Builtin.buffer.id, .obj [("width", .int 8)]⟩

def driverLibrary : Library :=
  (Library.builtin.addSchematic "driver" (busDriver (plainDriver "buf"))).addSchematic "drivers"
    (busDriver ⟨"buf", "driver", .null⟩)

theorem furnished_driverLibrary : driverLibrary.Furnished where
  composed := (Library.composed_builtin.addSchematic (by decide) _).addSchematic (by decide) _
  acyclic := Library.acyclic_of_rank
    (fun id => if id = "drivers" then 2 else if id = "driver" then 1 else 0) (by decide +kernel)
  sealed := (Library.sealed_builtin.addSchematic (sealed_busDriver (by decide))).addSchematic
    (sealed_busDriver (by decide))
  builtin := by
    intro builtin
    cases builtin <;> rfl

theorem wraps_driverLibrary (id : String) : driverLibrary.Wraps 2 ⟨id, "drivers", .null⟩ :=
  .wrap (.wrap (.buffer rfl rfl) rfl rfl) rfl rfl

/-- An input of this width. -/
def wideInput (id : String) (width : Nat) : Component :=
  ⟨id, Builtin.input.id, .obj [("width", .int width)]⟩

def plainLane : Lane driverLibrary :=
  ⟨wideInput "d0" 8, wideInput "e0" 1, plainDriver "s0", 0, rfl, rfl, rfl, rfl, .buffer rfl rfl⟩

def wrappedLane : Lane driverLibrary :=
  ⟨wideInput "d1" 8, wideInput "e1" 1, ⟨"s1", "drivers", .null⟩, 2, rfl, rfl, rfl, rfl,
    wraps_driverLibrary "s1"⟩

theorem laned_plain_wrapped : Laned [plainLane, wrappedLane] where
  inhabited := List.cons_ne_nil _ _
  nodup := by decide
  spelled := by decide
  unnamed := by decide

/-- The driver that is wrapped twice puts its data on the bus. Then the other one is
enabled as well, and the bus keeps what it shows. -/
theorem Simulation.wrapped_drivers_share_bus_two :
    ∃ first bus, start driverLibrary (busCircuit [plainLane, wrappedLane]) = .ok first ∧
      (first.feed [("d1", 5), ("e1", 1)]).peek "bus" = .ok 5 ∧
      (first.feed [("d1", 5), ("e1", 1)]).probeValue "probe" = .ok (5, true) ∧
      ((first.feed [("d1", 5), ("e1", 1), ("e0", 1)]).state.net bus).enabledCount = 2 ∧
      (first.feed [("d1", 5), ("e1", 1), ("e0", 1)]).peek "bus" = .ok 5 := by
  obtain ⟨first, bus, hstart, hrun⟩ :=
    wrapped_drivers_share_bus furnished_driverLibrary laned_plain_wrapped
  have hsingle : ([plainLane, wrappedLane].filter fun lane =>
      lane.enable.held [("d1", 5), ("e1", 1)] ≠ 0) = [wrappedLane] := by
    rw [List.filter_cons_of_neg (by decide), List.filter_cons_of_pos (by decide), List.filter_nil]
  have hboth : ([plainLane, wrappedLane].filter fun lane =>
      lane.enable.held [("d1", 5), ("e1", 1), ("e0", 1)] ≠ 0).length = 2 := by
    rw [List.filter_cons_of_pos (by decide), List.filter_cons_of_pos (by decide)]
    rfl
  obtain ⟨-, -, hone, -⟩ := hrun [("d1", 5)] "e1" 1
  obtain ⟨-, hcount, -, hmany⟩ := hrun [("d1", 5), ("e1", 1)] "e0" 1
  obtain ⟨hpeek, hprobe⟩ := hone wrappedLane hsingle
  have hne : ([plainLane, wrappedLane].filter fun lane =>
      lane.enable.held [("d1", 5), ("e1", 1), ("e0", 1)] ≠ 0).length ≠ 1 := hboth ▸ by decide
  obtain ⟨hkept, hunmoved, -⟩ := hmany hne
  have hheld : wrappedLane.data.held [("d1", 5), ("e1", 1)] = 5 := by decide
  have hfirst : first.feed [("d1", 5), ("e1", 1)] =
      ((first.feed [("d1", 5)]).obey (.set "e1" 1)).settle := first.feed_concat [("d1", 5)] "e1" 1
  have hsecond : first.feed [("d1", 5), ("e1", 1), ("e0", 1)] =
      ((first.feed [("d1", 5), ("e1", 1)]).obey (.set "e0" 1)).settle :=
    first.feed_concat [("d1", 5), ("e1", 1)] "e0" 1
  rw [← hfirst] at hpeek hprobe
  rw [← hsecond] at hcount hkept
  refine ⟨first, bus, hstart, ?_, ?_, ?_, ?_⟩
  · rw [hpeek]; exact congrArg _ hheld
  · rw [hprobe]; exact congrArg (fun word => Except.ok (word, true)) hheld
  · exact hcount.trans hboth
  · rw [hkept, hunmoved, hpeek]; exact congrArg _ hheld

end Breadboard
