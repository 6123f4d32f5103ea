import Breadboard.Proofs.Directory

/-!
# Hierarchy can be removed

A circuit of built-in components and components that exist only as schematics runs as
the circuit without hierarchy does (`Simulation.inlined_runs_alike`), provided that it is
static, has no tri-state nets and every port of an expanded component is wired.
`Schematic.Removable` collects what has to be known of the circuit; both flat circuits
can then be charted side by side (`Removable.inlining`), and the one without hierarchy
has no tri-state nets either (`Removable.plain_inlined`).
-/

namespace Breadboard

/-- A circuit from which the hierarchy can be removed. -/
structure Schematic.Removable (library : Library) (schematic : Schematic) : Prop where
  composed : library.Composed
  acyclic : library.Acyclic
  named : ∀ site ∈ schematic.sites library, site.schematic.Named
  connected : ∀ site ∈ schematic.sites library, site.schematic.Connected library
  silent : (flatten library schematic).diagnostics = []
  static : (flatten library schematic).Static
  plain : ∀ net ∈ (flatten library schematic).nets, net.tristate = false
  width : ∀ part ∈ (flatten library schematic).parts, ∀ port ∈ part.ports,
    0 < port.width ∧ port.width ≤ 64

/-! ## Faults -/

/-- An adder as wide as a word has a carry out. -/
theorem Part.Built.overshifts_eq_false {part : Part} (h : part.Built)
    (hwidth : ∀ port ∈ part.ports, port.width ≤ 64) : part.device.overshifts = false := by
  rcases h.cases with ⟨builtin, args, hmade⟩ | ⟨hinert, -⟩
  · cases builtin with
    | adder =>
      have hports : ∀ decl ∈ (Builtin.adder.assemble args).ports, decl.width ≤ 64 := by
        rw [← hmade.ports]
        intro decl hdecl
        obtain ⟨port, hport, rfl⟩ := List.mem_map.mp hdecl
        exact hwidth port hport
      have hsum : args.width "width" 1 ≤ 64 := hports _ (List.mem_cons_self ..)
      rw [hmade.device]
      show (_ && decide (128 ≤ args.width "width" 1)) = false
      rw [decide_eq_false (by omega), Bool.and_false]
    | _ =>
      rw [hmade.device]
      rfl
  · rw [hinert]
    rfl

theorem Netlist.fault?_eq_none {netlist : Netlist} (hflat : netlist.Flat)
    (hwidth : ∀ part ∈ netlist.parts, ∀ port ∈ part.ports, port.width ≤ 64) :
    netlist.fault? = none :=
  Netlist.fault?_eq_none_iff.mpr fun part hpart =>
    (hflat.built part hpart).overshifts_eq_false (hwidth part hpart)

/-! ## The circuit without hierarchy -/

section

variable {library : Library} {schematic : Schematic}

theorem inside_of_mem_leaves {leaf : Component} (h : leaf ∈ schematic.leaves library) :
    library.inside? leaf = none := by
  obtain ⟨site, -, hmem⟩ := List.mem_flatMap.mp h
  obtain ⟨component, hkept, rfl⟩ := List.mem_map.mp hmem
  exact Site.inside_of_keeps (List.mem_filter.mp hkept).2

/-- Nothing is left to expand. -/
theorem sites_inlined (library : Library) (schematic : Schematic) :
    (schematic.inlined library).sites library = [⟨[], schematic.inlined library⟩] := by
  rw [Schematic.sites, sites_succ, List.flatMap_eq_nil_iff.mpr]
  intro leaf hleaf
  rw [childSites, inside_of_mem_leaves hleaf]

theorem unfolds_inlined (library : Library) (schematic : Schematic) (depth : Nat) :
    (schematic.inlined library).Unfolds library (depth + 1) := by
  intro leaf hleaf inside hinside
  rw [inside_of_mem_leaves hleaf] at hinside
  cases hinside

namespace Schematic.Removable

variable (h : schematic.Removable library)

include h

theorem spelled : schematic.Spelled library :=
  fun site hsite => (h.named site hsite).component

theorem nodup : ∀ site ∈ schematic.sites library, (site.schematic.components.map (·.id)).Nodup :=
  fun site hsite => (h.named site hsite).components

/-- The wires of all sites can be told apart by their paths. -/
theorem distinct_segments : ((schematic.segments library).map (·.id)).Nodup := by
  have hdistinct : Distinct (schematic.sites library) fun site =>
      site.schematic.wires.map (·.id) :=
    distinct_sites h.spelled h.nodup (fun site hsite => (h.named site hsite).wires)
      fun site hsite id hid => by
        obtain ⟨wire, hwire, rfl⟩ := List.mem_map.mp hid
        exact (h.named site hsite).wire wire hwire
  simpa [Distinct, Schematic.segments, Site.segments, Site.segment, List.map_flatMap,
    Function.comp_def] using hdistinct

theorem distinct_leaves : ((schematic.leaves library).map (·.id)).Nodup := by
  have hdistinct : Distinct (schematic.sites library) fun site =>
      (site.schematic.components.filter (site.keeps library)).map (·.id) :=
    distinct_sites h.spelled h.nodup
      (fun site hsite => (h.nodup site hsite).sublist (List.filter_sublist.map _))
      fun site hsite id hid => by
        obtain ⟨component, hmem, rfl⟩ := List.mem_map.mp hid
        exact (h.named site hsite).component component (List.mem_filter.mp hmem).1
  simpa [Distinct, Schematic.leaves, Site.components, Site.leaf, List.map_flatMap,
    Function.comp_def] using hdistinct

theorem chart : ∃ spots, Chart library schematic (flatten library schematic) spots := by
  refine exists_chart h.composed (h.acyclic.unfolds schematic) h.nodup
    (fun site hsite _ => (h.named site hsite).exposed) ?_ h.silent
  intro site hsite component hmem other hother component' hmem' hpath
  exact Site.eq_of_path h.spelled hsite hother ((h.named site hsite).component component hmem)
    ((h.named other hother).component component' hmem') (congrArg Path.text hpath)

theorem chart_inlined
    (hsilent : (flatten library (schematic.inlined library)).diagnostics = []) :
    ∃ root : Spot, root.toSite = ⟨[], schematic.inlined library⟩ ∧
      Chart library (schematic.inlined library) (flatten library (schematic.inlined library))
        [root] := by
  have hsites := sites_inlined library schematic
  obtain ⟨spots, hchart⟩ := exists_chart h.composed
    (unfolds_inlined library schematic library.entries.length)
    (by
      rw [hsites]
      exact List.forall_mem_singleton.mpr h.distinct_leaves)
    (by
      rw [hsites]
      exact List.forall_mem_singleton.mpr fun hnames => absurd rfl hnames)
    (by
      rw [hsites]
      simp only [List.mem_singleton, forall_eq]
      exact fun component _ component' _ hpath => ⟨trivial, congrArg Path.text hpath⟩)
    hsilent
  have hmap := hchart.sites
  rw [hsites] at hmap
  obtain ⟨root, rfl, hroot⟩ := List.map_eq_singleton_iff.mp hmap
  exact ⟨root, hroot, hchart⟩

/-- Both circuits can be charted side by side. -/
theorem inlining (hsilent : (flatten library (schematic.inlined library)).diagnostics = []) :
    ∃ spots root, Inlining library schematic (flatten library schematic)
      (flatten library (schematic.inlined library)) spots root := by
  obtain ⟨spots, hchart⟩ := h.chart
  obtain ⟨root, hroot, hflat⟩ := h.chart_inlined hsilent
  refine ⟨spots, root, hchart, h.static.single, fun spot hspot => ?_, hflat, hroot⟩
  exact h.connected _ (hchart.sites ▸ List.mem_map_of_mem hspot)

theorem flat : (flatten library schematic).Flat :=
  ⟨library, schematic, h.composed.native, rfl⟩

theorem plain_nested : (flatten library schematic).Plain where
  flat := h.flat
  static := h.static
  plain := h.plain
  lone := fun net hnet => by
    obtain ⟨index, hindex⟩ := List.mem_iff_getElem?.mp hnet
    exact length_sources_flatten h.silent hindex (h.plain net hnet)
  width := fun part hpart port hport => Nat.ne_of_gt (h.width part hpart port hport).1

variable {spots : List Spot} {root : Spot}

/-- The ports of the circuit without hierarchy are those of kept components. -/
theorem width_inlined (hinlining : Inlining library schematic (flatten library schematic)
      (flatten library (schematic.inlined library)) spots root) :
    ∀ part ∈ (flatten library (schematic.inlined library)).parts, ∀ port ∈ part.ports,
      0 < port.width ∧ port.width ≤ 64 := by
  intro part hpart port hport
  obtain ⟨q, hq⟩ := List.mem_iff_getElem?.mp hpart
  obtain ⟨k, hk⟩ := List.mem_iff_getElem?.mp hport
  obtain ⟨p, hsame⟩ := hinlining.seams.onto q (List.getElem?_eq_some_iff.mp hq).1
  have hplace : (flatten library (schematic.inlined library)).port? ⟨q, k⟩ = some port :=
    Netlist.port_of_part hq hk
  obtain ⟨port', hport', hdecl⟩ := hinlining.seams.exists_port hsame hplace
  obtain ⟨placed, hplaced, hmem⟩ := Netlist.part_of_port hport'
  rw [← show port'.width = port.width from congrArg PortDecl.width hdecl]
  exact h.width placed (List.mem_of_getElem? hplaced) port' (List.mem_of_getElem? hmem)

/-- A tri-state port would have been on a net of the circuit with hierarchy. -/
theorem plain_inlined (hinlining : Inlining library schematic (flatten library schematic)
      (flatten library (schematic.inlined library)) spots root)
    (hsilent : (flatten library (schematic.inlined library)).diagnostics = [])
    (hstatic : (flatten library (schematic.inlined library)).Static) :
    (flatten library (schematic.inlined library)).Plain := by
  have hplain : ∀ net ∈ (flatten library (schematic.inlined library)).nets,
      net.tristate = false := by
    intro net hnet
    refine Bool.eq_false_iff.mpr fun htristate => ?_
    obtain ⟨⟨q, k⟩, port, hlists, hport, htype⟩ := Netlist.tristate_flatten _ _ net hnet htristate
    obtain ⟨m, hm⟩ := List.mem_iff_getElem?.mp hnet
    obtain ⟨part, hpart, -⟩ := Netlist.part_of_port hport
    obtain ⟨p, hsame⟩ := hinlining.seams.onto q (List.getElem?_eq_some_iff.mp hpart).1
    obtain ⟨port', hport', hdecl⟩ := hinlining.seams.exists_port hsame hport
    obtain ⟨n, net', hnet', hlists'⟩ :
        ∃ n, (flatten library schematic).Lists n ⟨p, k⟩ := by
      rcases hlists with hsource | htarget
      · obtain ⟨n, hsource', -⟩ := hinlining.seams.origin hsame ⟨net, hm, hsource⟩
        exact ⟨n, hsource'.lists⟩
      · obtain ⟨n, -, htarget'⟩ := hinlining.seams.reader hsame ⟨net, hm, htarget⟩
        exact ⟨n, htarget'.lists⟩
    obtain ⟨found, hattached⟩ := h.flat.wired.attached hnet' hlists'
    obtain rfl := Option.some.inj (hattached.found.symm.trans hport')
    have htristate' := hattached.tristate
      ((congrArg (·.type.tristate) hdecl : found.type.tristate = port.type.tristate).trans htype)
    rw [h.plain net' (List.mem_of_getElem? hnet')] at htristate'
    cases htristate'
  refine ⟨⟨library, _, h.composed.native, rfl⟩, hstatic, hplain, fun net hnet => ?_,
    fun part hpart port hport => Nat.ne_of_gt (h.width_inlined hinlining part hpart port hport).1⟩
  obtain ⟨index, hindex⟩ := List.mem_iff_getElem?.mp hnet
  exact length_sources_flatten hsilent hindex (hplain net hnet)

end Schematic.Removable

end

/-! ## Running -/

namespace Simulation

/-- Two simulations show the same: at every path the same value of a net, and the same
contents of a probe, a register or a memory. Every net of the first one shows what the
second one shows at its path. -/
structure Shows (first second : Simulation) : Prop where
  net : ∀ index < first.netlist.nets.length,
    second.peek (first.netlist.netPath index).text = .ok (first.state.net index).value
  peek : ∀ path, first.peek path = second.peek path
  probe : ∀ path, (first.probeValue path).toOption = (second.probeValue path).toOption
  register : ∀ path, (first.registerValue path).toOption = (second.registerValue path).toOption
  ram : ∀ path, (first.ramCells path).toOption = (second.ramCells path).toOption
  halted : first.isHalted = second.isHalted

/-- Simulations that run in parallel show the same. -/
theorem Parallel.shows {nested flat : Netlist} {seam : Nat → Prop} {same merged : Nat → Nat → Prop}
    {first second : Simulation} (h : Parallel nested flat seam same merged first second)
    (hdirectory : Directory nested flat same merged) : first.Shows second :=
  ⟨fun _ hindex => h.netlist ▸ h.peek_netPath hdirectory (h.netlist ▸ hindex),
    h.peek_eq hdirectory, h.probe_eq hdirectory, h.register_eq hdirectory, h.ram_eq hdirectory,
    h.isHalted⟩

/-- A circuit runs as the circuit without its hierarchy does: started from scratch,
whatever is done to both, they show the same. -/
theorem inlined_runs_alike {library : Library} {schematic : Schematic}
    (h : schematic.Removable library)
    (hsilent : (flatten library (schematic.inlined library)).diagnostics = [])
    (hstatic : (flatten library (schematic.inlined library)).Static) :
    ∃ first second, start library schematic = .ok first ∧
      start library (schematic.inlined library) = .ok second ∧
      ∀ commands : List Command,
        (commands.foldl obey first).Shows (commands.foldl obey second) := by
  obtain ⟨spots, root, hinlining⟩ := h.inlining hsilent
  have hplain := h.plain_inlined hinlining hsilent hstatic
  have hwidth := fun part hpart port hport => (h.width part hpart port hport).2
  have hwidth' := fun part hpart port hport =>
    (h.width_inlined hinlining part hpart port hport).2
  have hdirectory := hinlining.directory h.distinct_segments
  have hstart := Parallel.ofNetlist hinlining.seams h.plain_nested hplain
  exact ⟨_, _, start_eq (Netlist.fault?_eq_none h.flat hwidth),
    start_eq (Netlist.fault?_eq_none hplain.flat hwidth'), fun commands =>
    (Parallel.run hdirectory commands hstart).shows hdirectory⟩

/-- A register between boundary ports. -/
def delay : Schematic where
  components :=
    [⟨"in", Builtin.boundary.id, .obj [("width", .int 4)]⟩,
      ⟨"r", Builtin.register.id, .obj [("width", .int 4)]⟩,
      ⟨"out", Builtin.boundary.id, .obj [("width", .int 4), ("dir", .str "out")]⟩]
  wires := [⟨"d", [⟨"in", "a"⟩, ⟨"r", "d"⟩]⟩, ⟨"q", [⟨"r", "q"⟩, ⟨"out", "a"⟩]⟩]

/-- Two delays in a row, between boundary ports again. -/
def delays : Schematic where
  components :=
    [⟨"in", Builtin.boundary.id, .obj [("width", .int 4)]⟩, ⟨"one", "delay", .null⟩,
      ⟨"two", "delay", .null⟩,
      ⟨"out", Builtin.boundary.id, .obj [("width", .int 4), ("dir", .str "out")]⟩]
  wires :=
    [⟨"a", [⟨"in", "a"⟩, ⟨"one", "in"⟩]⟩, ⟨"b", [⟨"one", "out"⟩, ⟨"two", "in"⟩]⟩,
      ⟨"c", [⟨"two", "out"⟩, ⟨"out", "a"⟩]⟩]

def delayLibrary : Library :=
  (Library.builtin.addSchematic "delay" delay).addSchematic "delays" delays

/-- An input is delayed on its way to a probe. -/
def delayedProbe : Schematic where
  components :=
    [⟨"x", Builtin.input.id, .obj [("width", .int 4)]⟩, ⟨"d", "delays", .null⟩,
      ⟨"p", Builtin.probe.id, .obj [("width", .int 4)]⟩]
  wires := [⟨"a", [⟨"x", "out"⟩, ⟨"d", "in"⟩]⟩, ⟨"b", [⟨"d", "out"⟩, ⟨"p", "in"⟩]⟩]

theorem removable_delayedProbe : delayedProbe.Removable delayLibrary where
  composed :=
    (Library.composed_builtin.addSchematic (by decide) delay).addSchematic (by decide) delays
  acyclic := Library.acyclic_of_rank
    (fun id => if id = "delays" then 2 else if id = "delay" then 1 else 0) (by decide +kernel)
  named := by decide +kernel
  connected := by decide +kernel
  silent := by decide +kernel
  static := by decide +kernel
  plain := by decide +kernel
  width := by decide +kernel

/-- Two clock edges take a value to the second register, and with it to the probe. -/
theorem inlined_runs_alike_delayed :
    ∃ first second, start delayLibrary delayedProbe = .ok first ∧
      start delayLibrary (delayedProbe.inlined delayLibrary) = .ok second ∧
      let commands := [Command.set "x" 5, .settle, .step, .step]
      (commands.foldl obey first).Shows (commands.foldl obey second) ∧
        (commands.foldl obey second).registerValue "d|two|r" = .ok 5 ∧
        (commands.foldl obey second).peek "d|two|q" = .ok 5 := by
  obtain ⟨first, second, hfirst, hsecond, halike⟩ :=
    inlined_runs_alike removable_delayedProbe (by decide +kernel) (by decide +kernel)
  have hstart : start delayLibrary delayedProbe =
      .ok (ofNetlist (flatten delayLibrary delayedProbe)) := start_eq (by decide +kernel)
  obtain rfl := Except.ok.inj (hstart.symm.trans hfirst)
  have hshows := halike [.set "x" 5, .settle, .step, .step]
  have hheld : (([Command.set "x" 5, .settle, .step, .step].foldl obey
      (ofNetlist (flatten delayLibrary delayedProbe))).registerValue "d|two|r").toOption =
        some 5 := by decide +kernel
  refine ⟨_, second, hfirst, hsecond, hshows, ?_, ?_⟩
  · have hregister := (hshows.register "d|two|r").symm.trans hheld
    generalize ([Command.set "x" 5, .settle, .step, .step].foldl obey second).registerValue
      "d|two|r" = found at hregister
    cases found with
    | error _ => cases hregister
    | ok value => exact congrArg Except.ok (Option.some.inj hregister)
  · rw [← hshows.peek]
    decide +kernel

end Simulation

end Breadboard
