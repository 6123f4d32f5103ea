import Breadboard.Proofs.Reordering

/-!
# Circuits without hierarchy

A sensible schematic none of whose components is expanded flattens to a part for
every component and to a net for every group of its wires, in their order
(`exists_drawing`).
-/

namespace Breadboard

/-- Where the components and the wires of a schematic without hierarchy are found in
its circuit. -/
structure Drawing (library : Library) (schematic : Schematic) (netlist : Netlist)
    (root : Spot) : Prop where
  chart : Chart library schematic netlist [root]
  names : root.names = []
  drawn : root.schematic = schematic
  plain : ∀ component ∈ schematic.components, library.inside? component = none
  length : netlist.nets.length = (wireGroups schematic.wires).length
  joined : ∀ {k : Nat} {group : List Nat}, (wireGroups schematic.wires)[k]? = some group →
    ∃ net, netlist.nets[k]? = some net ∧
      netlist.Joins schematic.wires root.scope root.placements group net

variable {library : Library} {schematic : Schematic} {netlist : Netlist} {root : Spot}

theorem sites_plain (hplain : ∀ component ∈ schematic.components, library.inside? component = none) :
    schematic.sites library = [⟨[], schematic⟩] := by
  rw [Schematic.sites, sites_succ, List.flatMap_eq_nil_iff.mpr fun component hmem => ?_]
  rw [childSites, hplain component hmem]

/-- Placing components that are not expanded makes no nets. -/
theorem nets_places {expand : Layout} {scope : Nat} : ∀ {components : List Component}
    (state : Netlist × Placements),
    (∀ component ∈ components, library.inside? component = none) →
    (components.foldl (place library expand scope) state).1.nets = state.1.nets := by
  intro components
  induction components with
  | nil => exact fun _ _ => rfl
  | cons component components ih =>
    rintro ⟨netlist, placements⟩ hplain
    refine (ih _ fun other hother => hplain other (List.mem_cons_of_mem _ hother)).trans ?_
    have hinside := hplain component (List.mem_cons_self ..)
    have hentered : ∀ entry, library.get? component.definition = some entry →
        (Netlist.enter expand scope netlist component entry.inside).1.nets = netlist.nets := by
      intro entry hentry
      rw [← inside?_eq hentry, hinside]
      rfl
    exact Netlist.place_cases (motive := fun placed => placed.1.nets = netlist.nets) (fun _ => rfl)
      (fun entry _ hentry _ => hentered entry hentry) fun entry _ hentry _ => hentered entry hentry

theorem unfolds_plain (hplain : ∀ component ∈ schematic.components, library.inside? component = none) :
    schematic.Unfolds library (library.entries.length + 1) := fun component hmem inside hinside => by
  rw [hplain component hmem] at hinside
  cases hinside

/-- The chart of a circuit without hierarchy. -/
theorem exists_root (hcomposed : library.Composed)
    (hplain : ∀ component ∈ schematic.components, library.inside? component = none)
    (hnodup : (schematic.components.map (·.id)).Nodup)
    (hnone : (layout library (library.entries.length + 1) schematic 0
      { scopes := [⟨none, ""⟩] }).1.diagnostics = []) :
    ∃ root, Chart library schematic (flatten library schematic) [root] ∧ root.names = [] ∧
      root.schematic = schematic ∧
      root.placements = (layout library (library.entries.length + 1) schematic 0
        { scopes := [⟨none, ""⟩] }).2 := by
  have hsites := sites_plain hplain
  have hone : ∀ site ∈ schematic.sites library, site = ⟨[], schematic⟩ := fun site hsite => by
    simpa [hsites] using hsite
  obtain ⟨spots, hchart, root, hroot, hroots⟩ :=
    exists_chart_of_layout hcomposed (unfolds_plain hplain)
      (fun site hsite => hone site hsite ▸ hnodup)
      (fun site hsite hnames => absurd (hone site hsite ▸ rfl) hnames)
      (fun site hsite component hmem other hother component' hmem' hpath => by
        obtain rfl := hone site hsite
        obtain rfl := hone other hother
        exact ⟨rfl, by simpa [Site.path, Path.within, Path.ofNames] using hpath⟩) hnone
  have hlength : spots.length = 1 := by
    simpa [hsites] using congrArg List.length hchart.sites
  obtain ⟨spot, rfl⟩ := List.length_eq_one_iff.mp hlength
  obtain rfl := List.mem_singleton.mp hroot
  exact ⟨root, hchart, hroots⟩

theorem exists_drawing (hcomposed : library.Composed)
    (hplain : ∀ component ∈ schematic.components, library.inside? component = none)
    (hsensible : schematic.Sensible library) :
    ∃ root, Drawing library schematic (flatten library schematic) root := by
  let top : Netlist := { scopes := [⟨none, ""⟩] }
  have htop : scopePath top.scopes 0 = Path.ofNames [] := by
    rw [scopePath]
    rfl
  have hnone := cleanly_layout hcomposed _ schematic [] 0 top (unfolds_plain hplain)
    Nat.zero_lt_one htop (fun site hsite => by
      have hsite : site ∈ schematic.sites library := hsite
      rw [sites_plain hplain] at hsite
      exact List.mem_singleton.mp hsite ▸ hsensible) rfl
  obtain ⟨root, hchart, hnames, hdrawn, hplacements⟩ :=
    exists_root hcomposed hplain hsensible.nodup hnone
  have hroot := List.mem_singleton_self root
  have hwires := Netlist.wires_bindWires hnone
  have hbase := @nets_places library (layout library library.entries.length) 0 _ (top, []) hplain
  have hgrown := Netlist.grown_reportDrivers (layout library (library.entries.length + 1) schematic 0 top).1
  refine ⟨root, hchart, hnames, hdrawn, hplain, ?_, fun {k group} hgroup => ?_⟩
  · refine hwires.length.trans ?_
    rw [hbase]
    exact Nat.zero_add _
  · obtain ⟨net, hnet, hjoins⟩ := hwires.joined hgroup
    rw [hbase, show (top, ([] : Placements)).1.nets.length + k = k from Nat.zero_add k] at hnet
    have hfound : (flatten library schematic).nets[k]? = some net := hnet
    obtain ⟨spot, hspot, _, -, hspotJoins⟩ := hchart.net hfound
    obtain rfl := List.mem_singleton.mp hspot
    have hwithin := (hchart.laid spot hroot).within
    rw [hplacements] at hwithin
    obtain ⟨-, hids, hsources, htargets⟩ := hjoins.grown hgrown hwithin
    refine ⟨net, hfound, hspotJoins.scope_eq, hids, ?_, ?_⟩
    · rw [hplacements]
      exact hsources
    · rw [hplacements]
      exact htargets

/-- A schematic of which nothing is reported is sensible if all ports have a width. -/
theorem sensible_of_flatten (hcomposed : library.Composed)
    (hplain : ∀ component ∈ schematic.components, library.inside? component = none)
    (hnodup : (schematic.components.map (·.id)).Nodup)
    (hnone : (flatten library schematic).diagnostics = [])
    (hwide : ∀ part ∈ (flatten library schematic).parts, ∀ port ∈ part.ports, 1 ≤ port.width) :
    schematic.Sensible library := by
  have hgrown := Netlist.grown_reportDrivers
    (layout library (library.entries.length + 1) schematic 0 { scopes := [⟨none, ""⟩] }).1
  obtain ⟨root, hchart, -, rfl, -⟩ :=
    exists_root hcomposed hplain hnodup (hgrown.no_diagnostics hnone)
  have hroot := List.mem_singleton_self root
  refine ⟨hnodup, fun component hmem => ?_, fun component hmem inside hinside => ?_,
    fun group hgroup => ?_⟩
  · obtain ⟨placed, hlocated⟩ := hchart.host hroot hmem
    obtain ⟨entry, assembly, _, hentry, hassemble, -⟩ := hlocated.madeOf
    exact ⟨assembly, by rw [Library.assembly?, hentry, Option.bind_some, hassemble]; rfl⟩
  · rw [hplain component hmem] at hinside
    cases hinside
  · obtain ⟨_, net, hnet, hjoins⟩ := (hchart.laid root hroot).nets group hgroup
    refine ⟨net.width, fun endpoint hend => ?_⟩
    obtain ⟨position, hposition, wire, hwire, hmem⟩ := id hend
    have hsome := (hchart.laid root hroot).resolves wire (List.mem_of_getElem? hwire) endpoint hmem
    obtain ⟨component, placed, hlocated, hendpoint⟩ := hchart.component_of_end hroot hsome
    obtain ⟨⟨⟨index, place⟩, asSource⟩, hattached⟩ := List.exists_mem_of_ne_nil _ hsome
    have hinside := hplain component hlocated.drawn
    obtain ⟨entry, assembly, part, hentry, hassemble, hpart, hmade, -⟩ := hlocated.madeOf
    have hplaced := hattached
    rw [hendpoint] at hplaced
    obtain ⟨rfl, rfl, hport⟩ := (hlocated.mem_attachments_plain hinside).mp hplaced
    rw [position?_of_madeOf hpart hmade] at hport
    obtain ⟨hlt, -⟩ := List.findIdx?_eq_some_iff_getElem.mp hport
    have hdecl : (flatten library root.schematic).decl? ⟨placed.part, place⟩ =
        some assembly.ports[place] := by
      rw [Netlist.decl?_of_madeOf hpart hmade, List.getElem?_eq_getElem hlt]
    refine ⟨assembly.ports[place], ?_, ?_⟩
    · rw [Schematic.decl?, hendpoint, Schematic.find?_eq_of_mem hnodup hlocated.drawn,
        Option.bind_some, Library.assembly?, hentry, Option.bind_some, hassemble]
      exact (List.find?_eq_bind_findIdx?_getElem? ..).trans (by
        rw [hport, Option.bind_some, List.getElem?_eq_getElem hlt])
    · obtain ⟨builtin, -, rfl⟩ := hcomposed.plain hinside hentry hassemble
      have hlisted : ⟨placed.part, place⟩ ∈ net.sources ∨ ⟨placed.part, place⟩ ∈ net.targets := by
        rcases Builtin.faces builtin component.args _ (List.getElem_mem hlt) with hinput | houtput
        · exact Or.inr ((hjoins.targets _).mpr ⟨⟨endpoint, true, hend, hattached⟩, _, hdecl, hinput⟩)
        · exact Or.inl ((hjoins.sources _).mpr ⟨⟨endpoint, hend, hattached⟩, _, hdecl, houtput⟩)
      obtain ⟨port, hfound⟩ :=
        (Netlist.wired_flatten hcomposed.native root.schematic).attached hnet hlisted
      obtain ⟨owner, howner, hplace⟩ := Netlist.part_of_port hfound.found
      have hwidth := hwide owner (List.mem_of_getElem? howner) port (List.mem_of_getElem? hplace)
      rw [Netlist.decl?, hfound.found] at hdecl
      rw [← Option.some.inj hdecl]
      exact hfound.width.resolve_right (Nat.ne_of_gt hwidth)

end Breadboard
