import Breadboard.Proofs.Survey
import Breadboard.Proofs.Binding

/-!
# Charts of flat circuits

A chart of a netlist says where everything in it comes from: each part is a component
of a spot, and each net joins a group of its wires (`Chart`). Flattening without a
report gives a circuit that can be charted (`exists_chart`).

In a library of built-in definitions and definitions that exist only as schematics
(`Library.Composed`), a component is built in, or it is expanded and its own part does
nothing. A wire at a port of an expanded component attaches, besides the port of that
part, the external pin of the boundary port inside (`Located.attachments_expanded`).
-/

namespace Breadboard

/-! ## Libraries -/

/-- The library consists of built-in definitions and of definitions that exist only as
schematics. What marks the boundary ports is not redefined. -/
def Library.Composed (library : Library) : Prop :=
  ∀ entry ∈ library.entries, (∃ builtin, entry = ⟨.ofBuiltin builtin, none⟩) ∨
    ∃ id inside, id ≠ Boundary.definition ∧
      entry = ⟨⟨id, .outline (Library.boundaryPorts inside)⟩, some inside⟩

theorem Builtin.id_injective : Function.Injective Builtin.id := by
  intro first second h
  cases first <;> cases second <;> first | rfl | exact absurd h (by decide)

/-- What a definition without behaviour builds. -/
def Assembly.hollow (ports : List PortDecl) : Assembly where
  ports
  phases :=
    [{ reads := (Builder.start "" .null ports).portsWhere (·.input)
       writes := (Builder.start "" .null ports).portsWhere (·.output) }]
  device := .inert
  valid := false

namespace Library

variable {library : Library} {component : Component} {entry : Entry} {assembly : Assembly}
  {inside : Schematic}

theorem composed_add {definition : Definition} {expand : Option Schematic} (h : library.Composed)
    (hentry : (∃ builtin, (⟨definition, expand⟩ : Entry) = ⟨.ofBuiltin builtin, none⟩) ∨
      ∃ id inside, id ≠ Boundary.definition ∧
        (⟨definition, expand⟩ : Entry) = ⟨⟨id, .outline (boundaryPorts inside)⟩, some inside⟩) :
    (library.add definition expand).Composed := by
  intro entry hmem
  rcases List.mem_append.mp hmem with hmem | hmem
  · exact h entry (List.mem_filter.mp hmem).1
  · rw [List.mem_singleton.mp hmem]
    exact hentry

theorem composed_builtin : builtin.Composed := by
  have hadd : ∀ (builtins : List Builtin) (library : Library), library.Composed →
      (builtins.foldl (fun library builtin => library.add (.ofBuiltin builtin)) library).Composed := by
    intro builtins
    induction builtins with
    | nil => exact fun _ h => h
    | cons builtin builtins ih => exact fun _ h => ih _ (composed_add h (Or.inl ⟨builtin, rfl⟩))
  exact hadd _ _ (fun _ h => nomatch h)

theorem Composed.addSchematic (h : library.Composed) {id : String} (hid : id ≠ Boundary.definition)
    (schematic : Schematic) : (library.addSchematic id schematic).Composed :=
  composed_add h (Or.inr ⟨id, schematic, hid, rfl⟩)

theorem Composed.native (h : library.Composed) : library.Native := by
  intro entry hmem
  rcases h entry hmem with ⟨builtin, rfl⟩ | ⟨id, inside, -, rfl⟩
  · exact Or.inl ⟨builtin, rfl⟩
  · exact Or.inr ⟨id, inside, rfl⟩

theorem mem_of_get? {id : String} (h : library.get? id = some entry) :
    entry ∈ library.entries ∧ entry.definition.id = id :=
  ⟨List.mem_of_find?_eq_some h, by simpa using List.find?_some h⟩

/-- A component that is not expanded is built in. -/
theorem Composed.plain (h : library.Composed) (hinside : library.inside? component = none)
    (hentry : library.get? component.definition = some entry)
    (hassemble : entry.definition.assemble component.args = .ok assembly) :
    ∃ builtin : Builtin, builtin.id = component.definition ∧
      assembly = builtin.assemble component.args := by
  obtain ⟨hmem, hid⟩ := mem_of_get? hentry
  rcases h entry hmem with ⟨builtin, rfl⟩ | ⟨id, inside, -, rfl⟩
  · exact ⟨builtin, hid, (Except.ok.inj hassemble).symm⟩
  · rw [inside?, hentry, Option.bind_some] at hinside
    cases hinside

theorem Composed.boundary (h : library.Composed) (hdefinition : component.definition = Boundary.definition)
    (hentry : library.get? component.definition = some entry)
    (hassemble : entry.definition.assemble component.args = .ok assembly) :
    library.inside? component = none ∧ assembly = Builtin.boundary.assemble component.args := by
  obtain ⟨hmem, hid⟩ := mem_of_get? hentry
  rw [inside?, hentry, Option.bind_some]
  rcases h entry hmem with ⟨builtin, rfl⟩ | ⟨id, inside, hne, rfl⟩
  · obtain rfl : builtin = .boundary := Builtin.id_injective (hid.trans hdefinition)
    exact ⟨rfl, (Except.ok.inj hassemble).symm⟩
  · exact absurd (hid.trans hdefinition) hne

theorem Composed.expanded (h : library.Composed) (hinside : library.inside? component = some inside)
    (hentry : library.get? component.definition = some entry)
    (hassemble : entry.definition.assemble component.args = .ok assembly) :
    component.definition ≠ Boundary.definition ∧
      assembly = Assembly.hollow (boundaryPorts inside) := by
  obtain ⟨hmem, hid⟩ := mem_of_get? hentry
  rw [inside?, hentry, Option.bind_some] at hinside
  rcases h entry hmem with ⟨builtin, rfl⟩ | ⟨id, found, hne, rfl⟩
  · cases hinside
  · obtain rfl := Option.some.inj hinside
    exact ⟨fun hdefinition => hne (hid.trans hdefinition), (Except.ok.inj hassemble).symm⟩

end Library

/-! ## Charts -/

/-- Where everything in a netlist comes from. -/
structure Chart (library : Library) (schematic : Schematic) (netlist : Netlist)
    (spots : List Spot) : Prop where
  composed : library.Composed
  sites : spots.map (·.toSite) = schematic.sites library
  laid : ∀ spot ∈ spots, spot.Laid netlist library spots
  part : ∀ index < netlist.parts.length, ∃ spot ∈ spots, ∃ component ∈ spot.schematic.components,
    ∃ placed, spot.placements.lookup component.id = some placed ∧ placed.part = index
  net : ∀ {index : Nat} {net : Net}, netlist.nets[index]? = some net → ∃ spot ∈ spots,
    ∃ group ∈ wireGroups spot.schematic.wires,
      netlist.Joins spot.schematic.wires spot.scope spot.placements group net
  nodup : ∀ spot ∈ spots, (spot.schematic.components.map (·.id)).Nodup
  exposed : ∀ spot ∈ spots, spot.names ≠ [] →
    ((Library.boundaryPorts spot.schematic).map (·.id)).Nodup
  apart : ∀ spot ∈ spots, ∀ component ∈ spot.schematic.components, ∀ other ∈ spots,
    ∀ component' ∈ other.schematic.components,
      spot.path component.id = other.path component'.id → spot = other ∧ component = component'

/-- A part with the component that it was made for. -/
structure Located (library : Library) (netlist : Netlist) (spots : List Spot) (spot : Spot)
    (component : Component) (placed : Placed) : Prop where
  listed : spot ∈ spots
  drawn : component ∈ spot.schematic.components
  hosts : spot.Hosts netlist library spots component placed

/-- The component is expanded, and the boundary port is one of those inside. -/
structure Crossing (library : Library) (netlist : Netlist) (spots : List Spot) (spot : Spot)
    (component : Component) (inner : Spot) (boundary : Component) (placed : Placed) : Prop where
  listed : spot ∈ spots
  drawn : component ∈ spot.schematic.components
  inside : library.inside? component = some inner.schematic
  names : inner.names = spot.names ++ [component.id]
  located : Located library netlist spots inner boundary placed
  boundary : boundary.definition = Boundary.definition

theorem lookup_of_mem {α : Type} {entries : List (String × α)} {id : String} {value : α}
    (hnodup : (entries.map (·.1)).Nodup) (h : (id, value) ∈ entries) :
    entries.lookup id = some value := by
  induction entries with
  | nil => cases h
  | cons entry entries ih =>
    obtain ⟨head, found⟩ := entry
    rw [List.map_cons, List.nodup_cons] at hnodup
    rcases List.mem_cons.mp h with h | h
    · obtain ⟨rfl, rfl⟩ := Prod.mk.inj h
      exact List.lookup_cons_self
    · have hne : id ≠ head := fun heq => hnodup.1 (heq ▸ List.mem_map.mpr ⟨_, h, rfl⟩)
      rw [List.lookup_cons, beq_eq_false_iff_ne.mpr hne]
      exact ih hnodup.2 h

theorem madeOf_of_outline {netlist : Netlist} {assembly : Assembly} {component : Component}
    {scope index : Nat} {part : Part} (hpart : netlist.parts[index]? = some part)
    (houtline : netlist.outline[index]? = some (assembly.toPart component scope)) :
    part.MadeOf assembly ∧ part.id = component.id ∧ part.scope = scope := by
  rw [Netlist.outline_getElem?, hpart, Option.map_some, Option.some.injEq] at houtline
  have hports := congrArg (fun part : Part => part.ports.map (·.toPortDecl)) houtline
  simp only [Part.unbound, Assembly.toPart, List.map_map] at hports
  refine ⟨⟨?_, congrArg Part.phases houtline, congrArg Part.device houtline,
    congrArg Part.valid houtline⟩, congrArg Part.id houtline, congrArg Part.scope houtline⟩
  simpa [Function.comp_def, PortDecl.unbound] using hports

section

variable {library : Library} {schematic : Schematic} {netlist : Netlist} {spots : List Spot}
  {spot other : Spot} {component component' : Component} {placed placed' : Placed}

theorem nodup_spots (hsites : spots.map (·.toSite) = schematic.sites library)
    (hnodup : ∀ spot ∈ spots, (spot.schematic.components.map (·.id)).Nodup) :
    (spots.map (·.names)).Nodup := by
  have hnames : ((schematic.sites library).map (·.names)).Nodup := by
    refine nodup_sites fun site hsite => ?_
    change site ∈ schematic.sites library at hsite
    rw [← hsites] at hsite
    obtain ⟨spot, hspot, rfl⟩ := List.mem_map.mp hsite
    exact hnodup spot hspot
  rw [← hsites, List.map_map] at hnames
  exact hnames

theorem position?_of_madeOf {index : Nat} {assembly : Assembly} {part : Part}
    (hpart : netlist.parts[index]? = some part) (hmade : part.MadeOf assembly) (id : String) :
    netlist.position? index id = assembly.ports.findIdx? (·.id = id) := by
  rw [Netlist.position?, hpart, Option.bind_some, Part.port?, ← hmade.ports, List.findIdx?_map]
  rfl

namespace Located

/-- What the part of a component is made of. -/
theorem madeOf (h : Located library netlist spots spot component placed) :
    ∃ entry assembly part, library.get? component.definition = some entry ∧
      entry.definition.assemble component.args = .ok assembly ∧
      netlist.parts[placed.part]? = some part ∧ part.MadeOf assembly ∧ part.id = component.id ∧
      part.scope = spot.scope := by
  obtain ⟨entry, assembly, hentry, hassemble, houtline⟩ := h.hosts.made
  have hlt : placed.part < netlist.parts.length := by
    rw [← Netlist.length_outline]
    exact (List.getElem?_eq_some_iff.mp houtline).1
  exact ⟨entry, assembly, _, hentry, hassemble, List.getElem?_eq_getElem hlt,
    madeOf_of_outline (List.getElem?_eq_getElem hlt) houtline⟩

theorem placed_eq (h : Located library netlist spots spot component placed)
    (h' : Located library netlist spots spot component placed') : placed = placed' :=
  Option.some.inj (h.hosts.lookup.symm.trans h'.hosts.lookup)

/-- A component that is not expanded attaches the port that an end names. -/
theorem mem_attachments_plain (h : Located library netlist spots spot component placed)
    (hinside : library.inside? component = none) {id : String} {ref : PortRef} {asSource : Bool} :
    (ref, asSource) ∈ netlist.attachments spot.placements ⟨component.id, id⟩ ↔
      asSource = true ∧ ref.part = placed.part ∧
        netlist.position? placed.part id = some ref.port := by
  rw [Netlist.attachments, h.hosts.lookup]
  dsimp only
  cases hposition : netlist.position? placed.part id with
  | none => simp
  | some port =>
    have hbehind : netlist.behind? placed id = none := by
      rw [Netlist.behind?, h.hosts.plain hinside]
      rfl
    obtain ⟨part, position⟩ := ref
    simp only [Netlist.standing, hbehind, List.mem_singleton, Prod.mk.injEq, PortRef.mk.injEq,
      Option.some.injEq]
    constructor
    · rintro ⟨⟨rfl, rfl⟩, rfl⟩
      exact ⟨rfl, rfl, rfl⟩
    · rintro ⟨rfl, rfl, rfl⟩
      exact ⟨⟨rfl, rfl⟩, rfl⟩

end Located

namespace Chart

variable (h : Chart library schematic netlist spots)

include h

theorem host (hspot : spot ∈ spots) (hmem : component ∈ spot.schematic.components) :
    ∃ placed, Located library netlist spots spot component placed := by
  obtain ⟨placed, hhosts⟩ := (h.laid spot hspot).hosts component hmem
  exact ⟨placed, hspot, hmem, hhosts⟩

theorem locate {index : Nat} (hlt : index < netlist.parts.length) :
    ∃ spot component placed, Located library netlist spots spot component placed ∧
      placed.part = index := by
  obtain ⟨spot, hspot, component, hmem, placed, hlookup, rfl⟩ := h.part index hlt
  obtain ⟨found, hlocated⟩ := h.host hspot hmem
  obtain rfl := Option.some.inj (hlookup.symm.trans hlocated.hosts.lookup)
  exact ⟨spot, component, placed, hlocated, rfl⟩

theorem partPath (hlocated : Located library netlist spots spot component placed) :
    netlist.partPath placed.part = spot.path component.id := by
  obtain ⟨-, -, part, -, -, hpart, -, hid, hscope⟩ := hlocated.madeOf
  rw [Netlist.partPath, List.getD_eq_getElem?_getD, hpart, Option.getD_some, localPath_eq, hid,
    hscope, (h.laid spot hlocated.listed).path, Site.path]

/-- Different components have different parts. -/
theorem eq_of_part (hlocated : Located library netlist spots spot component placed)
    (hlocated' : Located library netlist spots other component' placed')
    (hpart : placed.part = placed'.part) : spot = other ∧ component = component' := by
  refine h.apart _ hlocated.listed _ hlocated.drawn _ hlocated'.listed _ hlocated'.drawn ?_
  rw [← h.partPath hlocated, hpart, h.partPath hlocated']

/-- Spots with the same ids around them are the same. -/
theorem eq_of_names (hspot : spot ∈ spots) (hother : other ∈ spots)
    (hnames : spot.names = other.names) : spot = other := by
  have hnodup : (spots.map (·.names)).Nodup := by
    have hsites : ((schematic.sites library).map (·.names)).Nodup := by
      refine nodup_sites fun site hsite => ?_
      change site ∈ schematic.sites library at hsite
      rw [← h.sites] at hsite
      obtain ⟨spot, hspot, rfl⟩ := List.mem_map.mp hsite
      exact h.nodup spot hspot
    rw [← h.sites, List.map_map] at hsites
    exact hsites
  exact List.inj_on_of_nodup_map hnodup hspot hother hnames

/-- Every spot but that of the circuit itself is inside an expanded component. -/
theorem around (hspot : spot ∈ spots) : spot.toSite = ⟨[], schematic⟩ ∨
    ∃ outer ∈ spots, ∃ component ∈ outer.schematic.components,
      library.inside? component = some spot.schematic ∧
        spot.names = outer.names ++ [component.id] := by
  have hsite : spot.toSite ∈ schematic.sites library := h.sites ▸ List.mem_map_of_mem hspot
  rcases around_of_mem_sites hsite with htop | ⟨outer, houter, component, hmem, hinside, hnames⟩
  · exact Or.inl htop
  · change outer ∈ schematic.sites library at houter
    rw [← h.sites] at houter
    obtain ⟨outer, hspot, rfl⟩ := List.mem_map.mp houter
    exact Or.inr ⟨outer, hspot, component, hmem, hinside, hnames⟩

/-! ## Boundaries -/

omit h in
theorem nodup_boundaryParts {inside : Schematic} (inner : Placements)
    (hnodup : ((Library.boundaryPorts inside).map (·.id)).Nodup) :
    ((boundaryParts inside inner).map (·.1)).Nodup := by
  rw [boundaryParts, List.map_reverse, List.nodup_reverse, List.Nodup, List.pairwise_map]
  rw [Library.boundaryPorts, List.map_map, List.Nodup, List.pairwise_map] at hnodup
  refine List.Pairwise.filterMap _ ?_ hnodup
  intro first second hne shown hshown shown' hshown'
  obtain ⟨placed, -, rfl⟩ := Option.map_eq_some_iff.mp hshown
  obtain ⟨placed', -, rfl⟩ := Option.map_eq_some_iff.mp hshown'
  exact hne

omit h in
theorem madeOf_boundary (hcomposed : library.Composed)
    (hlocated : Located library netlist spots spot component placed)
    (hboundary : component.definition = Boundary.definition) :
    ∃ part, netlist.parts[placed.part]? = some part ∧
      part.MadeOf (Builtin.boundary.assemble component.args) := by
  obtain ⟨entry, assembly, part, hentry, hassemble, hpart, hmade, -⟩ := hlocated.madeOf
  obtain ⟨-, rfl⟩ := hcomposed.boundary hboundary hentry hassemble
  exact ⟨part, hpart, hmade⟩

/-- Behind the port that a boundary port shows stands its external pin. -/
theorem behind_crossing {inner : Spot} {boundary : Component}
    (hlocated : Located library netlist spots spot component placed)
    (hcrossing : Crossing library netlist spots spot component inner boundary placed') :
    netlist.behind? placed (Boundary.outerDecl boundary.args boundary.id).id =
      some ⟨placed'.part, 1⟩ := by
  obtain ⟨child, hchild, hnames, hschematic, hboundary⟩ :=
    hlocated.hosts.expanded _ hcrossing.inside
  obtain rfl := h.eq_of_names hchild hcrossing.located.listed (hnames.trans hcrossing.names.symm)
  have hmem : ((Boundary.outerDecl boundary.args boundary.id).id, placed'.part) ∈
      placed.boundary := by
    rw [hboundary]
    refine List.mem_reverse.mpr (List.mem_filterMap.mpr ⟨boundary, ?_, ?_⟩)
    · exact List.mem_filter.mpr ⟨hcrossing.located.drawn, decide_eq_true hcrossing.boundary⟩
    · rw [hcrossing.located.hosts.lookup]
      rfl
  have hlookup := lookup_of_mem (hboundary ▸ nodup_boundaryParts child.placements
    (h.exposed child hchild (by simp [hnames]))) hmem
  obtain ⟨part, hpart, hmade⟩ :=
    madeOf_boundary h.composed hcrossing.located hcrossing.boundary
  rw [Netlist.behind?, hlookup, Option.bind_some, position?_of_madeOf hpart hmade]
  rfl

/-- An end at a port of an expanded component attaches that port as a reader only, and
the external pin of the boundary port inside. -/
theorem attachments_expanded {inside : Schematic} {id : String}
    (hlocated : Located library netlist spots spot component placed)
    (hinside : library.inside? component = some inside)
    (hsome : netlist.attachments spot.placements ⟨component.id, id⟩ ≠ []) :
    ∃ port inner boundary placed',
      Crossing library netlist spots spot component inner boundary placed' ∧
      (Boundary.outerDecl boundary.args boundary.id).id = id ∧
      netlist.attachments spot.placements ⟨component.id, id⟩ =
        [(⟨placed.part, port⟩, false), (⟨placed'.part, 1⟩, true)] := by
  obtain ⟨entry, assembly, part, hentry, hassemble, hpart, hmade, -⟩ := hlocated.madeOf
  obtain ⟨-, rfl⟩ := h.composed.expanded hinside hentry hassemble
  rw [Netlist.attachments, hlocated.hosts.lookup] at hsome ⊢
  dsimp only at hsome ⊢
  cases hposition : netlist.position? placed.part id with
  | none =>
    rw [hposition] at hsome
    exact absurd rfl hsome
  | some port =>
    have hfound := (position?_of_madeOf hpart hmade id).symm.trans hposition
    -- the port is one that a boundary port inside shows
    obtain ⟨decl, hdecl, hid⟩ : ∃ decl ∈ Library.boundaryPorts inside, decl.id = id := by
      obtain ⟨hlt, hid, -⟩ := List.findIdx?_eq_some_iff_getElem.mp hfound
      exact ⟨_, List.getElem_mem hlt, of_decide_eq_true hid⟩
    obtain ⟨boundary, hboundary, rfl⟩ := List.mem_map.mp hdecl
    obtain ⟨hdrawn, hdefinition⟩ := List.mem_filter.mp hboundary
    obtain ⟨child, hchild, hnames, rfl, -⟩ := hlocated.hosts.expanded _ hinside
    obtain ⟨placed', hplaced⟩ := h.host hchild hdrawn
    have hcrossing : Crossing library netlist spots spot component child boundary placed' :=
      ⟨hlocated.listed, hlocated.drawn, hinside, hnames, hplaced, of_decide_eq_true hdefinition⟩
    refine ⟨port, child, boundary, placed', hcrossing, hid, ?_⟩
    have hvalid : netlist.parts[placed.part]?.any (·.valid) = false := by
      rw [hpart]
      exact hmade.valid
    unfold Netlist.standing
    rw [← hid, h.behind_crossing hlocated hcrossing]
    simp only [hvalid, Bool.not_false]

/-- A port id is shown by one boundary port only. -/
theorem eq_of_crossing {inner inner' : Spot} {boundary boundary' : Component} {placed placed' : Placed}
    (hcrossing : Crossing library netlist spots spot component inner boundary placed)
    (hcrossing' : Crossing library netlist spots spot component inner' boundary' placed')
    (hid : (Boundary.outerDecl boundary.args boundary.id).id =
      (Boundary.outerDecl boundary'.args boundary'.id).id) :
    inner = inner' ∧ boundary = boundary' ∧ placed = placed' := by
  obtain rfl := h.eq_of_names hcrossing.located.listed hcrossing'.located.listed
    (hcrossing.names.trans hcrossing'.names.symm)
  have hnodup := h.exposed inner hcrossing.located.listed (by simp [hcrossing.names])
  rw [Library.boundaryPorts, List.map_map] at hnodup
  obtain rfl := List.inj_on_of_nodup_map hnodup
    (List.mem_filter.mpr ⟨hcrossing.located.drawn, decide_eq_true hcrossing.boundary⟩)
    (List.mem_filter.mpr ⟨hcrossing'.located.drawn, decide_eq_true hcrossing'.boundary⟩) hid
  exact ⟨rfl, rfl, hcrossing.located.placed_eq hcrossing'.located⟩

end Chart

end

/-! ## Flattening -/

theorem Netlist.grown_reportDrivers (netlist : Netlist) : netlist.Grown netlist.reportDrivers :=
  ⟨List.prefix_rfl, List.prefix_rfl, List.prefix_rfl, List.prefix_append ..⟩

/-- A plain net with several drivers is reported. -/
theorem length_sources_flatten {library : Library} {schematic : Schematic}
    (hnone : (flatten library schematic).diagnostics = []) {index : Nat} {net : Net}
    (hnet : (flatten library schematic).nets[index]? = some net) (hplain : net.tristate = false) :
    net.sources.length ≤ 1 := by
  refine Nat.not_lt.mp fun hlt => ?_
  have hfound := (List.append_eq_nil_iff.mp hnone).2
  have hmem : (net, index) ∈ (flatten library schematic).nets.zipIdx :=
    List.mem_zipIdx_iff_getElem?.mpr hnet
  have hreport := List.filterMap_eq_nil_iff.mp hfound (net, index) hmem
  simp [hplain, hlt] at hreport

/-- A circuit that is laid out without a report can be charted, provided that its
components can be told apart by their paths. -/
theorem exists_chart_of_layout {library : Library} {schematic : Schematic}
    (hcomposed : library.Composed)
    (hunfolds : schematic.Unfolds library (library.entries.length + 1))
    (hnodup : ∀ site ∈ schematic.sites library, (site.schematic.components.map (·.id)).Nodup)
    (hexposed : ∀ site ∈ schematic.sites library, site.names ≠ [] →
      ((Library.boundaryPorts site.schematic).map (·.id)).Nodup)
    (hapart : ∀ site ∈ schematic.sites library, ∀ component ∈ site.schematic.components,
      ∀ other ∈ schematic.sites library, ∀ component' ∈ other.schematic.components,
        site.path component.id = other.path component'.id →
          site.names = other.names ∧ component.id = component'.id)
    (hnone : (layout library (library.entries.length + 1) schematic 0
      { scopes := [⟨none, ""⟩] }).1.diagnostics = []) :
    ∃ spots, Chart library schematic (flatten library schematic) spots ∧
      ∃ root ∈ spots, root.names = [] ∧ root.schematic = schematic ∧
        root.placements = (layout library (library.entries.length + 1) schematic 0
          { scopes := [⟨none, ""⟩] }).2 := by
  let top : Netlist := { scopes := [⟨none, ""⟩] }
  have hgrown := Netlist.grown_reportDrivers
    (layout library (library.entries.length + 1) schematic 0 top).1
  have htop : scopePath top.scopes 0 = Path.ofNames [] := by
    rw [scopePath]
    rfl
  obtain ⟨spots, hsurvey, hsites, -, hroot⟩ := surveys_layout library _ schematic [] 0 top hunfolds
    Nat.zero_lt_one htop hnodup hnone
  change spots.map (·.toSite) = schematic.sites library at hsites
  have hmem : ∀ spot ∈ spots, spot.toSite ∈ schematic.sites library := fun spot hspot =>
    hsites ▸ List.mem_map_of_mem hspot
  refine ⟨spots, ⟨hcomposed, hsites, fun spot hspot =>
    (hsurvey.laid spot hspot).grown hgrown (List.Subset.refl _),
    fun index hlt => hsurvey.part index (Nat.zero_le _) hlt, fun {index net} hnet => ?_,
    fun spot hspot => hnodup _ (hmem spot hspot), fun spot hspot => hexposed _ (hmem spot hspot),
    ?_⟩, hroot⟩
  · obtain ⟨spot, hspot, group, hgroup, hjoins⟩ := hsurvey.net index net (Nat.zero_le _) hnet
    exact ⟨spot, hspot, group, hgroup, hjoins.grown hgrown (hsurvey.laid spot hspot).within⟩
  · intro spot hspot component hdrawn other hother component' hdrawn' hpath
    obtain ⟨hnames, hid⟩ :=
      hapart _ (hmem spot hspot) component hdrawn _ (hmem other hother) component' hdrawn' hpath
    obtain rfl := List.inj_on_of_nodup_map
      (nodup_spots hsites fun spot hspot => hnodup _ (hmem spot hspot)) hspot hother hnames
    exact ⟨rfl, List.inj_on_of_nodup_map (hnodup _ (hmem spot hspot)) hdrawn hdrawn' hid⟩

theorem exists_chart {library : Library} {schematic : Schematic} (hcomposed : library.Composed)
    (hunfolds : schematic.Unfolds library (library.entries.length + 1))
    (hnodup : ∀ site ∈ schematic.sites library, (site.schematic.components.map (·.id)).Nodup)
    (hexposed : ∀ site ∈ schematic.sites library, site.names ≠ [] →
      ((Library.boundaryPorts site.schematic).map (·.id)).Nodup)
    (hapart : ∀ site ∈ schematic.sites library, ∀ component ∈ site.schematic.components,
      ∀ other ∈ schematic.sites library, ∀ component' ∈ other.schematic.components,
        site.path component.id = other.path component'.id →
          site.names = other.names ∧ component.id = component'.id)
    (hnone : (flatten library schematic).diagnostics = []) :
    ∃ spots, Chart library schematic (flatten library schematic) spots := by
  have hgrown := Netlist.grown_reportDrivers
    (layout library (library.entries.length + 1) schematic 0 { scopes := [⟨none, ""⟩] }).1
  obtain ⟨spots, hchart, -⟩ := exists_chart_of_layout hcomposed hunfolds hnodup hexposed hapart
    (hgrown.no_diagnostics hnone)
  exact ⟨spots, hchart⟩

end Breadboard
