import Breadboard.Proofs.Inlined
import Breadboard.Proofs.Parallel

/-!
# What is found at a path

Paths are written with separators between ids. As no id contains one, a path tells
what it is the path of (`Site.eq_of_path`): a component or a wire of one site. So a path
finds the part of that component and the net of that wire (`Chart.partAt?_eq`,
`Chart.mem_netEntries_iff`), and finds in a circuit without hierarchy what became of
what it finds in the circuit with it (`Inlining.directory`).
-/

namespace Breadboard

theorem mem_of_latest? {entries : List (Path × Nat)} {path : Path} {index : Nat}
    (h : latest? entries path = some index) : (path, index) ∈ entries := by
  obtain ⟨left, right, heq, -⟩ := List.lookup_eq_some_iff.mp h
  exact List.mem_reverse.mp (heq ▸ List.mem_append_right _ (List.mem_cons_self ..))

theorem exists_latest? {entries : List (Path × Nat)} {path : Path} {index : Nat}
    (h : (path, index) ∈ entries) : ∃ found, latest? entries path = some found := by
  refine Option.isSome_iff_exists.mp (List.lookup_isSome_iff.mpr ⟨_, List.mem_reverse.mpr h, ?_⟩)
  exact beq_self_eq_true path

theorem Netlist.mem_partEntries {netlist : Netlist} {path : Path} {index : Nat} :
    (path, index) ∈ netlist.partEntries ↔
      index < netlist.parts.length ∧ netlist.partPath index = path := by
  rw [partEntries, List.mem_map]
  constructor
  · rintro ⟨found, hfound, heq⟩
    obtain ⟨rfl, rfl⟩ := Prod.mk.inj heq
    exact ⟨List.mem_range.mp hfound, rfl⟩
  · rintro ⟨hlt, rfl⟩
    exact ⟨index, List.mem_range.mpr hlt, rfl⟩

theorem Netlist.partPath_of_partAt? {netlist : Netlist} {path : Path} {index : Nat}
    (h : netlist.partAt? path = some index) :
    index < netlist.parts.length ∧ netlist.partPath index = path :=
  mem_partEntries.mp (mem_of_latest? h)

namespace Simulation

variable {simulation : Simulation} {path : String} {index : Nat}

theorem lt_of_partAt (h : simulation.partAt path = .ok index) :
    index < simulation.netlist.parts.length := by
  rw [partAt] at h
  split at h
  · next hfound =>
    cases h
    exact (Netlist.partPath_of_partAt? hfound).1
  · cases h

theorem lt_of_partOf {α : Type} {kind : PartKind} {read : Memory → Option α} {found : Nat × α}
    (h : simulation.partOf path kind read = .ok found) :
    found.1 < simulation.netlist.parts.length :=
  lt_of_partAt (partOf_eq_ok_iff.mp h).1

end Simulation

/-! ## Paths of sites -/

/-- All ids within a list of sites can be told apart by their paths. -/
def Distinct (sites : List Site) (ids : Site → List String) : Prop :=
  (sites.flatMap fun site => (ids site).map fun id => (site.path id).text).Nodup

section

variable {library : Library} {schematic : Schematic} {site other : Site} {id id' : String}

/-- Ids are written without separators. -/
def Schematic.Spelled (library : Library) (schematic : Schematic) : Prop :=
  ∀ site ∈ schematic.sites library, ∀ component ∈ site.schematic.components,
    Path.separator ∉ component.id.toList

theorem Schematic.Spelled.names (h : schematic.Spelled library)
    (hsite : site ∈ schematic.sites library) : ∀ name ∈ site.names, Path.separator ∉ name.toList :=
  separator_of_mem_sites h (by simp) hsite

/-- A path tells the site and the id it is made of. -/
theorem Site.eq_of_path (hspelled : schematic.Spelled library)
    (hsite : site ∈ schematic.sites library) (hother : other ∈ schematic.sites library)
    (hid : Path.separator ∉ id.toList) (hid' : Path.separator ∉ id'.toList)
    (hpath : (site.path id).text = (other.path id').text) :
    site.names = other.names ∧ id = id' := by
  obtain ⟨haround, rfl⟩ := Path.eq_of_within hid hid' hpath
  exact ⟨Path.names_eq (hspelled.names hsite) (hspelled.names hother) haround, rfl⟩

theorem distinct_sites (hspelled : schematic.Spelled library)
    (hnodup : ∀ site ∈ schematic.sites library, (site.schematic.components.map (·.id)).Nodup)
    {ids : Site → List String} (hids : ∀ site ∈ schematic.sites library, (ids site).Nodup)
    (hfree : ∀ site ∈ schematic.sites library, ∀ id ∈ ids site, Path.separator ∉ id.toList) :
    Distinct (schematic.sites library) ids := by
  refine List.nodup_flatMap.mpr ⟨fun site hsite => ?_, ?_⟩
  · refine (List.nodup_map_iff_inj_on (hids site hsite)).mpr fun id hid id' hid' hpath => ?_
    exact (Site.eq_of_path hspelled hsite hsite (hfree site hsite id hid)
      (hfree site hsite id' hid') hpath).2
  · have hnames : ((schematic.sites library).map (·.names)).Nodup := nodup_sites hnodup
    refine (List.pairwise_map.mp hnames).imp_of_mem fun {site other} hsite hother hne => ?_
    intro path hpath hpath'
    obtain ⟨id, hid, rfl⟩ := List.mem_map.mp hpath
    obtain ⟨id', hid', heq⟩ := List.mem_map.mp hpath'
    exact hne (Site.eq_of_path hspelled hsite hother (hfree site hsite id hid)
      (hfree other hother id' hid') heq.symm).1

end

/-! ## Charted circuits -/

namespace Chart

variable {library : Library} {schematic : Schematic} {netlist : Netlist} {spots : List Spot}
  {spot : Spot} {component : Component} {placed : Placed} {path : Path} {index : Nat}

variable (h : Chart library schematic netlist spots)

include h

theorem exists_located (hindex : netlist.partAt? path = some index) :
    ∃ spot component placed, Located library netlist spots spot component placed ∧
      placed.part = index ∧ path = spot.path component.id := by
  obtain ⟨hlt, rfl⟩ := Netlist.partPath_of_partAt? hindex
  obtain ⟨spot, component, placed, hlocated, rfl⟩ := h.locate hlt
  exact ⟨spot, component, placed, hlocated, rfl, h.partPath hlocated⟩

/-- The path of a component finds its part. -/
theorem partAt?_eq (hlocated : Located library netlist spots spot component placed) :
    netlist.partAt? (spot.path component.id) = some placed.part := by
  obtain ⟨_, _, _, _, _, hpart, _⟩ := hlocated.madeOf
  obtain ⟨index, hindex⟩ := exists_latest? (Netlist.mem_partEntries.mpr
    ⟨(List.getElem?_eq_some_iff.mp hpart).1, h.partPath hlocated⟩)
  obtain ⟨other, found, place, hother, rfl, hpath⟩ := h.exists_located hindex
  obtain ⟨rfl, rfl⟩ :=
    h.apart _ hlocated.listed _ hlocated.drawn _ hother.listed _ hother.drawn hpath
  rw [hlocated.placed_eq hother]
  exact hindex

/-- The path of a wire belongs to the net that carries it. -/
theorem mem_netEntries_iff : (path, index) ∈ netlist.netEntries ↔
    ∃ spot ∈ spots, ∃ (position : Nat) (wire : Wire), spot.schematic.wires[position]? = some wire ∧
      path = spot.path wire.id ∧ Carries netlist spot position index := by
  rw [Netlist.netEntries, List.mem_flatMap]
  constructor
  · rintro ⟨⟨net, found⟩, hfound, hmem⟩
    obtain ⟨id, hid, heq⟩ := List.mem_map.mp hmem
    obtain ⟨rfl, rfl⟩ := Prod.mk.inj heq
    have hnet := List.mem_zipIdx_iff_getElem?.mp hfound
    obtain ⟨spot, hspot, group, hgroup, hjoins⟩ := h.net hnet
    rw [hjoins.ids] at hid
    obtain ⟨wire, hwire, rfl⟩ := List.mem_map.mp hid
    obtain ⟨position, hposition, hwire⟩ := List.mem_filterMap.mp hwire
    refine ⟨spot, hspot, position, wire, hwire, ?_, group, hgroup, hposition, net, hnet, hjoins⟩
    rw [localPath_eq, hjoins.scope_eq, (h.laid spot hspot).path, Site.path]
  · rintro ⟨spot, hspot, position, wire, hwire, rfl, group, hgroup, hposition, net, hnet, hjoins⟩
    refine ⟨(net, index), List.mem_zipIdx_iff_getElem?.mpr hnet,
      List.mem_map.mpr ⟨wire.id, ?_, ?_⟩⟩
    · rw [hjoins.ids]
      exact List.mem_map_of_mem (List.mem_filterMap.mpr ⟨position, hposition, hwire⟩)
    · rw [localPath_eq, hjoins.scope_eq, (h.laid spot hspot).path, Site.path]

/-- A net is known by the path of its first wire. -/
theorem netPath_mem (hindex : index < netlist.nets.length) :
    (netlist.netPath index, index) ∈ netlist.netEntries := by
  obtain ⟨spot, -, position, wire, hwire, group, -, hposition, net, hnet, hjoins⟩ :=
    h.exists_carried hindex
  have hid : wire.id ∈ net.wires := by
    rw [hjoins.ids]
    exact List.mem_map_of_mem (List.mem_filterMap.mpr ⟨position, hposition, hwire⟩)
  refine List.mem_flatMap.mpr ⟨(net, index), List.mem_zipIdx_iff_getElem?.mpr hnet, ?_⟩
  rw [Netlist.netPath, List.getD_eq_getElem?_getD, hnet, Option.getD_some]
  obtain ⟨first, rest, hwires⟩ := List.exists_cons_of_ne_nil (List.ne_nil_of_mem hid)
  simp only [hwires, List.map_cons]
  exact List.mem_cons_self ..

end Chart

/-! ## With and without hierarchy -/

namespace Inlining

variable {library : Library} {schematic : Schematic} {nested flat : Netlist} {spots : List Spot}
  {root spot : Spot} {component : Component} {placed placed' : Placed} {p q : Nat}

variable (h : Inlining library schematic nested flat spots root)

include h

theorem path_root (id : String) : root.path id = ⟨id⟩ := by
  rw [Site.path, h.names_root]
  rfl

/-- A component has the same path in both circuits. -/
theorem path_leaf (spot : Spot) (component : Component) :
    root.path (spot.leaf component).id = spot.path component.id := by
  rw [h.path_root]
  rfl

theorem partAt?_leaf (hleaf : Leaf library nested flat spots root spot component placed placed') :
    nested.partAt? (spot.path component.id) = some placed.part ∧
      flat.partAt? (spot.path component.id) = some placed'.part := by
  refine ⟨h.chart.partAt?_eq hleaf.located, ?_⟩
  rw [← h.path_leaf spot component]
  exact h.flat.partAt?_eq hleaf.twin

/-- A part has one twin, and is that of no other part. -/
theorem eq_iff_of_samePart {p' q' : Nat} (hsame : SamePart library nested flat spots root p q)
    (hsame' : SamePart library nested flat spots root p' q') : p = p' ↔ q = q' := by
  obtain ⟨spot, component, placed, placed', hleaf, rfl, rfl⟩ := hsame
  obtain ⟨other, found, place, place', hother, rfl, rfl⟩ := hsame'
  constructor
  · intro hpart
    obtain ⟨rfl, rfl⟩ := h.chart.eq_of_part hleaf.located hother.located hpart
    rw [hleaf.twin.placed_eq hother.twin]
  · intro hpart
    obtain ⟨-, heq⟩ := h.flat.eq_of_part hleaf.twin hother.twin hpart
    have hpath : spot.path component.id = other.path found.id := by
      rw [← h.path_leaf spot component, heq, h.path_leaf]
    obtain ⟨rfl, rfl⟩ := h.chart.apart _ hleaf.located.listed _ hleaf.located.drawn _
      hother.located.listed _ hother.located.drawn hpath
    rw [hleaf.located.placed_eq hother.located]

theorem directory_part (path : Path) :
    (∃ p q, nested.partAt? path = some p ∧ flat.partAt? path = some q ∧
      SamePart library nested flat spots root p q) ∨
    flat.partAt? path = none ∧ ∀ p, nested.partAt? path = some p →
      ∃ placed, nested.parts[p]? = some placed ∧ placed.device.remembers = false := by
  cases hflat : flat.partAt? path with
  | some q =>
    obtain ⟨hlt, rfl⟩ := Netlist.partPath_of_partAt? hflat
    obtain ⟨spot, component, placed, placed', hleaf, rfl⟩ := h.exists_leaf_of_flat hlt
    rw [h.flat.partPath hleaf.twin, h.path_leaf]
    exact Or.inl ⟨placed.part, placed'.part, (h.partAt?_leaf hleaf).1, rfl, spot, component,
      placed, placed', hleaf, rfl, rfl⟩
  | none =>
    refine Or.inr ⟨rfl, fun p hp => ?_⟩
    obtain ⟨hlt, rfl⟩ := Netlist.partPath_of_partAt? hp
    have hpart := List.getElem?_eq_getElem hlt
    generalize nested.parts[p] = owner at hpart
    refine ⟨owner, hpart, ?_⟩
    rcases h.cases_of_part hpart with
      ⟨q, spot, component, placed, placed', hleaf, rfl, rfl⟩ | hseam | hinert
    · rw [h.chart.partPath hleaf.located, (h.partAt?_leaf hleaf).2] at hflat
      cases hflat
    · obtain ⟨found, args, hfound, hmade, -⟩ := h.seams.boundary hseam
      obtain rfl := Option.some.inj (hfound.symm.trans hpart)
      rw [hmade.device]
      rfl
    · rw [hinert]
      rfl

/-- The wire of a segment is found where the segment is. -/
theorem path_segment {position index segment : Nat} {wire : Wire}
    (hholds : Holds nested spots (schematic.segments library) spot position wire index segment) :
    ∃ wire', (schematic.inlined library).wires[segment]? = some wire' ∧
      root.path wire'.id = spot.path wire.id := by
  have hwire : (schematic.inlined library).wires[segment]? =
      (schematic.segments library)[segment]?.map _ := List.getElem?_mapIdx
  rw [hholds.segment, Option.map_some] at hwire
  exact ⟨_, hwire, h.path_root _⟩

theorem mem_flat_iff {path : Path} {m : Nat} : (path, m) ∈ flat.netEntries ↔ ∃ spot position wire n segment,
    Holds nested spots (schematic.segments library) spot position wire n segment ∧
      path = spot.path wire.id ∧ Carries flat root segment m := by
  rw [h.flat.mem_netEntries_iff]
  constructor
  · rintro ⟨found, hfound, segment, wire', hwire', hpath, hcarries⟩
    obtain rfl := List.mem_singleton.mp hfound
    rw [h.schematic_root] at hwire'
    have hlt := (List.getElem?_eq_some_iff.mp hwire').1
    rw [length_wires_inlined] at hlt
    obtain ⟨spot, position, wire, n, hholds, -⟩ :=
      h.chart.exists_holds (List.getElem?_eq_getElem hlt)
    obtain ⟨found', hfound', hsame⟩ := h.path_segment hholds
    obtain rfl := Option.some.inj (hwire'.symm.trans hfound')
    exact ⟨spot, position, wire, n, segment, hholds, hpath.trans hsame, hcarries⟩
  · rintro ⟨spot, position, wire, n, segment, hholds, rfl, hcarries⟩
    obtain ⟨wire', hwire', hsame⟩ := h.path_segment hholds
    exact ⟨root, List.mem_singleton_self root, segment, wire', h.schematic_root.symm ▸ hwire',
      hsame.symm, hcarries⟩

/-- What a path of a net finds without hierarchy is what the net was merged into. -/
theorem exists_merged (hdistinct : ((schematic.segments library).map (·.id)).Nodup) {path : Path}
    {n : Nat} (hmem : (path, n) ∈ nested.netEntries) : ∃ m, flat.netAt? path = some m ∧
      Merged library schematic nested flat spots root n m := by
  obtain ⟨spot, hspot, position, wire, hwire, rfl, hcarries⟩ := h.chart.mem_netEntries_iff.mp hmem
  obtain ⟨segment, hsegment⟩ := h.chart.exists_segment hspot hwire
  have hholds : Holds nested spots (schematic.segments library) spot position wire n segment :=
    ⟨hspot, hwire, hsegment, hcarries⟩
  have hlt := (List.getElem?_eq_some_iff.mp hsegment).1
  have hwired : segment < root.schematic.wires.length := by
    rwa [h.schematic_root, length_wires_inlined]
  obtain ⟨m, hcarries'⟩ := h.flat.exists_carries (List.mem_singleton_self root) hwired
  obtain ⟨found, hfound⟩ := exists_latest?
    (h.mem_flat_iff.mpr ⟨spot, position, wire, n, segment, hholds, rfl, hcarries'⟩)
  obtain ⟨other, position', wire', n', segment', hholds', hpath, hcarries''⟩ :=
    h.mem_flat_iff.mp (mem_of_latest? hfound)
  -- a path is that of one segment
  obtain rfl : segment = segment' := by
    refine (List.getElem?_inj (by rwa [List.length_map]) hdistinct).mp ?_
    rw [List.getElem?_map, List.getElem?_map, hsegment, hholds'.segment]
    exact congrArg (some ·.text) hpath
  exact ⟨found, hfound, spot, position, wire, segment, segment, hholds, .refl _, hcarries''⟩

/-- Both circuits find nets at the same paths. -/
theorem directory_net (hdistinct : ((schematic.segments library).map (·.id)).Nodup) (path : Path) :
    (∃ n m, nested.netAt? path = some n ∧ flat.netAt? path = some m ∧
      Merged library schematic nested flat spots root n m) ∨
    nested.netAt? path = none ∧ flat.netAt? path = none := by
  cases hnested : nested.netAt? path with
  | some n =>
    obtain ⟨m, hm, hmerged⟩ := h.exists_merged hdistinct (mem_of_latest? hnested)
    exact Or.inl ⟨n, m, rfl, hm, hmerged⟩
  | none =>
    refine Or.inr ⟨rfl, ?_⟩
    cases hflat : flat.netAt? path with
    | none => rfl
    | some m =>
      obtain ⟨spot, position, wire, n, segment, hholds, rfl, -⟩ :=
        h.mem_flat_iff.mp (mem_of_latest? hflat)
      obtain ⟨found, hfound⟩ := exists_latest? (h.chart.mem_netEntries_iff.mpr
        ⟨spot, hholds.listed, position, wire, hholds.found, rfl, hholds.carries⟩)
      exact nomatch hnested.symm.trans hfound

theorem directory (hdistinct : ((schematic.segments library).map (·.id)).Nodup) :
    Simulation.Directory nested flat (SamePart library nested flat spots root)
      (Merged library schematic nested flat spots root) :=
  ⟨h.eq_iff_of_samePart, h.directory_part, h.directory_net hdistinct,
    fun _ hn => h.exists_merged hdistinct (h.chart.netPath_mem hn)⟩

end Inlining

end Breadboard
