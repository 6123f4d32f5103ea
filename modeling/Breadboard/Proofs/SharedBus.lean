import Breadboard.Proofs.Carried
import Breadboard.Proofs.Clean

/-!
# Drivers that share a bus

A tri-state buffer can be put between boundary ports: two plain ones take its data and
its enable line in, a tri-state one lets its output out (`busDriver`). What results has
the ports of a buffer again, so that it can be wrapped once more (`Library.Wraps`).
Drivers wrapped to any depth are put on one bus, each with an input for its data and
one for its enable line, and a probe listens (`busCircuit`).

All schematics of such a circuit are the circuit itself and the ones around the buffers
(`site_cases`), and they are sensible (`sensible_of_mem_sites`).
-/

namespace Breadboard

/-! ## Wires without common ends -/

/-- No two wires end at one port. -/
def Disjoint (wires : List Wire) : Prop :=
  wires.Pairwise fun near far => ∀ endpoint ∈ near.endpoints, endpoint ∉ far.endpoints

section

variable {wires : List Wire} {a b : Nat} {wire : Wire} {endpoint : Endpoint}

theorem Disjoint.eq_of_linked (h : Disjoint wires) (hlinked : Linked wires a b) : a = b := by
  induction hlinked with
  | refl => rfl
  | @head a b _ htouch _ ih =>
    refine Eq.trans ?_ ih
    obtain ⟨near, far, hnear, hfar, htouches⟩ := mem_touching.mp htouch
    obtain ⟨endpoint, hend, hend'⟩ := Wire.touches_iff.mp htouches
    obtain ⟨ha, rfl⟩ := List.getElem?_eq_some_iff.mp hnear
    obtain ⟨hb, rfl⟩ := List.getElem?_eq_some_iff.mp hfar
    have hapart := List.pairwise_iff_getElem.mp h
    rcases Nat.lt_trichotomy a b with hlt | heq | hgt
    · exact absurd hend' (hapart a b ha hb hlt endpoint hend)
    · exact heq
    · exact absurd hend (hapart b a hb ha hgt endpoint hend')

theorem Disjoint.wireEnd_iff (h : Disjoint wires) (hwire : wires[a]? = some wire) :
    WireEnd wires a endpoint ↔ endpoint ∈ wire.endpoints := by
  constructor
  · rintro ⟨other, found, hlinked, hfound, hend⟩
    obtain rfl := h.eq_of_linked hlinked
    obtain rfl := Option.some.inj (hwire.symm.trans hfound)
    exact hend
  · exact WireEnd.self hwire

/-- Only one wire ends at a port. -/
theorem Disjoint.eq_of_wireEnd (h : Disjoint wires) (hend : WireEnd wires a endpoint)
    (hend' : WireEnd wires b endpoint) : a = b := by
  obtain ⟨other, found, hlinked, hfound, hmem⟩ := hend
  obtain ⟨other', found', hlinked', hfound', hmem'⟩ := hend'
  have htouch : Linked wires other other' :=
    .head (mem_touching.mpr ⟨found, found', hfound, hfound',
      Wire.touches_iff.mpr ⟨endpoint, hmem, hmem'⟩⟩) (.refl _)
  exact h.eq_of_linked ((hlinked.trans htouch).trans (Linked.symm hlinked'))

end

/-! ## Wrapping a buffer -/

/-- The ports of a tri-state buffer for a bus of eight lines. -/
def busPorts : List PortDecl :=
  [⟨"in", .dataIn, 8⟩, ⟨"en", .ctrlIn, 1⟩, ⟨"out", .dataOutTri, 8⟩]

/-- The boundary ports that show them. -/
def dataPort : Component :=
  ⟨"in", Builtin.boundary.id, .obj [("dir", .str "in"), ("width", .int 8), ("data", .bool true)]⟩

def enablePort : Component :=
  ⟨"en", Builtin.boundary.id, .obj [("dir", .str "in"), ("width", .int 1), ("ctrl", .bool true)]⟩

def outPort : Component :=
  ⟨"out", Builtin.boundary.id,
    .obj [("dir", .str "out"), ("width", .int 8), ("tristate", .bool true), ("data", .bool true)]⟩

/-- A component with the ports of a buffer between these boundary ports. -/
def busDriver (inner : Component) : Schematic where
  components := [dataPort, enablePort, outPort, inner]
  wires :=
    [⟨"wi", [⟨dataPort.id, "a"⟩, ⟨inner.id, "in"⟩]⟩,
      ⟨"wen", [⟨enablePort.id, "a"⟩, ⟨inner.id, "en"⟩]⟩,
      ⟨"wo", [⟨inner.id, "out"⟩, ⟨outPort.id, "a"⟩]⟩]

/-- The component is a tri-state buffer that is wrapped this many times. -/
inductive Library.Wraps (library : Library) : Nat → Component → Prop where
  | buffer {component : Component} : component.definition = Builtin.buffer.id →
      component.args.width "width" 1 = 8 → Wraps library 0 component
  | wrap {depth : Nat} {component inner : Component} : Wraps library depth inner →
      inner.id = "buf" → library.inside? component = some (busDriver inner) →
      Wraps library (depth + 1) component

/-- The library has all built-in definitions, and otherwise schematics that do not
contain themselves and leave the outer sides of their boundary ports alone. -/
structure Library.Furnished (library : Library) : Prop where
  composed : library.Composed
  acyclic : library.Acyclic
  sealed : library.Sealed
  builtin : ∀ builtin : Builtin, library.get? builtin.id = some ⟨.ofBuiltin builtin, none⟩

section

variable {library : Library} {component inner : Component} {inside : Schematic} {depth : Nat}
  {id : String}

namespace Library.Furnished

theorem inside?_eq_none (h : library.Furnished) (builtin : Builtin)
    (hdefinition : component.definition = builtin.id) : library.inside? component = none := by
  rw [Library.inside?, hdefinition, h.builtin, Option.bind_some]

theorem assembly?_eq (h : library.Furnished) (builtin : Builtin)
    (hdefinition : component.definition = builtin.id) :
    library.assembly? component = some (builtin.assemble component.args) := by
  rw [Library.assembly?, hdefinition, h.builtin, Option.bind_some]
  rfl

end Library.Furnished

namespace Located

variable {netlist : Netlist} {spots : List Spot} {spot : Spot} {placed : Placed}
  (h : Located library netlist spots spot component placed) (hlibrary : library.Furnished)

include h hlibrary

/-- The part of a built-in component. -/
theorem madeOf_builtin (builtin : Builtin) (hdefinition : component.definition = builtin.id) :
    ∃ part, netlist.parts[placed.part]? = some part ∧
      part.MadeOf (builtin.assemble component.args) ∧ part.scope = spot.scope := by
  obtain ⟨entry, assembly, part, hentry, hassemble, hpart, hmade, -, hscope⟩ := h.madeOf
  rw [hdefinition, hlibrary.builtin] at hentry
  obtain rfl := Option.some.inj hentry
  obtain rfl := Except.ok.inj hassemble
  exact ⟨part, hpart, hmade, hscope⟩

theorem position?_builtin (builtin : Builtin) (hdefinition : component.definition = builtin.id)
    (id : String) : netlist.position? placed.part id =
      (builtin.assemble component.args).ports.findIdx? (·.id = id) := by
  obtain ⟨part, hpart, hmade, -⟩ := h.madeOf_builtin hlibrary _ hdefinition
  exact position?_of_madeOf hpart hmade id

/-- What an end at a built-in component attaches. -/
theorem attachments_builtin (builtin : Builtin) (hdefinition : component.definition = builtin.id)
    (id : String) (k : Nat)
    (hposition : (builtin.assemble component.args).ports.findIdx? (·.id = id) = some k) :
    netlist.attachments spot.placements ⟨component.id, id⟩ = [(⟨placed.part, k⟩, true)] := by
  rw [Netlist.attachments, h.hosts.lookup]
  dsimp only
  rw [h.position?_builtin hlibrary _ hdefinition, hposition]
  dsimp only
  rw [Netlist.standing, Netlist.behind?,
    h.hosts.plain (hlibrary.inside?_eq_none _ hdefinition)]
  rfl

end Located

namespace Library.Wraps

theorem inside?_eq (hlibrary : library.Furnished) (h : library.Wraps depth component) :
    library.inside? component = none ∧ depth = 0 ∧ component.definition = Builtin.buffer.id ∧
      component.args.width "width" 1 = 8 ∨
    ∃ inner less, depth = less + 1 ∧ library.Wraps less inner ∧ inner.id = "buf" ∧
      library.inside? component = some (busDriver inner) := by
  cases h with
  | buffer hdefinition hwidth =>
    exact .inl ⟨hlibrary.inside?_eq_none _ hdefinition, rfl, hdefinition, hwidth⟩
  | wrap hinner hid hinside => exact .inr ⟨_, _, rfl, hinner, hid, hinside⟩

/-- A driver that is built in is a buffer. -/
theorem eq_buffer (hlibrary : library.Furnished) (h : library.Wraps depth component)
    (builtin : Builtin) (hdefinition : component.definition = builtin.id) : builtin = .buffer := by
  rcases h.inside?_eq hlibrary with ⟨-, -, hbuffer, -⟩ | ⟨_, _, -, -, -, hinside⟩
  · exact Builtin.id_injective (hdefinition.symm.trans hbuffer)
  · cases (hlibrary.inside?_eq_none _ hdefinition).symm.trans hinside

theorem not_boundary (hlibrary : library.Furnished) (h : library.Wraps depth component) :
    component.definition ≠ Boundary.definition := fun hboundary =>
  nomatch h.eq_buffer hlibrary .boundary hboundary

end Library.Wraps

/-- What a driver shows are the ports of a buffer. -/
theorem boundaryPorts_busDriver (h : inner.definition ≠ Boundary.definition) :
    Library.boundaryPorts (busDriver inner) = busPorts := by
  simp only [Library.boundaryPorts, busDriver, List.filter_cons, decide_eq_false h, List.filter_nil]
  rfl

/-- The boundary ports inside a wrapped driver differ in their ids. -/
theorem Library.Wraps.nodup_exposed (hlibrary : library.Furnished)
    (h : library.Wraps depth component) (hinside : library.inside? component = some inside) :
    ((Library.boundaryPorts inside).map (·.id)).Nodup := by
  rcases h.inside?_eq hlibrary with ⟨hnone, -⟩ | ⟨core, _, -, hcore, -, hsome⟩
  · cases hnone.symm.trans hinside
  · obtain rfl := Option.some.inj (hsome.symm.trans hinside)
    rw [boundaryPorts_busDriver (hcore.not_boundary hlibrary)]
    decide

theorem Library.Wraps.exists_assembly (hlibrary : library.Furnished)
    (h : library.Wraps depth component) : ∃ assembly, library.assembly? component = some assembly ∧
      ∀ id, assembly.ports.find? (·.id = id) = busPorts.find? (·.id = id) := by
  rcases h.inside?_eq hlibrary with ⟨-, -, hbuffer, hwidth⟩ | ⟨inner, less, -, hinner, -, hinside⟩
  · refine ⟨_, hlibrary.assembly?_eq _ hbuffer, fun id => ?_⟩
    simp only [Builtin.assemble, Builtin.ports, hwidth, busPorts, List.find?_cons, List.find?_nil]
    by_cases hin : "in" = id
    · subst hin
      rfl
    · by_cases hen : "en" = id <;> simp [hin, hen]
  · obtain ⟨entry, hentry, hexpand⟩ := Option.bind_eq_some_iff.mp hinside
    have hmem := Library.mem_of_get? hentry
    rcases hlibrary.composed entry hmem.1 with ⟨builtin, rfl⟩ | ⟨id, found, -, rfl⟩
    · cases hexpand
    · obtain rfl := Option.some.inj hexpand
      refine ⟨Assembly.hollow (Library.boundaryPorts (busDriver inner)), ?_, fun id => ?_⟩
      · rw [Library.assembly?, hentry]
        rfl
      · rw [← boundaryPorts_busDriver (hinner.not_boundary hlibrary)]
        rfl

end

/-! ## The circuit -/

/-- A driver of the bus, with the inputs for its data and for its enable line. -/
structure Lane (library : Library) where
  data : Component
  enable : Component
  driver : Component
  depth : Nat
  data_input : data.definition = Builtin.input.id
  data_width : data.args.width "width" 1 = 8
  enable_input : enable.definition = Builtin.input.id
  enable_width : enable.args.width "width" 1 = 1
  wraps : library.Wraps depth driver

section

variable {library : Library}

namespace Lane

def components (lane : Lane library) : List Component :=
  [lane.data, lane.enable, lane.driver]

/-- The inputs are wired to the driver. -/
def wires (lane : Lane library) : List Wire :=
  [⟨lane.data.id, [⟨lane.data.id, "out"⟩, ⟨lane.driver.id, "in"⟩]⟩,
    ⟨lane.enable.id, [⟨lane.enable.id, "out"⟩, ⟨lane.driver.id, "en"⟩]⟩]

/-- Where the driver puts its data. -/
def outlet (lane : Lane library) : Endpoint :=
  ⟨lane.driver.id, "out"⟩

end Lane

/-- A probe for a bus of eight lines. -/
def busProbe : Component :=
  ⟨"probe", Builtin.probe.id, .obj [("width", .int 8)]⟩

/-- All drivers on one bus, with a probe. -/
def busCircuit (lanes : List (Lane library)) : Schematic where
  components := lanes.flatMap Lane.components ++ [busProbe]
  wires := lanes.flatMap Lane.wires ++
    [⟨"bus", lanes.map Lane.outlet ++ [⟨busProbe.id, "in"⟩]⟩]

/-- There is a driver, ids differ and contain no separator, and no input is called like
the bus. -/
structure Laned (lanes : List (Lane library)) : Prop where
  inhabited : lanes ≠ []
  nodup : ((busCircuit lanes).components.map (·.id)).Nodup
  spelled : ∀ component ∈ (busCircuit lanes).components,
    Path.separator ∉ component.id.toList
  unnamed : ∀ wire ∈ lanes.flatMap Lane.wires, wire.id ≠ "bus"

variable {lanes : List (Lane library)} {lane other : Lane library} {component : Component}

theorem mem_components_of_lane (hlane : lane ∈ lanes) (h : component ∈ lane.components) :
    component ∈ (busCircuit lanes).components :=
  List.mem_append_left _ (List.mem_flatMap.mpr ⟨lane, hlane, h⟩)

theorem busProbe_mem_components (lanes : List (Lane library)) :
    busProbe ∈ (busCircuit lanes).components :=
  List.mem_append_right _ (List.mem_singleton_self _)

/-- A wire of a lane leads from an input to a port of the driver. -/
theorem Lane.end_cases {wire : Wire} {endpoint : Endpoint} (hwire : wire ∈ lane.wires)
    (hend : endpoint ∈ wire.endpoints) :
    (∃ input ∈ lane.components, input.definition = Builtin.input.id ∧
      endpoint = ⟨input.id, "out"⟩) ∨
    endpoint.component = lane.driver.id ∧ endpoint.port ≠ "out" := by
  simp only [Lane.wires, List.mem_cons, List.not_mem_nil, or_false] at hwire
  rcases hwire with rfl | rfl <;>
    simp only [List.mem_cons, List.not_mem_nil, or_false] at hend <;> rcases hend with rfl | rfl
  · exact .inl ⟨lane.data, by simp [Lane.components], lane.data_input, rfl⟩
  · exact .inr ⟨rfl, show "in" ≠ "out" by decide⟩
  · exact .inl ⟨lane.enable, by simp [Lane.components], lane.enable_input, rfl⟩
  · exact .inr ⟨rfl, show "en" ≠ "out" by decide⟩

theorem Lane.exists_component {wire : Wire} {endpoint : Endpoint} (hwire : wire ∈ lane.wires)
    (hend : endpoint ∈ wire.endpoints) : endpoint.component ∈ lane.components.map (·.id) := by
  rcases lane.end_cases hwire hend with ⟨input, hmem, -, rfl⟩ | ⟨hdriver, -⟩
  · exact List.mem_map_of_mem hmem
  · rw [hdriver]
    exact List.mem_map_of_mem (by simp [Lane.components])

namespace Laned

variable (h : Laned lanes)

include h

theorem ids : (lanes.flatMap fun lane => lane.components.map (·.id)).Nodup ∧
    ∀ lane ∈ lanes, ∀ component ∈ lane.components, component.id ≠ busProbe.id := by
  have hnodup := h.nodup
  rw [busCircuit, List.map_append, List.map_flatMap, List.nodup_append] at hnodup
  refine ⟨hnodup.1, fun lane hlane component hmem => ?_⟩
  exact hnodup.2.2 _ (List.mem_flatMap.mpr ⟨lane, hlane, List.mem_map_of_mem hmem⟩) _
    (List.mem_singleton_self _)

theorem nodup_drivers : (lanes.map (·.driver.id)).Nodup := by
  have hmem : ∀ lane : Lane library, lane.driver.id ∈ lane.components.map (·.id) := fun lane =>
    List.mem_map_of_mem (by simp [Lane.components])
  refine List.pairwise_map.mpr ((List.nodup_flatMap.mp h.ids.1).2.imp ?_)
  intro lane other hapart heq
  exact hapart (hmem lane) (heq ▸ hmem other)

/-- An input is not a driver. -/
theorem input_ne_driver (hlibrary : library.Furnished) (hlane : lane ∈ lanes)
    (hother : other ∈ lanes) (hmem : component ∈ lane.components)
    (hinput : component.definition = Builtin.input.id) : component.id ≠ other.driver.id := by
  intro hid
  obtain rfl := List.inj_on_of_nodup_map h.nodup (mem_components_of_lane hlane hmem)
    (mem_components_of_lane hother (by simp [Lane.components])) hid
  exact nomatch other.wraps.eq_buffer hlibrary .input hinput

theorem disjoint (hlibrary : library.Furnished) : Disjoint (busCircuit lanes).wires := by
  obtain ⟨hids, hprobe⟩ := h.ids
  obtain ⟨hwithin, hacross⟩ := List.nodup_flatMap.mp hids
  refine List.pairwise_append.mpr ⟨List.pairwise_flatMap.mpr ⟨fun lane hlane => ?_, ?_⟩,
    List.pairwise_singleton _ _, fun wire hwire bus hbus endpoint hend hshared => ?_⟩
  · have hne : lane.data.id ≠ lane.enable.id := by
      have hlocal := hwithin lane hlane
      simp only [Lane.components, List.map_cons, List.nodup_cons, List.mem_cons, not_or] at hlocal
      exact hlocal.1.1
    simp [Lane.wires, hne]
  · exact hacross.imp fun hapart wire hwire wire' hwire' endpoint hend hend' =>
      hapart (Lane.exists_component hwire hend) (Lane.exists_component hwire' hend')
  · obtain ⟨lane, hlane, hwire⟩ := List.mem_flatMap.mp hwire
    rw [List.mem_singleton.mp hbus, List.mem_append, List.mem_map, List.mem_singleton] at hshared
    rcases lane.end_cases hwire hend with ⟨input, hmem, hinput, rfl⟩ | ⟨hdriver, hport⟩
    · rcases hshared with ⟨other, hother, heq⟩ | heq
      · exact h.input_ne_driver hlibrary hlane hother hmem hinput
          (congrArg Endpoint.component heq.symm)
      · exact absurd (congrArg Endpoint.port heq) (show "out" ≠ "in" by decide)
    · rcases hshared with ⟨other, -, rfl⟩ | rfl
      · exact hport rfl
      · exact hprobe lane hlane lane.driver (by simp [Lane.components]) hdriver.symm

end Laned

end

/-! ## The schematics of the circuit -/

section

variable {library : Library} {schematic inside : Schematic} {component inner driver source : Component}
  {assembly : Assembly} {depth : Nat} {port : PortDecl} {pin : String}

theorem Schematic.decl?_eq (hnodup : (schematic.components.map (·.id)).Nodup)
    (hmem : component ∈ schematic.components)
    (hassembly : library.assembly? component = some assembly) (id : String) :
    schematic.decl? library ⟨component.id, id⟩ = assembly.ports.find? (·.id = id) := by
  rw [Schematic.decl?, Schematic.find?_eq_of_mem hnodup hmem, Option.bind_some, hassembly,
    Option.bind_some]

theorem Disjoint.ends (h : Disjoint schematic.wires)
    (hwires : ∀ wire ∈ schematic.wires, ∃ width, ∀ endpoint ∈ wire.endpoints,
      ∃ decl, schematic.decl? library endpoint = some decl ∧ decl.width = width) :
    ∀ group ∈ wireGroups schematic.wires, ∃ width, ∀ endpoint,
      Netlist.GroupEnd schematic.wires group endpoint →
        ∃ decl, schematic.decl? library endpoint = some decl ∧ decl.width = width := by
  intro group hgroup
  obtain ⟨first, hfirst, hmem⟩ := mem_wireGroups hgroup
  have hwire := List.getElem?_eq_getElem hfirst
  obtain ⟨width, hends⟩ := hwires _ (List.getElem_mem hfirst)
  refine ⟨width, fun endpoint hend => hends endpoint ?_⟩
  exact (h.wireEnd_iff hwire).mp
    ((groupEnd_iff_wireEnd hgroup ((hmem first).mpr (.refl first))).mp hend)

/-- A built-in component, and nothing else, drives a port of a driver. -/
structure Schematic.Supplies (library : Library) (schematic : Schematic) (driver : Component)
    (port : PortDecl) (source : Component) (pin : String) : Prop where
  drawn : source ∈ schematic.components
  builtin : ∃ builtin : Builtin, source.definition = builtin.id
  wire : ∃ id, ⟨id, [⟨source.id, pin⟩, ⟨driver.id, port.id⟩]⟩ ∈ schematic.wires
  plain : ∃ decl, schematic.decl? library ⟨source.id, pin⟩ = some decl ∧
    decl.type.output = true ∧ decl.type.tristate = false ∧ decl.width = port.width

/-! ### Around a driver -/

theorem not_separated_busDriver (hid : inner.id = "buf") :
    ∀ component ∈ (busDriver inner).components, Path.separator ∉ component.id.toList := by
  simp only [busDriver, List.forall_mem_cons, hid]
  decide

theorem nodup_busDriver (hid : inner.id = "buf") :
    ((busDriver inner).components.map (·.id)).Nodup := by
  simp only [busDriver, List.map_cons, hid]
  decide

theorem disjoint_busDriver (hid : inner.id = "buf") : Disjoint (busDriver inner).wires := by
  simp only [busDriver, hid]
  unfold Disjoint
  decide

/-- What is expanded around a driver is the driver. -/
theorem eq_of_expanded_busDriver (hlibrary : library.Furnished)
    (hmem : component ∈ (busDriver inner).components)
    (hinside : library.inside? component = some inside) : component = inner := by
  simp only [busDriver, List.mem_cons, List.not_mem_nil, or_false] at hmem
  rcases hmem with rfl | rfl | rfl | rfl
  · cases (hlibrary.inside?_eq_none .boundary rfl).symm.trans hinside
  · cases (hlibrary.inside?_eq_none .boundary rfl).symm.trans hinside
  · cases (hlibrary.inside?_eq_none .boundary rfl).symm.trans hinside
  · rfl

theorem decl?_driver (hlibrary : library.Furnished)
    (hnodup : (schematic.components.map (·.id)).Nodup) (hmem : driver ∈ schematic.components)
    (hwraps : library.Wraps depth driver) (id : String) :
    schematic.decl? library ⟨driver.id, id⟩ = busPorts.find? (·.id = id) := by
  obtain ⟨assembly, hassembly, hports⟩ := hwraps.exists_assembly hlibrary
  rw [Schematic.decl?_eq hnodup hmem hassembly, hports]

theorem decl?_builtin (hlibrary : library.Furnished)
    (hnodup : (schematic.components.map (·.id)).Nodup) (hmem : component ∈ schematic.components)
    (builtin : Builtin) (hdefinition : component.definition = builtin.id) (id : String) :
    schematic.decl? library ⟨component.id, id⟩ =
      (builtin.assemble component.args).ports.find? (·.id = id) :=
  Schematic.decl?_eq hnodup hmem (hlibrary.assembly?_eq _ hdefinition) id

/-- The boundary ports supply the driver between them. -/
theorem supplies_busDriver (hlibrary : library.Furnished) (hid : inner.id = "buf") :
    (busDriver inner).Supplies library inner ⟨"in", .dataIn, 8⟩ dataPort "a" ∧
      (busDriver inner).Supplies library inner ⟨"en", .ctrlIn, 1⟩ enablePort "a" := by
  have hnodup := nodup_busDriver hid
  have hdata : dataPort ∈ (busDriver inner).components := List.mem_cons_self ..
  have henable : enablePort ∈ (busDriver inner).components :=
    List.mem_cons_of_mem _ (List.mem_cons_self ..)
  refine ⟨⟨hdata, ⟨.boundary, rfl⟩, ⟨"wi", List.mem_cons_self ..⟩, _,
      decl?_builtin hlibrary hnodup hdata .boundary rfl "a", rfl, rfl, rfl⟩,
    ⟨henable, ⟨.boundary, rfl⟩, ⟨"wen", List.mem_cons_of_mem _ (List.mem_cons_self ..)⟩, _,
      decl?_builtin hlibrary hnodup henable .boundary rfl "a", rfl, rfl, rfl⟩⟩

theorem sensible_busDriver (hlibrary : library.Furnished) (hid : inner.id = "buf")
    (hwraps : library.Wraps depth inner) : (busDriver inner).Sensible library where
  nodup := nodup_busDriver hid
  builds := by
    obtain ⟨assembly, hassembly, -⟩ := hwraps.exists_assembly hlibrary
    simp only [busDriver, List.forall_mem_cons]
    exact ⟨⟨_, hlibrary.assembly?_eq .boundary rfl⟩,
      ⟨_, hlibrary.assembly?_eq .boundary rfl⟩,
      ⟨_, hlibrary.assembly?_eq .boundary rfl⟩, ⟨assembly, hassembly⟩, nofun⟩
  exposed := by
    intro component hmem inside hinside
    obtain rfl := eq_of_expanded_busDriver hlibrary hmem hinside
    exact hwraps.nodup_exposed hlibrary hinside
  ends := by
    have hnodup := nodup_busDriver hid
    have hdriver := decl?_driver hlibrary hnodup (List.mem_cons_of_mem _ (List.mem_cons_of_mem _
      (List.mem_cons_of_mem _ (List.mem_cons_self ..)))) hwraps
    obtain ⟨⟨-, -, -, data, hdata, -, -, hwide⟩, ⟨-, -, -, enable, henable, -, -, hnarrow⟩⟩ :=
      supplies_busDriver hlibrary hid
    have hout := decl?_builtin hlibrary hnodup
      (List.mem_cons_of_mem _ (List.mem_cons_of_mem _ (List.mem_cons_self ..)) :
        outPort ∈ (busDriver inner).components) .boundary rfl "a"
    refine (disjoint_busDriver hid).ends ?_
    simp only [busDriver, List.forall_mem_cons]
    exact ⟨⟨8, ⟨data, hdata, hwide⟩, ⟨_, hdriver "in", rfl⟩, nofun⟩,
      ⟨1, ⟨enable, henable, hnarrow⟩, ⟨_, hdriver "en", rfl⟩, nofun⟩,
      ⟨8, ⟨_, hdriver "out", rfl⟩, ⟨_, hout, rfl⟩, nofun⟩, nofun⟩

end

/-! ### The circuit itself -/

section

variable {library : Library} {lanes : List (Lane library)} {lane : Lane library}
  {component : Component} {inside : Schematic}

namespace Lane

theorem data_mem (hlane : lane ∈ lanes) : lane.data ∈ (busCircuit lanes).components :=
  mem_components_of_lane hlane (by simp [components])

theorem enable_mem (hlane : lane ∈ lanes) : lane.enable ∈ (busCircuit lanes).components :=
  mem_components_of_lane hlane (by simp [components])

theorem driver_mem (hlane : lane ∈ lanes) : lane.driver ∈ (busCircuit lanes).components :=
  mem_components_of_lane hlane (by simp [components])

end Lane

theorem busCircuit_cases (hmem : component ∈ (busCircuit lanes).components) :
    component = busProbe ∨ ∃ lane ∈ lanes,
      component = lane.data ∨ component = lane.enable ∨ component = lane.driver := by
  rcases List.mem_append.mp hmem with hmem | hmem
  · obtain ⟨lane, hlane, hmem⟩ := List.mem_flatMap.mp hmem
    exact .inr ⟨lane, hlane, by simpa [Lane.components] using hmem⟩
  · exact .inl (List.mem_singleton.mp hmem)

/-- What is expanded in the circuit is a driver. -/
theorem exists_lane_of_expanded (hlibrary : library.Furnished)
    (hmem : component ∈ (busCircuit lanes).components)
    (hinside : library.inside? component = some inside) :
    ∃ lane ∈ lanes, component = lane.driver := by
  rcases busCircuit_cases hmem with rfl | ⟨lane, hlane, rfl | rfl | rfl⟩
  · cases (hlibrary.inside?_eq_none .probe rfl).symm.trans hinside
  · cases (hlibrary.inside?_eq_none _ lane.data_input).symm.trans hinside
  · cases (hlibrary.inside?_eq_none _ lane.enable_input).symm.trans hinside
  · exact ⟨lane, hlane, rfl⟩

/-- The inputs of a lane supply its driver. -/
theorem supplies_busCircuit (hlibrary : library.Furnished) (h : Laned lanes) (hlane : lane ∈ lanes) :
    (busCircuit lanes).Supplies library lane.driver ⟨"in", .dataIn, 8⟩ lane.data "out" ∧
      (busCircuit lanes).Supplies library lane.driver ⟨"en", .ctrlIn, 1⟩ lane.enable "out" := by
  have hdata := decl?_builtin hlibrary h.nodup (Lane.data_mem hlane) _ lane.data_input "out"
  have henable := decl?_builtin hlibrary h.nodup (Lane.enable_mem hlane) _ lane.enable_input "out"
  have hwire : ∀ wire ∈ lane.wires, wire ∈ (busCircuit lanes).wires := fun wire hwire =>
    List.mem_append_left _ (List.mem_flatMap.mpr ⟨lane, hlane, hwire⟩)
  exact ⟨⟨Lane.data_mem hlane, ⟨_, lane.data_input⟩, ⟨_, hwire _ (List.mem_cons_self ..)⟩,
      _, hdata, rfl, rfl, lane.data_width⟩,
    ⟨Lane.enable_mem hlane, ⟨_, lane.enable_input⟩,
      ⟨_, hwire _ (List.mem_cons_of_mem _ (List.mem_cons_self ..))⟩,
      _, henable, rfl, rfl, lane.enable_width⟩⟩

theorem sensible_busCircuit (hlibrary : library.Furnished) (h : Laned lanes) :
    (busCircuit lanes).Sensible library where
  nodup := h.nodup
  builds := by
    intro component hmem
    rcases busCircuit_cases hmem with rfl | ⟨lane, hlane, rfl | rfl | rfl⟩
    · exact ⟨_, hlibrary.assembly?_eq .probe rfl⟩
    · exact ⟨_, hlibrary.assembly?_eq _ lane.data_input⟩
    · exact ⟨_, hlibrary.assembly?_eq _ lane.enable_input⟩
    · obtain ⟨assembly, hassembly, -⟩ := lane.wraps.exists_assembly hlibrary
      exact ⟨assembly, hassembly⟩
  exposed := by
    intro component hmem inside hinside
    obtain ⟨lane, -, rfl⟩ := exists_lane_of_expanded hlibrary hmem hinside
    exact lane.wraps.nodup_exposed hlibrary hinside
  ends := by
    refine (h.disjoint hlibrary).ends fun wire hwire => ?_
    have hdriver : ∀ lane ∈ lanes, ∀ id, (busCircuit lanes).decl? library ⟨lane.driver.id, id⟩ =
        busPorts.find? (·.id = id) := fun lane hlane id =>
      decl?_driver hlibrary h.nodup (Lane.driver_mem hlane) lane.wraps id
    rcases List.mem_append.mp hwire with hwire | hwire
    · obtain ⟨lane, hlane, hwire⟩ := List.mem_flatMap.mp hwire
      obtain ⟨⟨-, -, -, data, hdata, -, -, hwide⟩, ⟨-, -, -, enable, henable, -, -, hnarrow⟩⟩ :=
        supplies_busCircuit hlibrary h hlane
      simp only [Lane.wires, List.mem_cons, List.not_mem_nil, or_false] at hwire
      rcases hwire with rfl | rfl
      · exact ⟨8, List.forall_mem_cons.mpr ⟨⟨data, hdata, hwide⟩,
          List.forall_mem_singleton.mpr ⟨_, hdriver lane hlane "in", rfl⟩⟩⟩
      · exact ⟨1, List.forall_mem_cons.mpr ⟨⟨enable, henable, hnarrow⟩,
          List.forall_mem_singleton.mpr ⟨_, hdriver lane hlane "en", rfl⟩⟩⟩
    · obtain rfl := List.mem_singleton.mp hwire
      refine ⟨8, fun endpoint hend => ?_⟩
      rcases List.mem_append.mp hend with hend | hend
      · obtain ⟨lane, hlane, rfl⟩ := List.mem_map.mp hend
        exact ⟨_, hdriver lane hlane "out", rfl⟩
      · obtain rfl := List.mem_singleton.mp hend
        exact ⟨_, decl?_builtin hlibrary h.nodup (busProbe_mem_components lanes)
          .probe rfl "in", rfl⟩

/-! ### All schematics -/

/-- Every schematic but the circuit itself is one around a driver. -/
theorem site_cases (hlibrary : library.Furnished) {site : Site}
    (hsite : site ∈ (busCircuit lanes).sites library) : site = ⟨[], busCircuit lanes⟩ ∨
      site.names ≠ [] ∧ ∃ depth inner, library.Wraps depth inner ∧ inner.id = "buf" ∧
        site.schematic = busDriver inner := by
  induction hlength : site.names.length using Nat.strongRecOn generalizing site with
  | ind length ih =>
    rcases around_of_mem_sites hsite with rfl | ⟨outer, houter, component, hmem, hinside, hnames⟩
    · exact .inl rfl
    · refine .inr ⟨by simp [hnames], ?_⟩
      have hdriver : ∃ depth, library.Wraps depth component := by
        have hlt : outer.names.length < length := by
          rw [← hlength, hnames]
          simp
        rcases ih _ hlt houter rfl with rfl | ⟨-, depth, inner, hinner, -, hdrawn⟩
        · obtain ⟨lane, -, rfl⟩ := exists_lane_of_expanded hlibrary hmem hinside
          exact ⟨_, lane.wraps⟩
        · rw [hdrawn] at hmem
          exact ⟨depth, eq_of_expanded_busDriver hlibrary hmem hinside ▸ hinner⟩
      obtain ⟨depth, hwraps⟩ := hdriver
      rcases hwraps.inside?_eq hlibrary with ⟨hnone, -⟩ | ⟨inner, less, -, hinner, hid, hsome⟩
      · cases hnone.symm.trans hinside
      · exact ⟨less, inner, hinner, hid, Option.some.inj (hinside.symm.trans hsome)⟩

theorem sensible_of_mem_sites (hlibrary : library.Furnished) (h : Laned lanes) {site : Site}
    (hsite : site ∈ (busCircuit lanes).sites library) : site.schematic.Sensible library := by
  rcases site_cases hlibrary hsite with rfl | ⟨-, depth, inner, hwraps, hid, hdrawn⟩
  · exact sensible_busCircuit hlibrary h
  · exact hdrawn ▸ sensible_busDriver hlibrary hid hwraps

theorem spelled_busCircuit (hlibrary : library.Furnished) (h : Laned lanes) :
    (busCircuit lanes).Spelled library := by
  intro site hsite component hmem
  rcases site_cases hlibrary hsite with rfl | ⟨-, depth, inner, -, hid, hdrawn⟩
  · exact h.spelled component hmem
  · rw [hdrawn] at hmem
    exact not_separated_busDriver hid component hmem

end

end Breadboard
