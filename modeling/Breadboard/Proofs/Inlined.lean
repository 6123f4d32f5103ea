import Breadboard.Proofs.Terminals

/-!
# The circuit without hierarchy

A circuit and the one that `inlined` makes of it are charted side by side (`Inlining`).
The parts that are left are those of components that keep standing (`Leaf`); a net was
merged into the nets of all segments connected with its own (`Merged`). Pins are carried
over in both directions (`reached_flat`, `reached_nested`), because what ends at a kept
component is the same seen with and without boundaries. Together this says that the
second netlist is the first one with its seams closed (`Inlining.seams`).
-/

namespace Breadboard

/-- A circuit and the circuit without its hierarchy. -/
structure Inlining (library : Library) (schematic : Schematic) (nested flat : Netlist)
    (spots : List Spot) (root : Spot) : Prop where
  chart : Chart library schematic nested spots
  single : nested.Single
  connected : ∀ spot ∈ spots, spot.schematic.Connected library
  flat : Chart library (schematic.inlined library) flat [root]
  root : root.toSite = ⟨[], schematic.inlined library⟩

/-- A component that keeps standing, with its parts in both circuits. -/
structure Leaf (library : Library) (nested flat : Netlist) (spots : List Spot) (root spot : Spot)
    (component : Component) (placed placed' : Placed) : Prop where
  located : Located library nested spots spot component placed
  kept : spot.keeps library component = true
  twin : Located library flat [root] root (spot.leaf component) placed'

/-- The parts are of one component. -/
def SamePart (library : Library) (nested flat : Netlist) (spots : List Spot) (root : Spot)
    (part part' : Nat) : Prop :=
  ∃ spot component placed placed',
    Leaf library nested flat spots root spot component placed placed' ∧ placed.part = part ∧
      placed'.part = part'

/-- A segment of the first net is connected with one that the second net carries. -/
def Merged (library : Library) (schematic : Schematic) (nested flat : Netlist) (spots : List Spot)
    (root : Spot) (index index' : Nat) : Prop :=
  ∃ spot position wire segment segment',
    Holds nested spots (schematic.segments library) spot position wire index segment ∧
      Linked (schematic.segments library) segment segment' ∧ Carries flat root segment' index'

theorem mem_connection {segments : List Wire} {index : Nat} {endpoint : Endpoint}
    (hlt : index < segments.length) : endpoint ∈ connection segments index ↔
      ∃ (other : Nat) (found : Wire), Linked segments index other ∧
        segments[other]? = some found ∧ endpoint ∈ found.endpoints := by
  simp only [connection, List.mem_flatMap, mem_reach_touching hlt, Option.mem_toList]
  exact ⟨fun ⟨other, hlinked, found, hfound, hmem⟩ => ⟨other, found, hlinked, hfound, hmem⟩,
    fun ⟨other, found, hlinked, hfound, hmem⟩ => ⟨other, hlinked, found, hfound, hmem⟩⟩

theorem Linked.lt {wires : List Wire} {a b : Nat} (h : Linked wires a b) (hb : b < wires.length) :
    a < wires.length := by
  cases h with
  | refl => exact hb
  | head hmem _ =>
    obtain ⟨near, -, hnear, -⟩ := mem_touching.mp hmem
    exact (List.getElem?_eq_some_iff.mp hnear).1

section

variable {library : Library} {schematic : Schematic} {nested flat : Netlist} {spots : List Spot}
  {root spot : Spot} {component : Component} {placed placed' : Placed}

theorem mem_wires_inlined {segment : Nat} {wire : Wire}
    (hwire : (schematic.inlined library).wires[segment]? = some wire) {endpoint : Endpoint} :
    endpoint ∈ wire.endpoints ↔
      (∃ (other : Nat) (found : Wire), Linked (schematic.segments library) segment other ∧
        (schematic.segments library)[other]? = some found ∧ endpoint ∈ found.endpoints) ∧
      ∃ leaf ∈ schematic.leaves library, leaf.id = endpoint.component := by
  rw [Schematic.inlined, List.getElem?_mapIdx] at hwire
  obtain ⟨found, hfound, rfl⟩ := Option.map_eq_some_iff.mp hwire
  simp only [List.mem_filter, List.any_eq_true, decide_eq_true_eq,
    mem_connection (List.getElem?_eq_some_iff.mp hfound).1]

theorem length_wires_inlined (library : Library) (schematic : Schematic) :
    (schematic.inlined library).wires.length = (schematic.segments library).length :=
  List.length_mapIdx

/-- Wires without hierarchy are connected only if their segments are. -/
theorem linked_of_inlined {segment segment' : Nat}
    (h : Linked (schematic.inlined library).wires segment segment') :
    Linked (schematic.segments library) segment segment' := by
  induction h with
  | refl => exact .refl _
  | head htouch _ ih =>
    obtain ⟨near, far, hnear, hfar, htouches⟩ := mem_touching.mp htouch
    obtain ⟨shared, hmem, hmem'⟩ := Wire.touches_iff.mp htouches
    obtain ⟨⟨first, found, hlinked, hfound, hend⟩, -⟩ := (mem_wires_inlined hnear).mp hmem
    obtain ⟨⟨second, found', hlinked', hfound', hend'⟩, -⟩ := (mem_wires_inlined hfar).mp hmem'
    have hnext : second ∈ (touching (schematic.segments library)).getD first [] :=
      mem_touching.mpr ⟨found, found', hfound, hfound', Wire.touches_iff.mpr ⟨shared, hend, hend'⟩⟩
    exact (hlinked.tail hnext).trans (hlinked'.symm.trans ih)

theorem Site.inside_of_keeps {site : Site} (h : site.keeps library component = true) :
    library.inside? component = none :=
  Option.isNone_iff_eq_none.mp (Bool.and_eq_true_iff.mp h).1

namespace Inlining

variable (h : Inlining library schematic nested flat spots root)

include h

theorem schematic_root : root.schematic = schematic.inlined library :=
  congrArg Site.schematic h.root

theorem names_root : root.names = [] :=
  congrArg Site.names h.root

theorem mem_leaves_iff {leaf : Component} : leaf ∈ schematic.leaves library ↔
    ∃ spot ∈ spots, ∃ component ∈ spot.schematic.components,
      spot.keeps library component = true ∧ leaf = spot.leaf component := by
  rw [Schematic.leaves, ← h.chart.sites, List.mem_flatMap]
  constructor
  · rintro ⟨site, hsite, hmem⟩
    obtain ⟨spot, hspot, rfl⟩ := List.mem_map.mp hsite
    obtain ⟨component, hcomponent, rfl⟩ := List.mem_map.mp hmem
    obtain ⟨hdrawn, hkept⟩ := List.mem_filter.mp hcomponent
    exact ⟨spot, hspot, component, hdrawn, hkept, rfl⟩
  · rintro ⟨spot, hspot, component, hdrawn, hkept, rfl⟩
    exact ⟨_, List.mem_map_of_mem hspot,
      List.mem_map_of_mem (List.mem_filter.mpr ⟨hdrawn, hkept⟩)⟩

theorem exists_leaf (hlocated : Located library nested spots spot component placed)
    (hkept : spot.keeps library component = true) :
    ∃ placed', Leaf library nested flat spots root spot component placed placed' := by
  have hmem : spot.leaf component ∈ root.schematic.components := by
    rw [h.schematic_root]
    exact h.mem_leaves_iff.mpr ⟨spot, hlocated.listed, component, hlocated.drawn, hkept, rfl⟩
  obtain ⟨placed', htwin⟩ := h.flat.host (List.mem_singleton_self root) hmem
  exact ⟨placed', hlocated, hkept, htwin⟩

theorem exists_leaf_of_flat {part' : Nat} (hlt : part' < flat.parts.length) :
    ∃ spot component placed placed',
      Leaf library nested flat spots root spot component placed placed' ∧ placed'.part = part' := by
  obtain ⟨found, leaf, placed', hlocated, hpart⟩ := h.flat.locate hlt
  obtain rfl := List.mem_singleton.mp hlocated.listed
  have hmem := hlocated.drawn
  rw [h.schematic_root] at hmem
  obtain ⟨spot, hspot, component, hdrawn, hkept, rfl⟩ := h.mem_leaves_iff.mp hmem
  obtain ⟨placed, hplaced⟩ := h.chart.host hspot hdrawn
  exact ⟨spot, component, placed, placed', ⟨hplaced, hkept, hlocated⟩, hpart⟩

end Inlining

namespace Leaf

variable (h : Leaf library nested flat spots root spot component placed placed')

include h

theorem inside : library.inside? component = none :=
  Site.inside_of_keeps h.kept

theorem not_crossing {outer : Spot} {around : Component} :
    ¬ Crossing library nested spots outer around spot component placed := by
  intro hcrossing
  have hkept := (Bool.and_eq_true_iff.mp h.kept).2
  simp [hcrossing.names, hcrossing.boundary] at hkept

/-- Both parts are made of the same. -/
theorem made : ∃ assembly part part', nested.parts[placed.part]? = some part ∧
    flat.parts[placed'.part]? = some part' ∧ part.MadeOf assembly ∧ part'.MadeOf assembly := by
  obtain ⟨entry, assembly, part, hentry, hassemble, hpart, hmade, -⟩ := h.located.madeOf
  obtain ⟨entry', assembly', part', hentry', hassemble', hpart', hmade', -⟩ := h.twin.madeOf
  obtain rfl := Option.some.inj (hentry.symm.trans hentry')
  obtain rfl := Except.ok.inj (hassemble.symm.trans hassemble')
  exact ⟨assembly, part, part', hpart, hpart', hmade, hmade'⟩

theorem position? (id : String) :
    nested.position? placed.part id = flat.position? placed'.part id := by
  obtain ⟨assembly, part, part', hpart, hpart', hmade, hmade'⟩ := h.made
  rw [position?_of_madeOf hpart hmade, position?_of_madeOf hpart' hmade']

theorem decl? (port : Nat) : nested.decl? ⟨placed.part, port⟩ = flat.decl? ⟨placed'.part, port⟩ := by
  obtain ⟨assembly, part, part', hpart, hpart', hmade, hmade'⟩ := h.made
  rw [Netlist.decl?_of_madeOf hpart hmade, Netlist.decl?_of_madeOf hpart' hmade']

theorem stands (id : String) :
    Stands library nested spots spot ⟨component.id, id⟩ spot component id := by
  refine .own h.located.listed h.located.drawn fun hboth => ?_
  have hkept := (Bool.and_eq_true_iff.mp h.kept).2
  simp [hboth.1, hboth.2.1] at hkept

end Leaf

namespace Inlining

variable (h : Inlining library schematic nested flat spots root)

include h

/-- What reaches a pin of a kept component reaches it without hierarchy. -/
theorem reached_flat (hleaf : Leaf library nested flat spots root spot component placed placed')
    {other : Spot} {position index segment segment' port : Nat} {wire : Wire}
    (hholds : Holds nested spots (schematic.segments library) other position wire index segment)
    (hlinked : Linked (schematic.segments library) segment segment')
    (hreached : Reached nested other position ⟨placed.part, port⟩) :
    Reached flat root segment' ⟨placed'.part, port⟩ := by
  obtain ⟨endpoint, hend, hmem⟩ := hreached
  obtain ⟨-, ⟨rfl, hnamed, hposition⟩ | ⟨_, hcrossing, -⟩⟩ := h.chart.end_of_pin hholds.listed hmem
    hleaf.located hleaf.inside rfl
  · obtain ⟨segment'', found, hfound, hlinked', hterminal⟩ :=
      h.chart.exists_segment_of_end hholds.listed hholds.found hholds.segment hend
    rw [hnamed, h.chart.terminal_of_stands (hleaf.stands _)] at hterminal
    have hlinked'' := hlinked.symm.trans hlinked'
    have hlt := Linked.lt hlinked'' (List.getElem?_eq_some_iff.mp hfound).1
    rw [← length_wires_inlined library schematic] at hlt
    have hleaves : ∃ leaf ∈ schematic.leaves library, leaf.id = (other.path component.id).text :=
      ⟨_, h.mem_leaves_iff.mpr ⟨other, hleaf.located.listed, component, hleaf.located.drawn,
        hleaf.kept, rfl⟩, rfl⟩
    have hwire := List.getElem?_eq_getElem hlt
    refine ⟨⟨(other.leaf component).id, endpoint.port⟩, ?_,
      (hleaf.twin.mem_attachments_plain hleaf.inside).mpr ⟨rfl, rfl, ?_⟩⟩
    · rw [h.schematic_root]
      exact WireEnd.self hwire ((mem_wires_inlined hwire).mpr
        ⟨⟨segment'', found, hlinked'', hfound, hterminal⟩, hleaves⟩)
    · rw [← hleaf.position?]
      exact hposition
  · exact absurd hcrossing hleaf.not_crossing

/-- What reaches a pin without hierarchy reaches it at its component. -/
theorem reached_nested (hleaf : Leaf library nested flat spots root spot component placed placed')
    {segment' port : Nat} (hreached : Reached flat root segment' ⟨placed'.part, port⟩) :
    ∃ position wire index segment,
      Holds nested spots (schematic.segments library) spot position wire index segment ∧
        wire.endpoints ≠ [] ∧ Linked (schematic.segments library) segment segment' ∧
          Reached nested spot position ⟨placed.part, port⟩ := by
  obtain ⟨endpoint, ⟨middle, merged, hconnected, hmerged, hend⟩, hmem⟩ := hreached
  have hroot := List.mem_singleton_self root
  rw [h.schematic_root] at hconnected hmerged
  obtain ⟨-, ⟨-, hnamed, hposition⟩ | ⟨_, hcrossing, -⟩⟩ := h.flat.end_of_pin hroot hmem
    hleaf.twin hleaf.inside rfl
  · obtain ⟨⟨segment, found, hlinked, hfound, hterminal⟩, -⟩ := (mem_wires_inlined hmerged).mp hend
    obtain ⟨other, position, wire, index, hholds, rfl⟩ := h.chart.exists_holds hfound
    obtain ⟨inner, hinner, hsame⟩ := List.mem_map.mp hterminal
    obtain ⟨named, place, hlocated, hname⟩ := h.chart.component_of_end hholds.listed
      (h.chart.attachments_ne_nil hholds.listed (WireEnd.self hholds.found hinner))
    obtain ⟨first, around, id, hstands⟩ := h.chart.exists_stands hlocated inner.port
    rw [← hname] at hstands
    have hterminal : other.terminal inner =
        spot.terminal ⟨component.id, endpoint.port⟩ := by
      rw [hsame, h.chart.terminal_of_stands (hleaf.stands _)]
      exact hnamed
    obtain ⟨rfl, rfl, rfl⟩ := h.chart.eq_of_terminal hstands (hleaf.stands _) hterminal
    have hback := Linked.symm ((linked_of_inlined hconnected).trans hlinked)
    generalize hport : endpoint.port = id at *
    cases hstands with
    | own =>
      refine ⟨position, wire, index, segment, hholds, List.ne_nil_of_mem hinner, hback, _,
        WireEnd.self hholds.found hinner,
        (hleaf.located.mem_attachments_plain hleaf.inside).mpr ⟨rfl, rfl, ?_⟩⟩
      rw [hleaf.position?]
      exact hposition
    | inner hcrossing =>
      have hinside := hleaf.inside
      rw [hcrossing.inside] at hinside
      cases hinside
  · have hnames := hcrossing.names
    rw [h.names_root] at hnames
    simp at hnames

/-- A part is that of a kept component, or a boundary port that is left out, or it stands
for an expanded component and does nothing. -/
theorem cases_of_part {part : Nat} {owner : Part} (howner : nested.parts[part]? = some owner) :
    (∃ part', SamePart library nested flat spots root part part') ∨ Seam library nested spots part ∨
      owner.device = .inert := by
  obtain ⟨spot, component, placed, hlocated, rfl⟩ :=
    h.chart.locate (List.getElem?_eq_some_iff.mp howner).1
  cases hexpand : library.inside? component with
  | some inside =>
    obtain ⟨entry, assembly, found, hentry, hassemble, hfound, hmade, -⟩ := hlocated.madeOf
    obtain ⟨-, rfl⟩ := h.chart.composed.expanded hexpand hentry hassemble
    obtain rfl := Option.some.inj (howner.symm.trans hfound)
    exact Or.inr (Or.inr hmade.device)
  | none =>
    by_cases hkept : spot.keeps library component = true
    · obtain ⟨placed', hleaf⟩ := h.exists_leaf hlocated hkept
      exact Or.inl ⟨placed'.part, spot, component, placed, placed', hleaf, rfl, rfl⟩
    · simp only [Site.keeps, hexpand, Option.isNone_none, Bool.true_and, Bool.or_eq_true,
        List.isEmpty_iff, decide_eq_true_eq, not_or, not_not] at hkept
      obtain ⟨outer, found, hcrossing⟩ := h.chart.exists_crossing hlocated hkept.1 hkept.2
      exact Or.inr (Or.inl ⟨outer, found, spot, component, placed, hcrossing, rfl⟩)

/-- What drives a net is a kept component or a boundary port that is left out. -/
theorem cases_of_source {index : Nat} {ref : PortRef} (hsource : nested.HasSource index ref) :
    (∃ part', SamePart library nested flat spots root ref.part part') ∨
      Seam library nested spots ref.part := by
  obtain ⟨_, hnet, -⟩ := id hsource
  obtain ⟨spot, hspot, position, wire, hwire, hcarries⟩ :=
    h.chart.exists_carried (List.getElem?_eq_some_iff.mp hnet).1
  obtain ⟨⟨endpoint, hend, hmem⟩, -⟩ := hcarries.hasSource_iff.mp hsource
  have hsome := List.ne_nil_of_mem hmem
  obtain ⟨component, placed, hlocated, hnamed⟩ := h.chart.component_of_end hspot hsome
  rw [hnamed] at hmem hsome
  cases hexpand : library.inside? component with
  | none =>
    obtain ⟨-, hpart, -⟩ := (hlocated.mem_attachments_plain hexpand).mp hmem
    obtain ⟨entry, assembly, owner, hentry, hassemble, howner, hmade, -⟩ := hlocated.madeOf
    rw [hpart]
    rcases h.cases_of_part howner with hsame | hseam | hinert
    · exact Or.inl hsame
    · exact Or.inr hseam
    · obtain ⟨builtin, -, rfl⟩ := h.chart.composed.plain hexpand hentry hassemble
      rw [hmade.device] at hinert
      cases builtin <;> cases hinert
  | some inside =>
    obtain ⟨port, inner, boundary, placed', hcrossing, -, heq⟩ :=
      h.chart.attachments_expanded hlocated hexpand hsome
    rw [heq] at hmem
    simp only [List.mem_cons, List.not_mem_nil, or_false, Prod.mk.injEq, Bool.true_eq_false,
      and_false, false_or, and_true] at hmem
    subst hmem
    exact Or.inr ⟨spot, component, inner, boundary, placed', hcrossing, rfl⟩

/-- The net that lists a pin of a kept component, among those merged into the net that
lists it without hierarchy. -/
theorem exists_origin (hleaf : Leaf library nested flat spots root spot component placed placed')
    {segment' index' port : Nat} (hcarries : Carries flat root segment' index')
    (hreached : Reached flat root segment' ⟨placed'.part, port⟩) :
    ∃ index, Merged library schematic nested flat spots root index index' ∧
      (flat.Outputs ⟨placed'.part, port⟩ → nested.HasSource index ⟨placed.part, port⟩) ∧
      (flat.Inputs ⟨placed'.part, port⟩ → nested.HasTarget index ⟨placed.part, port⟩) ∧
      ∀ {other : Spot} {position index'' segment : Nat} {wire : Wire},
        Holds nested spots (schematic.segments library) other position wire index'' segment →
        Linked (schematic.segments library) segment segment' →
        Relation.EqvGen (nested.Meet (Seam library nested spots)) index'' index := by
  obtain ⟨position, wire, index, segment, hholds, hsome, hlinked, hreached'⟩ :=
    h.reached_nested hleaf hreached
  refine ⟨index, ⟨spot, position, wire, segment, segment', hholds, hlinked, hcarries⟩,
    fun ⟨decl, hdecl, houtput⟩ => hholds.carries.hasSource_iff.mpr ⟨hreached', decl, ?_, houtput⟩,
    fun ⟨decl, hdecl, hinput⟩ => hholds.carries.hasTarget_of_reached hreached' ⟨decl, ?_, hinput⟩,
    fun hother hlinked' => h.chart.meets_of_linked h.single (hlinked'.trans hlinked.symm) hother
      hholds hsome⟩
  all_goals rw [hleaf.decl?, hdecl]

/-- The circuit without hierarchy is the circuit with its seams closed. -/
theorem seams : Netlist.Seams nested flat (Seam library nested spots)
    (SamePart library nested flat spots root)
    (Merged library schematic nested flat spots root) where
  part := by
    rintro _ _ ⟨spot, component, placed, placed', hleaf, rfl, rfl⟩
    exact hleaf.made
  onto := by
    intro part' hlt
    obtain ⟨spot, component, placed, placed', hleaf, rfl⟩ := h.exists_leaf_of_flat hlt
    exact ⟨placed.part, spot, component, placed, placed', hleaf, rfl, rfl⟩
  rest := h.cases_of_part
  boundary := by
    rintro _ ⟨spot, component, inner, boundary, placed, hcrossing, rfl⟩
    obtain ⟨part, hpart, hmade⟩ :=
      Chart.madeOf_boundary h.chart.composed hcrossing.located hcrossing.boundary
    obtain ⟨found, inbound, _, _, hfound, hdevice, hinput, -⟩ := hcrossing.sides h.chart.composed
    obtain rfl := Option.some.inj (hfound.symm.trans hpart)
    refine ⟨found, boundary.args, hpart, hmade, fun hinbound => ?_⟩
    obtain ⟨position, index, hcarries, hreached⟩ := h.chart.exists_outer h.connected hcrossing
    obtain rfl : inbound = true := by
      have hsame := hdevice.symm.trans hmade.device
      exact (Device.boundary.inj hsame).1.trans hinbound
    exact ⟨index, hcarries.hasTarget_of_reached hreached hinput⟩
  total := by
    intro index hlt
    obtain ⟨spot, hspot, position, wire, hwire, hcarries⟩ := h.chart.exists_carried hlt
    obtain ⟨segment, hsegment⟩ := h.chart.exists_segment hspot hwire
    have hlt' := (List.getElem?_eq_some_iff.mp hsegment).1
    rw [← length_wires_inlined library schematic, ← h.schematic_root] at hlt'
    obtain ⟨index', hcarries'⟩ := h.flat.exists_carries (List.mem_singleton_self root) hlt'
    exact ⟨index', spot, position, wire, segment, segment, ⟨hspot, hwire, hsegment, hcarries⟩,
      .refl _, hcarries'⟩
  driver := h.cases_of_source
  source := by
    rintro _ _ index index' port ⟨spot, component, placed, placed', hleaf, rfl, rfl⟩
      ⟨other, position, wire, segment, segment', hholds, hlinked, hcarries⟩ hsource
    obtain ⟨hreached, decl, hdecl, houtput⟩ := hholds.carries.hasSource_iff.mp hsource
    exact hcarries.hasSource_iff.mpr
      ⟨h.reached_flat hleaf hholds hlinked hreached, decl, by rw [← hleaf.decl?, hdecl], houtput⟩
  target := by
    rintro _ _ index index' port ⟨spot, component, placed, placed', hleaf, rfl, rfl⟩
      ⟨other, position, wire, segment, segment', hholds, hlinked, hcarries⟩ htarget
    obtain ⟨hreached, decl, hdecl, hinput⟩ := (h.chart.hasTarget_iff hholds.listed hholds.carries
      hleaf.located hleaf.inside rfl).mp htarget
    exact hcarries.hasTarget_of_reached (h.reached_flat hleaf hholds hlinked hreached)
      ⟨decl, by rw [← hleaf.decl?, hdecl], hinput⟩
  origin := by
    rintro _ _ index' port ⟨spot, component, placed, placed', hleaf, rfl, rfl⟩ hsource
    obtain ⟨_, hnet, -⟩ := id hsource
    obtain ⟨found, hfound, segment', wire, hwire, hcarries⟩ :=
      h.flat.exists_carried (List.getElem?_eq_some_iff.mp hnet).1
    obtain rfl := List.mem_singleton.mp hfound
    obtain ⟨hreached, houtput⟩ := hcarries.hasSource_iff.mp hsource
    obtain ⟨index, -, hdrives, -⟩ := h.exists_origin hleaf hcarries hreached
    refine ⟨index, hdrives houtput, ?_⟩
    -- each net that was merged is connected with a net which the pin drives, and there
    -- is only one
    rintro other ⟨outer, position, wire', segment, segment'', hholds, hlinked, hcarries'⟩
    obtain ⟨hreached', -⟩ := hcarries'.hasSource_iff.mp hsource
    obtain ⟨index'', -, hdrives', -, hmeets⟩ := h.exists_origin hleaf hcarries' hreached'
    obtain rfl := h.single _ _ _ (hdrives houtput).lists (hdrives' houtput).lists
    exact hmeets hholds hlinked
  reader := by
    rintro _ _ index' port ⟨spot, component, placed, placed', hleaf, rfl, rfl⟩ htarget
    obtain ⟨_, hnet, -⟩ := id htarget
    obtain ⟨found, hfound, segment', wire, hwire, hcarries⟩ :=
      h.flat.exists_carried (List.getElem?_eq_some_iff.mp hnet).1
    obtain ⟨hreached, hinput⟩ := (h.flat.hasTarget_iff hfound hcarries hleaf.twin hleaf.inside
      rfl).mp htarget
    obtain rfl := List.mem_singleton.mp hfound
    obtain ⟨index, hmerged, -, hhears, -⟩ := h.exists_origin hleaf hcarries hreached
    exact ⟨index, hmerged, hhears hinput⟩
  meet := by
    rintro index index' merged hmeet
      ⟨spot, position, wire, segment, segment', hholds, hlinked, hcarries⟩
    obtain ⟨spot', position', wire', segment'', hholds', hlinked'⟩ :=
      h.chart.linked_of_meet h.single h.connected hmeet hholds
    exact ⟨spot', position', wire', segment'', segment', hholds', hlinked'.trans hlinked, hcarries⟩

end Inlining

end

end Breadboard
