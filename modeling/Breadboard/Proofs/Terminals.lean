import Breadboard.Proofs.Carried

/-!
# Where wires end, seen without boundaries

Ends of wires on both sides of a boundary have one terminal (`Stands`). Nets whose wires
have a terminal in common are therefore the same net, or a boundary port passes the
value of one on to the other (`meet_of_terminal`); so connected segments belong to nets
that seams lead between (`meets_of_linked`), and a seam leads between nets of connected
segments only (`linked_of_meet`).
-/

namespace Breadboard

/-- The part is a boundary port inside an expanded component. -/
def Seam (library : Library) (netlist : Netlist) (spots : List Spot) (part : Nat) : Prop :=
  ∃ spot component inner boundary placed,
    Crossing library netlist spots spot component inner boundary placed ∧ placed.part = part

/-- An end of a wire at a spot ends, as seen without boundaries, at a port of a component
of that spot or of the one around it. -/
inductive Stands (library : Library) (netlist : Netlist) (spots : List Spot) :
    Spot → Endpoint → Spot → Component → String → Prop where
  | own {spot : Spot} {component : Component} {id : String} : spot ∈ spots →
      component ∈ spot.schematic.components →
      ¬ (spot.names ≠ [] ∧ component.definition = Boundary.definition ∧ id = Boundary.innerPin) →
      Stands library netlist spots spot ⟨component.id, id⟩ spot component id
  | inner {spot inner : Spot} {component boundary : Component} {placed : Placed} :
      Crossing library netlist spots spot component inner boundary placed →
      Stands library netlist spots inner ⟨boundary.id, Boundary.innerPin⟩ spot component
        (Boundary.outerDecl boundary.args boundary.id).id

/-- The net joins the wire that a segment was made of. -/
structure Holds (netlist : Netlist) (spots : List Spot) (segments : List Wire) (spot : Spot)
    (position : Nat) (wire : Wire) (index segment : Nat) : Prop where
  listed : spot ∈ spots
  found : spot.schematic.wires[position]? = some wire
  segment : segments[segment]? = some (spot.segment wire)
  carries : Carries netlist spot position index

section

variable {library : Library} {schematic : Schematic} {netlist : Netlist} {spots : List Spot}
  {spot spot' other inner outer : Spot} {component component' boundary : Component}
  {placed placed' : Placed} {position position' index index' segment segment' : Nat} {ref : PortRef}
  {endpoint endpoint' : Endpoint} {wire wire' : Wire} {id id' : String}

theorem Crossing.ofNames
    (h : Crossing library netlist spots spot component inner boundary placed) :
    Path.ofNames inner.names = some (spot.path component.id) := by
  rw [h.names, Path.ofNames_snoc, Site.path]

/-- A boundary port reads one of its pins and drives the other. -/
theorem Crossing.sides (hcomposed : library.Composed)
    (h : Crossing library netlist spots spot component inner boundary placed) :
    ∃ part inbound tristate value, netlist.parts[placed.part]? = some part ∧
      part.device = .boundary inbound tristate value ∧
      netlist.Inputs ⟨placed.part, (Netlist.passSides inbound).1⟩ ∧
      netlist.Outputs ⟨placed.part, (Netlist.passSides inbound).2⟩ ∧
      ∀ id, netlist.position? placed.part id =
        (Builtin.boundary.assemble boundary.args).ports.findIdx? (·.id = id) := by
  obtain ⟨part, hpart, hmade⟩ := Chart.madeOf_boundary hcomposed h.located h.boundary
  refine ⟨part, _, _, _, hpart, hmade.device, ?_, ?_, position?_of_madeOf hpart hmade⟩
  all_goals
    simp only [Netlist.Inputs, Netlist.Outputs, Netlist.decl?_of_madeOf hpart hmade]
    by_cases hdir : boundary.args.text "dir" "in" = "out" <;>
      simp [Netlist.passSides, Builtin.assemble, Builtin.ports, Boundary.outerDecl,
        PortType.flipped, hdir]

namespace Chart

variable (h : Chart library schematic netlist spots)

include h

/-! ## Terminals -/

theorem terminal_of_stands (hstands : Stands library netlist spots spot endpoint other component id) :
    spot.terminal endpoint = ⟨(other.path component.id).text, id⟩ := by
  cases hstands with
  | own hspot hdrawn hplain =>
    have hfind := Schematic.find?_eq_of_mem (h.nodup _ hspot) hdrawn
    rw [Site.terminal, Site.exposed?]
    cases hnames : Path.ofNames spot.names with
    | none => rfl
    | some path =>
      have hinner : spot.names ≠ [] := fun heq => by
        rw [heq] at hnames
        cases hnames
      dsimp only
      rw [hfind]
      dsimp only
      rw [if_neg fun hboth => hplain ⟨hinner, hboth⟩]
      rfl
  | inner hcrossing =>
    have hfind := Schematic.find?_eq_of_mem (h.nodup _ hcrossing.located.listed)
      hcrossing.located.drawn
    rw [Site.terminal, Site.exposed?, hcrossing.ofNames]
    dsimp only
    rw [hfind]
    dsimp only
    rw [if_pos ⟨hcrossing.boundary, rfl⟩]
    rfl

/-- A boundary port anywhere but at the top is inside an expanded component. -/
theorem exists_crossing (hlocated : Located library netlist spots inner boundary placed)
    (hnames : inner.names ≠ []) (hboundary : boundary.definition = Boundary.definition) :
    ∃ spot component, Crossing library netlist spots spot component inner boundary placed := by
  rcases h.around hlocated.listed with htop | ⟨spot, hspot, component, hdrawn, hinside, hpath⟩
  · exact absurd (congrArg Site.names htop) hnames
  · exact ⟨spot, component, hspot, hdrawn, hinside, hpath, hlocated, hboundary⟩

theorem exists_stands (hlocated : Located library netlist spots spot component placed) (id : String) :
    ∃ other found port, Stands library netlist spots spot ⟨component.id, id⟩ other found port := by
  by_cases hinner : spot.names ≠ [] ∧ component.definition = Boundary.definition ∧
      id = Boundary.innerPin
  · obtain ⟨hnames, hboundary, rfl⟩ := hinner
    obtain ⟨outer, found, hcrossing⟩ := h.exists_crossing hlocated hnames hboundary
    exact ⟨outer, found, _, .inner hcrossing⟩
  · exact ⟨spot, component, id, .own hlocated.listed hlocated.drawn hinner⟩

omit h in
theorem Stands.drawn (hstands : Stands library netlist spots spot endpoint other component id) :
    other ∈ spots ∧ component ∈ other.schematic.components := by
  cases hstands with
  | own hspot hdrawn _ => exact ⟨hspot, hdrawn⟩
  | inner hcrossing => exact ⟨hcrossing.listed, hcrossing.drawn⟩

theorem eq_of_terminal {first second : Spot} {found found' : Component}
    (hstands : Stands library netlist spots spot endpoint first found id)
    (hstands' : Stands library netlist spots spot' endpoint' second found' id')
    (hterminal : spot.terminal endpoint = spot'.terminal endpoint') :
    first = second ∧ found = found' ∧ id = id' := by
  rw [h.terminal_of_stands hstands, h.terminal_of_stands hstands', Endpoint.mk.injEq] at hterminal
  obtain ⟨htext, hid⟩ := hterminal
  obtain ⟨hspot, hdrawn⟩ := Stands.drawn hstands
  obtain ⟨hspot', hdrawn'⟩ := Stands.drawn hstands'
  obtain ⟨rfl, rfl⟩ := h.apart _ hspot _ hdrawn _ hspot' _ hdrawn' (congrArg Path.mk htext)
  exact ⟨rfl, rfl, hid⟩

/-! ## Nets with an end in common -/

/-- Every end attaches a port that the net of the wire lists. -/
theorem exists_attached (hspot : spot ∈ spots)
    (hsome : netlist.attachments spot.placements endpoint ≠ []) :
    ∃ ref, (ref, true) ∈ netlist.attachments spot.placements endpoint ∧
      (netlist.Outputs ref ∨ netlist.Inputs ref) := by
  obtain ⟨found, placed, hfound, hend⟩ := h.component_of_end hspot hsome
  rw [hend] at hsome ⊢
  have hfaces : ∀ {part : Nat} {owner : Part} {builtin : Builtin} {args : Json} {port : Nat},
      netlist.parts[part]? = some owner → owner.MadeOf (builtin.assemble args) →
      port < (builtin.assemble args).ports.length →
      netlist.Outputs ⟨part, port⟩ ∨ netlist.Inputs ⟨part, port⟩ := by
    intro part owner builtin args port hpart hmade hlt
    simp only [Netlist.Outputs, Netlist.Inputs, Netlist.decl?_of_madeOf hpart hmade,
      List.getElem?_eq_getElem hlt, Option.some.injEq, exists_eq_left']
    exact (builtin.faces args _ (List.getElem_mem hlt)).symm
  cases hexpand : library.inside? found with
  | none =>
    obtain ⟨⟨ref, asSource⟩, hmem⟩ := List.exists_mem_of_ne_nil _ hsome
    obtain ⟨rfl, hpart, hposition⟩ := (hfound.mem_attachments_plain hexpand).mp hmem
    obtain ⟨entry, assembly, part, hentry, hassemble, howner, hmade, -⟩ := hfound.madeOf
    obtain ⟨builtin, -, rfl⟩ := h.composed.plain hexpand hentry hassemble
    refine ⟨ref, hmem, ?_⟩
    rw [position?_of_madeOf howner hmade] at hposition
    obtain ⟨hlt, -⟩ := List.findIdx?_eq_some_iff_getElem.mp hposition
    obtain ⟨owner, port⟩ := ref
    obtain rfl := hpart
    exact hfaces howner hmade hlt
  | some inside =>
    obtain ⟨port, inner, boundary, placed', hcrossing, -, heq⟩ :=
      h.attachments_expanded hfound hexpand hsome
    obtain ⟨part, hpart, hmade⟩ := madeOf_boundary h.composed hcrossing.located hcrossing.boundary
    exact ⟨⟨placed'.part, 1⟩, by simp [heq], hfaces hpart hmade Nat.one_lt_two⟩

omit h in
theorem lists_of_reached (hcarries : Carries netlist spot position index)
    (hreached : Reached netlist spot position ref)
    (hfaces : netlist.Outputs ref ∨ netlist.Inputs ref) : netlist.Lists index ref := by
  rcases hfaces with houtput | hinput
  · exact (hcarries.hasSource_iff.mpr ⟨hreached, houtput⟩).lists
  · exact (hcarries.hasTarget_of_reached hreached hinput).lists

theorem attachments_ne_nil (hspot : spot ∈ spots)
    (hend : WireEnd spot.schematic.wires position endpoint) :
    netlist.attachments spot.placements endpoint ≠ [] := by
  obtain ⟨other, wire, -, hwire, hmem⟩ := hend
  exact (h.laid spot hspot).resolves wire (List.mem_of_getElem? hwire) endpoint hmem

theorem eq_of_end (hsingle : netlist.Single) (hspot : spot ∈ spots)
    (hcarries : Carries netlist spot position index)
    (hcarries' : Carries netlist spot position' index')
    (hend : WireEnd spot.schematic.wires position endpoint)
    (hend' : WireEnd spot.schematic.wires position' endpoint) : index = index' := by
  obtain ⟨ref, hmem, hfaces⟩ := h.exists_attached hspot (h.attachments_ne_nil hspot hend)
  exact hsingle _ _ ref (lists_of_reached hcarries ⟨endpoint, hend, hmem⟩ hfaces)
    (lists_of_reached hcarries' ⟨endpoint, hend', hmem⟩ hfaces)

/-! ## The pins of a boundary port -/

theorem reached_outer
    (hcrossing : Crossing library netlist spots spot component inner boundary placed)
    (hend : WireEnd spot.schematic.wires position
      ⟨component.id, (Boundary.outerDecl boundary.args boundary.id).id⟩) :
    Reached netlist spot position ⟨placed.part, 1⟩ := by
  obtain ⟨place, hlocated⟩ := h.host hcrossing.listed hcrossing.drawn
  obtain ⟨port, inner', boundary', placed', hcrossing', hid, heq⟩ := h.attachments_expanded
    hlocated hcrossing.inside (h.attachments_ne_nil hcrossing.listed hend)
  obtain ⟨rfl, rfl, rfl⟩ := h.eq_of_crossing hcrossing hcrossing' hid.symm
  exact ⟨_, hend, by simp [heq]⟩

theorem reached_inner
    (hcrossing : Crossing library netlist spots spot component inner boundary placed)
    (hend : WireEnd inner.schematic.wires position ⟨boundary.id, Boundary.innerPin⟩) :
    Reached netlist inner position ⟨placed.part, 0⟩ := by
  obtain ⟨part, _, _, _, -, -, -, -, hposition⟩ := hcrossing.sides h.composed
  obtain ⟨entry, assembly, -, hentry, hassemble, -⟩ := hcrossing.located.madeOf
  obtain ⟨hinside, -⟩ := h.composed.boundary hcrossing.boundary hentry hassemble
  refine ⟨_, hend, (hcrossing.located.mem_attachments_plain hinside).mpr ⟨rfl, rfl, ?_⟩⟩
  rw [hposition]
  rfl

/-- A boundary port passes values between the nets that its pins belong to. -/
theorem meet_of_crossing
    (hcrossing : Crossing library netlist spots spot component inner boundary placed)
    (hcarries : Carries netlist spot position index)
    (hcarries' : Carries netlist inner position' index')
    (hreached : Reached netlist spot position ⟨placed.part, 1⟩)
    (hreached' : Reached netlist inner position' ⟨placed.part, 0⟩) :
    netlist.Meet (Seam library netlist spots) index index' ∨
      netlist.Meet (Seam library netlist spots) index' index := by
  obtain ⟨part, inbound, tristate, value, hpart, hdevice, hinput, houtput, -⟩ :=
    hcrossing.sides h.composed
  have hseam : Seam library netlist spots placed.part := ⟨_, _, _, _, _, hcrossing, rfl⟩
  cases inbound with
  | true =>
    exact Or.inl ⟨_, hseam, part, true, tristate, value, hpart, hdevice,
      hcarries.hasTarget_of_reached hreached hinput, hcarries'.hasSource_iff.mpr ⟨hreached', houtput⟩⟩
  | false =>
    exact Or.inr ⟨_, hseam, part, false, tristate, value, hpart, hdevice,
      hcarries'.hasTarget_of_reached hreached' hinput, hcarries.hasSource_iff.mpr ⟨hreached, houtput⟩⟩

/-- Nets that have a terminal in common are the same, or a seam leads between them. -/
theorem meet_of_terminal (hsingle : netlist.Single) {segments : List Wire}
    (hholds : Holds netlist spots segments spot position wire index segment)
    (hholds' : Holds netlist spots segments spot' position' wire' index' segment')
    (hend : endpoint ∈ wire.endpoints) (hend' : endpoint' ∈ wire'.endpoints)
    (hterminal : spot.terminal endpoint = spot'.terminal endpoint') :
    index = index' ∨ netlist.Meet (Seam library netlist spots) index index' ∨
      netlist.Meet (Seam library netlist spots) index' index := by
  have hat := WireEnd.self hholds.found hend
  have hat' := WireEnd.self hholds'.found hend'
  obtain ⟨component, placed, hlocated, hnamed⟩ :=
    h.component_of_end hholds.listed (h.attachments_ne_nil hholds.listed hat)
  obtain ⟨component', placed', hlocated', hnamed'⟩ :=
    h.component_of_end hholds'.listed (h.attachments_ne_nil hholds'.listed hat')
  obtain ⟨first, found, id, hstands⟩ := h.exists_stands hlocated endpoint.port
  obtain ⟨second, found', id', hstands'⟩ := h.exists_stands hlocated' endpoint'.port
  rw [← hnamed] at hstands
  rw [← hnamed'] at hstands'
  obtain ⟨rfl, rfl, rfl⟩ := h.eq_of_terminal hstands hstands' hterminal
  generalize hshown : id = shown at hstands'
  cases hstands with
  | own =>
    cases hstands' with
    | own =>
      subst hshown
      exact Or.inl (h.eq_of_end hsingle hholds.listed hholds.carries hholds'.carries hat hat')
    | inner hcrossing =>
      subst hshown
      exact Or.inr (h.meet_of_crossing hcrossing hholds.carries hholds'.carries
        (h.reached_outer hcrossing hat) (h.reached_inner hcrossing hat'))
  | inner hcrossing =>
    cases hstands' with
    | own =>
      subst hshown
      exact Or.inr (h.meet_of_crossing hcrossing hholds'.carries hholds.carries
        (h.reached_outer hcrossing hat') (h.reached_inner hcrossing hat)).symm
    | inner hcrossing' =>
      obtain ⟨rfl, rfl, rfl⟩ := h.eq_of_crossing hcrossing hcrossing' hshown
      exact Or.inl (h.eq_of_end hsingle hholds.listed hholds.carries hholds'.carries hat hat')

/-! ## Connected segments -/

theorem mem_segments_iff {found : Wire} : found ∈ schematic.segments library ↔
    ∃ spot ∈ spots, ∃ wire ∈ spot.schematic.wires, found = spot.segment wire := by
  rw [Schematic.segments, ← h.sites, List.mem_flatMap]
  constructor
  · rintro ⟨site, hsite, hmem⟩
    obtain ⟨spot, hspot, rfl⟩ := List.mem_map.mp hsite
    obtain ⟨wire, hwire, rfl⟩ := List.mem_map.mp hmem
    exact ⟨spot, hspot, wire, hwire, rfl⟩
  · rintro ⟨spot, hspot, wire, hwire, rfl⟩
    exact ⟨_, List.mem_map_of_mem hspot, List.mem_map_of_mem hwire⟩

/-- Every segment was made of a wire, which a net joins. -/
theorem exists_holds {found : Wire} (hfound : (schematic.segments library)[segment]? = some found) :
    ∃ spot position wire index,
      Holds netlist spots (schematic.segments library) spot position wire index segment ∧
        found = spot.segment wire := by
  obtain ⟨spot, hspot, wire, hwire, rfl⟩ := h.mem_segments_iff.mp (List.mem_of_getElem? hfound)
  obtain ⟨position, hlt, rfl⟩ := List.getElem_of_mem hwire
  obtain ⟨index, hcarries⟩ := h.exists_carries hspot hlt
  exact ⟨spot, position, _, index, ⟨hspot, List.getElem?_eq_getElem hlt, hfound, hcarries⟩, rfl⟩

theorem exists_segment (hspot : spot ∈ spots) (hwire : spot.schematic.wires[position]? = some wire) :
    ∃ segment : Nat, (schematic.segments library)[segment]? = some (spot.segment wire) :=
  List.mem_iff_getElem?.mp
    (h.mem_segments_iff.mpr ⟨spot, hspot, wire, List.mem_of_getElem? hwire, rfl⟩)

/-- Between the nets of connected segments there are seams. -/
theorem meets_of_linked (hsingle : netlist.Single)
    (hlinked : Linked (schematic.segments library) segment segment') :
    ∀ {spot : Spot} {position index : Nat} {wire : Wire},
      Holds netlist spots (schematic.segments library) spot position wire index segment →
      Holds netlist spots (schematic.segments library) spot' position' wire' index' segment' →
      wire'.endpoints ≠ [] →
      Relation.EqvGen (netlist.Meet (Seam library netlist spots)) index index' := by
  have hstep : ∀ {index index' : Nat}, (index = index' ∨
      netlist.Meet (Seam library netlist spots) index index' ∨
        netlist.Meet (Seam library netlist spots) index' index) →
      Relation.EqvGen (netlist.Meet (Seam library netlist spots)) index index' := by
    rintro index index' (rfl | hmeet | hmeet)
    · exact .refl _
    · exact .rel _ _ hmeet
    · exact .symm _ _ (.rel _ _ hmeet)
  induction hlinked with
  | refl segment =>
    intro spot position index wire hholds hholds' hsome
    obtain ⟨endpoint', hend'⟩ := List.exists_mem_of_ne_nil _ hsome
    -- both wires have the ends of the segment
    have hends := congrArg Wire.endpoints
      (Option.some.inj (hholds.segment.symm.trans hholds'.segment))
    have hmem : spot'.terminal endpoint' ∈ (spot.segment wire).endpoints := by
      rw [hends]
      exact List.mem_map_of_mem hend'
    obtain ⟨endpoint, hend, hterminal⟩ := List.mem_map.mp hmem
    exact hstep (h.meet_of_terminal hsingle hholds hholds' hend hend' hterminal)
  | head htouch _ ih =>
    intro spot position index wire hholds hholds' hsome
    obtain ⟨near, far, hnear, hfar, htouches⟩ := mem_touching.mp htouch
    obtain rfl := Option.some.inj (hholds.segment.symm.trans hnear)
    obtain ⟨middle, position'', wire'', index'', hmiddle, rfl⟩ := h.exists_holds hfar
    obtain ⟨shared, hmem, hmem'⟩ := Wire.touches_iff.mp htouches
    obtain ⟨endpoint, hend, rfl⟩ := List.mem_map.mp hmem
    obtain ⟨endpoint'', hend'', hterminal⟩ := List.mem_map.mp hmem'
    exact .trans _ _ _ (hstep (h.meet_of_terminal hsingle hholds hmiddle hend hend'' hterminal.symm))
      (ih hmiddle hholds' hsome)

/-- Connected wires of a spot have connected segments. -/
theorem exists_linked (hspot : spot ∈ spots) {other : Nat}
    (hlinked : Linked spot.schematic.wires position other) :
    ∀ {wire : Wire} {segment : Nat}, spot.schematic.wires[position]? = some wire →
      (schematic.segments library)[segment]? = some (spot.segment wire) →
      ∀ {wire' : Wire}, spot.schematic.wires[other]? = some wire' →
        ∃ segment', (schematic.segments library)[segment']? = some (spot.segment wire') ∧
          Linked (schematic.segments library) segment segment' := by
  induction hlinked with
  | refl =>
    intro wire segment hwire hsegment wire' hwire'
    obtain rfl := Option.some.inj (hwire.symm.trans hwire')
    exact ⟨segment, hsegment, .refl _⟩
  | head htouch _ ih =>
    intro wire segment hwire hsegment wire' hwire'
    obtain ⟨near, far, hnear, hfar, htouches⟩ := mem_touching.mp htouch
    obtain rfl := Option.some.inj (hwire.symm.trans hnear)
    obtain ⟨middle, hmiddle⟩ := h.exists_segment hspot hfar
    obtain ⟨shared, hmem, hmem'⟩ := Wire.touches_iff.mp htouches
    have hnext : middle ∈ (touching (schematic.segments library)).getD segment [] :=
      mem_touching.mpr ⟨_, _, hsegment, hmiddle, Wire.touches_iff.mpr
        ⟨spot.terminal shared, List.mem_map_of_mem hmem, List.mem_map_of_mem hmem'⟩⟩
    obtain ⟨segment', hsegment', hrest⟩ := ih hfar hmiddle hwire'
    exact ⟨segment', hsegment', .head hnext hrest⟩

/-- An end of the wires connected with one belongs to a segment connected with its
segment. -/
theorem exists_segment_of_end (hspot : spot ∈ spots)
    (hwire : spot.schematic.wires[position]? = some wire)
    (hsegment : (schematic.segments library)[segment]? = some (spot.segment wire))
    (hend : WireEnd spot.schematic.wires position endpoint) :
    ∃ (segment' : Nat) (found : Wire), (schematic.segments library)[segment']? = some found ∧
      Linked (schematic.segments library) segment segment' ∧
        spot.terminal endpoint ∈ found.endpoints := by
  obtain ⟨other, wire', hlinked, hwire', hmem⟩ := hend
  obtain ⟨segment', hsegment', hlinked'⟩ := h.exists_linked hspot hlinked hwire hsegment hwire'
  exact ⟨segment', _, hsegment', hlinked', List.mem_map_of_mem hmem⟩

/-! ## What a seam connects -/

/-- The scope inside an expanded component is another one. -/
theorem scope_ne
    (hcrossing : Crossing library netlist spots spot component inner boundary placed) :
    spot.scope ≠ inner.scope := by
  intro hscope
  have hpath := (h.laid inner hcrossing.located.listed).path
  rw [← hscope, (h.laid spot hcrossing.listed).path, hcrossing.ofNames] at hpath
  exact Path.within_ne _ _ hpath

theorem not_expanded
    (hcrossing : Crossing library netlist spots spot component inner boundary placed) :
    library.inside? boundary = none := by
  obtain ⟨entry, assembly, -, hentry, hassemble, -⟩ := hcrossing.located.madeOf
  exact (h.composed.boundary hcrossing.boundary hentry hassemble).1

/-- Outside an expanded component each of its ports is wired to the external pin of a
boundary port. -/
theorem exists_outer (hconnected : ∀ spot ∈ spots, spot.schematic.Connected library)
    (hcrossing : Crossing library netlist spots spot component inner boundary placed) :
    ∃ position index, Carries netlist spot position index ∧
      Reached netlist spot position ⟨placed.part, 1⟩ := by
  have hshown : Boundary.outerDecl boundary.args boundary.id ∈
      Library.boundaryPorts inner.schematic :=
    List.mem_map.mpr ⟨boundary, List.mem_filter.mpr
      ⟨hcrossing.located.drawn, decide_eq_true hcrossing.boundary⟩, rfl⟩
  obtain ⟨wire, hwire, hend⟩ := hconnected spot hcrossing.listed component hcrossing.drawn
    inner.schematic hcrossing.inside _ hshown
  obtain ⟨position, hlt, rfl⟩ := List.getElem_of_mem hwire
  obtain ⟨index, hcarries⟩ := h.exists_carries hcrossing.listed hlt
  exact ⟨position, index, hcarries, h.reached_outer hcrossing
    (WireEnd.self (List.getElem?_eq_getElem hlt) hend)⟩

/-- A net that lists a pin of a boundary port has the terminal of that port. -/
theorem exists_terminal (hsingle : netlist.Single)
    (hconnected : ∀ spot ∈ spots, spot.schematic.Connected library)
    (hcrossing : Crossing library netlist spots outer component inner boundary placed)
    (hholds : Holds netlist spots (schematic.segments library) spot position wire index segment)
    {port : Nat} (hreached : Reached netlist spot position ⟨placed.part, port⟩)
    (hlists : netlist.Lists index ⟨placed.part, port⟩) :
    ∃ (segment' : Nat) (found : Wire), (schematic.segments library)[segment']? = some found ∧
      Linked (schematic.segments library) segment segment' ∧
        ⟨(outer.path component.id).text, (Boundary.outerDecl boundary.args boundary.id).id⟩ ∈
          found.endpoints := by
  obtain ⟨endpoint, hend, hmem⟩ := hreached
  obtain ⟨segment', found, hfound, hlinked, hterminal⟩ :=
    h.exists_segment_of_end hholds.listed hholds.found hholds.segment hend
  refine ⟨segment', found, hfound, hlinked, ?_⟩
  obtain ⟨-, ⟨rfl, hnamed, hposition⟩ | ⟨found, hcrossing', rfl, -⟩⟩ := h.end_of_pin hholds.listed
    hmem hcrossing.located (h.not_expanded hcrossing) rfl
  · obtain ⟨_, _, _, _, -, -, -, -, hpins⟩ := hcrossing.sides h.composed
    by_cases hinner : endpoint.port = Boundary.innerPin
    · rw [hnamed, hinner, h.terminal_of_stands (.inner hcrossing)] at hterminal
      exact hterminal
    · -- an end at the external pin is outside
      have hport : port = 1 := by
        rw [hpins] at hposition
        obtain ⟨hlt, hid, -⟩ := List.findIdx?_eq_some_iff_getElem.mp hposition
        change port < 2 at hlt
        cases port with
        | zero => exact absurd (of_decide_eq_true hid).symm hinner
        | succ port => omega
      subst hport
      obtain ⟨position', index', hcarries, hreached⟩ := h.exists_outer hconnected hcrossing
      obtain ⟨part, inbound, _, _, -, -, hinput, houtput, -⟩ := hcrossing.sides h.composed
      have hfaces : netlist.Outputs ⟨placed.part, 1⟩ ∨ netlist.Inputs ⟨placed.part, 1⟩ := by
        cases inbound with
        | true => exact Or.inr hinput
        | false => exact Or.inl houtput
      obtain rfl := hsingle _ _ _ hlists (lists_of_reached hcarries hreached hfaces)
      exact absurd (hcarries.scope_eq hholds.carries) (h.scope_ne hcrossing)
  · rw [h.terminal_of_stands (.own hcrossing'.listed hcrossing'.drawn ?_)] at hterminal
    · rw [Option.some.inj (hcrossing.ofNames.symm.trans hcrossing'.ofNames)]
      exact hterminal
    · obtain ⟨place, hlocated⟩ := h.host hcrossing'.listed hcrossing'.drawn
      obtain ⟨entry, assembly, -, hentry, hassemble, -⟩ := hlocated.madeOf
      exact fun hboth =>
        (h.composed.expanded hcrossing'.inside hentry hassemble).1 hboth.2.1

/-- A seam leads between nets of connected segments. -/
theorem linked_of_meet (hsingle : netlist.Single)
    (hconnected : ∀ spot ∈ spots, spot.schematic.Connected library)
    (hmeet : netlist.Meet (Seam library netlist spots) index' index)
    (hholds : Holds netlist spots (schematic.segments library) spot position wire index segment) :
    ∃ spot' position' wire' segment',
      Holds netlist spots (schematic.segments library) spot' position' wire' index' segment' ∧
        Linked (schematic.segments library) segment' segment := by
  obtain ⟨_, ⟨outer, component, inner, boundary, placed, hcrossing, rfl⟩, part, inbound, _, _, -, -,
    htarget, hsource⟩ := hmeet
  obtain ⟨hreached, -⟩ := hholds.carries.hasSource_iff.mp hsource
  obtain ⟨_, hnet', -⟩ := id htarget
  obtain ⟨spot', hspot', position', wire', hwire', hcarries'⟩ :=
    h.exists_carried (List.getElem?_eq_some_iff.mp hnet').1
  obtain ⟨hreached', -⟩ := (h.hasTarget_iff hspot' hcarries' hcrossing.located
    (h.not_expanded hcrossing) rfl).mp htarget
  obtain ⟨segment', hsegment'⟩ := h.exists_segment hspot' hwire'
  have hholds' : Holds netlist spots (schematic.segments library) spot' position' wire' index'
      segment' := ⟨hspot', hwire', hsegment', hcarries'⟩
  obtain ⟨near, found, hnear, hlinked, hmem⟩ :=
    h.exists_terminal hsingle hconnected hcrossing hholds hreached hsource.lists
  obtain ⟨far, found', hfar, hlinked', hmem'⟩ :=
    h.exists_terminal hsingle hconnected hcrossing hholds' hreached' htarget.lists
  refine ⟨spot', position', wire', segment', hholds', (hlinked'.tail ?_).trans hlinked.symm⟩
  exact mem_touching.mpr ⟨_, _, hfar, hnear, Wire.touches_iff.mpr ⟨_, hmem', hmem⟩⟩

end Chart

end

end Breadboard
