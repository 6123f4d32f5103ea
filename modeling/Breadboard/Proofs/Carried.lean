import Breadboard.Proofs.Chart
import Breadboard.Proofs.Seams

/-!
# What the nets of a chart carry

A net of a charted circuit carries the wires of a group of one spot (`Carries`), and
lists just the ports that their ends attach. From a pin of a part the end can be found
that attaches it (`Chart.end_of_pin`): it names the component, or it is the port of an
expanded component that a boundary port shows.
-/

namespace Breadboard

theorem Netlist.decl?_of_madeOf {netlist : Netlist} {index : Nat} {assembly : Assembly} {part : Part}
    (hpart : netlist.parts[index]? = some part) (hmade : part.MadeOf assembly) (port : Nat) :
    netlist.decl? ⟨index, port⟩ = assembly.ports[port]? := by
  rw [Netlist.decl?, Netlist.port?, hpart, Option.bind_some, ← hmade.ports, List.getElem?_map]

theorem Builtin.faces (builtin : Builtin) (args : Json) :
    ∀ decl ∈ (builtin.assemble args).ports, decl.type.input = true ∨ decl.type.output = true := by
  have houter : ∀ id, (Boundary.outerDecl args id).type.input = true ∨
      (Boundary.outerDecl args id).type.output = true := fun id => by
    by_cases h : args.text "dir" "in" = "out" <;> simp [Boundary.outerDecl, h]
  cases builtin with
  | adder =>
    cases hin : args.flag "carryIn" false <;> cases hout : args.flag "carryOut" false <;>
      simp [assemble, ports, hin, hout, PortType.dataIn, PortType.dataOut]
  | boundary =>
    intro decl hdecl
    rcases List.mem_append.mp hdecl with hdecl | hdecl
    · rw [List.mem_singleton.mp hdecl]
      exact (houter "").symm
    · rw [List.mem_singleton.mp hdecl]
      exact houter ""
  | _ =>
    simp [assemble, ports, PortType.dataIn, PortType.dataOut, PortType.ctrlIn, PortType.dataOutTri,
      PortType.dataBus]

/-- An end of the wires that are connected with one. -/
def WireEnd (wires : List Wire) (position : Nat) (endpoint : Endpoint) : Prop :=
  ∃ other wire, Linked wires position other ∧ wires[other]? = some wire ∧
    endpoint ∈ wire.endpoints

theorem WireEnd.self {wires : List Wire} {position : Nat} {wire : Wire} {endpoint : Endpoint}
    (hwire : wires[position]? = some wire) (hend : endpoint ∈ wire.endpoints) :
    WireEnd wires position endpoint :=
  ⟨position, wire, .refl _, hwire, hend⟩

theorem groupEnd_iff_wireEnd {wires : List Wire} {group : List Nat} {position : Nat}
    {endpoint : Endpoint} (hgroup : group ∈ wireGroups wires) (hposition : position ∈ group) :
    Netlist.GroupEnd wires group endpoint ↔ WireEnd wires position endpoint := by
  obtain ⟨first, -, hmem⟩ := mem_wireGroups hgroup
  have hlinked : ∀ other, other ∈ group ↔ Linked wires position other := fun other =>
    ⟨fun hother => linked_of_group hgroup hposition hother, fun hother =>
      (hmem other).mpr (((hmem position).mp hposition).trans hother)⟩
  simp only [Netlist.GroupEnd, WireEnd, hlinked]
  exact ⟨fun ⟨other, hother, wire, hwire⟩ => ⟨other, wire, hother, hwire⟩,
    fun ⟨other, wire, hother, hwire⟩ => ⟨other, hother, wire, hwire⟩⟩

/-- The net joins the wires that are connected with one of a spot. -/
def Carries (netlist : Netlist) (spot : Spot) (position index : Nat) : Prop :=
  ∃ group ∈ wireGroups spot.schematic.wires, position ∈ group ∧
    ∃ net, netlist.nets[index]? = some net ∧
      netlist.Joins spot.schematic.wires spot.scope spot.placements group net

/-- One of the wires connected with one of a spot ends at a port, which may drive. -/
def Reached (netlist : Netlist) (spot : Spot) (position : Nat) (ref : PortRef) : Prop :=
  ∃ endpoint, WireEnd spot.schematic.wires position endpoint ∧
    (ref, true) ∈ netlist.attachments spot.placements endpoint

section

variable {library : Library} {schematic : Schematic} {netlist : Netlist} {spots : List Spot}
  {spot other inner : Spot} {component component' boundary : Component} {placed placed' : Placed}
  {position index : Nat} {ref : PortRef} {endpoint : Endpoint} {wire : Wire} {asSource : Bool}

namespace Carries

theorem net (h : Carries netlist spot position index) : index < netlist.nets.length := by
  obtain ⟨-, -, -, net, hnet, -⟩ := h
  exact (List.getElem?_eq_some_iff.mp hnet).1

theorem hasSource_iff (h : Carries netlist spot position index) :
    netlist.HasSource index ref ↔ Reached netlist spot position ref ∧ netlist.Outputs ref := by
  obtain ⟨group, hgroup, hposition, net, hnet, hjoins⟩ := h
  have hself : netlist.HasSource index ref ↔ ref ∈ net.sources := by
    simp only [Netlist.HasSource, hnet, Option.some.injEq, exists_eq_left']
  rw [hself, hjoins.sources]
  simp only [groupEnd_iff_wireEnd hgroup hposition, Reached]

theorem hasTarget_iff (h : Carries netlist spot position index) :
    netlist.HasTarget index ref ↔ (∃ endpoint asSource,
      WireEnd spot.schematic.wires position endpoint ∧
        (ref, asSource) ∈ netlist.attachments spot.placements endpoint) ∧ netlist.Inputs ref := by
  obtain ⟨group, hgroup, hposition, net, hnet, hjoins⟩ := h
  have hself : netlist.HasTarget index ref ↔ ref ∈ net.targets := by
    simp only [Netlist.HasTarget, hnet, Option.some.injEq, exists_eq_left']
  rw [hself, hjoins.targets]
  simp only [groupEnd_iff_wireEnd hgroup hposition]

theorem hasTarget_of_reached (h : Carries netlist spot position index)
    (hreached : Reached netlist spot position ref) (hinput : netlist.Inputs ref) :
    netlist.HasTarget index ref := by
  obtain ⟨endpoint, hend, hmem⟩ := hreached
  exact h.hasTarget_iff.mpr ⟨⟨endpoint, true, hend, hmem⟩, hinput⟩

/-- A net is of one scope. -/
theorem scope_eq {position' : Nat} (h : Carries netlist spot position index)
    (h' : Carries netlist other position' index) : spot.scope = other.scope := by
  obtain ⟨_, -, -, net, hnet, hjoins⟩ := h
  obtain ⟨_, -, -, net', hnet', hjoins'⟩ := h'
  obtain rfl := Option.some.inj (hnet.symm.trans hnet')
  exact hjoins.scope_eq.symm.trans hjoins'.scope_eq

end Carries

namespace Chart

variable (h : Chart library schematic netlist spots)

include h

theorem exists_carries (hspot : spot ∈ spots) (hlt : position < spot.schematic.wires.length) :
    ∃ index, Carries netlist spot position index := by
  obtain ⟨group, hgroup, hposition⟩ := exists_group hlt
  obtain ⟨index, net, hnet, hjoins⟩ := (h.laid spot hspot).nets group hgroup
  exact ⟨index, group, hgroup, hposition, net, hnet, hjoins⟩

theorem exists_carried (hlt : index < netlist.nets.length) :
    ∃ spot ∈ spots, ∃ position wire, spot.schematic.wires[position]? = some wire ∧
      Carries netlist spot position index := by
  have hnet := List.getElem?_eq_getElem hlt
  obtain ⟨spot, hspot, group, hgroup, hjoins⟩ := h.net hnet
  obtain ⟨first, hfirst, hmem⟩ := mem_wireGroups hgroup
  exact ⟨spot, hspot, first, _, List.getElem?_eq_getElem hfirst, group, hgroup,
    (hmem first).mpr (.refl first), _, hnet, hjoins⟩

/-- An end of a wire names a component. -/
theorem component_of_end (hspot : spot ∈ spots) (hsome : netlist.attachments spot.placements endpoint ≠ []) :
    ∃ component placed, Located library netlist spots spot component placed ∧
      endpoint = ⟨component.id, endpoint.port⟩ := by
  unfold Netlist.attachments at hsome
  split at hsome
  · exact absurd rfl hsome
  · next placed hlookup =>
    obtain ⟨component, hdrawn, hid⟩ := (h.laid spot hspot).known _ _ hlookup
    obtain ⟨placed, hlocated⟩ := h.host hspot hdrawn
    exact ⟨component, placed, hlocated, by rw [hid]⟩

/-- The end that attaches a pin of a component that is not expanded. -/
theorem end_of_pin (hspot : spot ∈ spots)
    (hmem : (ref, asSource) ∈ netlist.attachments spot.placements endpoint)
    (hlocated : Located library netlist spots other component placed)
    (hinside : library.inside? component = none) (hpart : ref.part = placed.part) :
    asSource = true ∧
      ((spot = other ∧ endpoint = ⟨component.id, endpoint.port⟩ ∧
          netlist.position? placed.part endpoint.port = some ref.port) ∨
        ∃ outer, Crossing library netlist spots spot outer other component placed ∧
          endpoint = ⟨outer.id, (Boundary.outerDecl component.args component.id).id⟩ ∧
            ref.port = 1) := by
  have hsome : netlist.attachments spot.placements endpoint ≠ [] := List.ne_nil_of_mem hmem
  obtain ⟨found, placed', hfound, hend⟩ := h.component_of_end hspot hsome
  rw [hend] at hmem hsome
  cases hexpand : library.inside? found with
  | none =>
    obtain ⟨hsource, hpart', hposition⟩ := (hfound.mem_attachments_plain hexpand).mp hmem
    obtain ⟨rfl, rfl⟩ := h.eq_of_part hfound hlocated (hpart'.symm.trans hpart)
    obtain rfl := hfound.placed_eq hlocated
    exact ⟨hsource, Or.inl ⟨rfl, hend, hposition⟩⟩
  | some inside =>
    obtain ⟨port, inner, boundary, placed'', hcrossing, hid, heq⟩ :=
      h.attachments_expanded hfound hexpand hsome
    rw [heq] at hmem
    simp only [List.mem_cons, List.not_mem_nil, or_false, Prod.mk.injEq] at hmem
    rcases hmem with ⟨rfl, -⟩ | ⟨rfl, hsource⟩
    · -- the part of the expanded component itself is another one
      obtain ⟨rfl, rfl⟩ := h.eq_of_part hfound hlocated hpart
      rw [hexpand] at hinside
      cases hinside
    · obtain ⟨rfl, rfl⟩ := h.eq_of_part hcrossing.located hlocated hpart
      obtain rfl := hcrossing.located.placed_eq hlocated
      exact ⟨hsource, Or.inr ⟨found, hcrossing, by rw [hend, ← hid], rfl⟩⟩

/-- A pin of a component that is not expanded is a target if an end attaches it and it
reads. -/
theorem hasTarget_iff (hspot : spot ∈ spots) (hcarries : Carries netlist spot position index)
    (hlocated : Located library netlist spots other component placed)
    (hinside : library.inside? component = none) (hpart : ref.part = placed.part) :
    netlist.HasTarget index ref ↔ Reached netlist spot position ref ∧ netlist.Inputs ref := by
  rw [hcarries.hasTarget_iff]
  refine and_congr_left' ⟨fun ⟨endpoint, asSource, hend, hmem⟩ => ⟨endpoint, hend, ?_⟩,
    fun ⟨endpoint, hend, hmem⟩ => ⟨endpoint, true, hend, hmem⟩⟩
  obtain ⟨rfl, -⟩ := h.end_of_pin hspot hmem hlocated hinside hpart
  exact hmem

end Chart

end

end Breadboard
