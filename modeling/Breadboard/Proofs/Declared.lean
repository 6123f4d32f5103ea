import Breadboard.Proofs.Clean
import Breadboard.Proofs.Terminals

/-!
# Declared ports in a chart

Every port that an end of a wire attaches is of the type and the width that are
declared for the end (`Chart.decl_of_attached`), be it that of the component itself or
that of the boundary port behind it. So the ends of its wires tell whether a net is
tri-state (`Chart.tristate_of_end`, `Chart.plain_of_ends`), how wide it is
(`Chart.width_of_end`), and what drives it (`Chart.sources_eq`).
-/

namespace Breadboard

section

variable {library : Library} {schematic : Schematic} {netlist : Netlist} {spots : List Spot}
  {spot : Spot} {component : Component} {placed : Placed} {position index : Nat}
  {ref source : PortRef} {endpoint : Endpoint} {decl : PortDecl} {net : Net} {asSource : Bool}

/-- The component that an end of a wire names, and what it is built as. -/
theorem Spot.exists_assembly (hnodup : (spot.schematic.components.map (·.id)).Nodup)
    (hmem : component ∈ spot.schematic.components) {id : String}
    (hdecl : spot.schematic.decl? library ⟨component.id, id⟩ = some decl) :
    ∃ assembly, library.assembly? component = some assembly ∧
      assembly.ports.find? (·.id = id) = some decl := by
  obtain ⟨found, hfound, hid, assembly, hassembly, hfind⟩ := exists_of_decl? hdecl
  obtain rfl := List.inj_on_of_nodup_map hnodup hfound hmem hid
  exact ⟨assembly, hassembly, hfind⟩

namespace Chart

variable (h : Chart library schematic netlist spots)

include h

/-- What a boundary port shows, its external pin has as well. -/
theorem decl_external {inner : Spot} {boundary : Component} {placed' : Placed}
    (hcrossing : Crossing library netlist spots spot component inner boundary placed') :
    netlist.decl? ⟨placed'.part, 1⟩ =
      some { Boundary.outerDecl boundary.args "" with id := Boundary.externalPin } := by
  obtain ⟨part, hpart, hmade⟩ := madeOf_boundary h.composed hcrossing.located hcrossing.boundary
  exact Netlist.decl?_of_madeOf hpart hmade 1

/-- A port that an end of a wire attaches is of the type and the width that are declared
for the end. -/
theorem decl_of_attached (hspot : spot ∈ spots)
    (hmem : (ref, asSource) ∈ netlist.attachments spot.placements endpoint)
    (hdecl : spot.schematic.decl? library endpoint = some decl) :
    ∃ found, netlist.decl? ref = some found ∧ found.type = decl.type ∧
      found.width = decl.width := by
  obtain ⟨component, placed, hlocated, hend⟩ :=
    h.component_of_end hspot (List.ne_nil_of_mem hmem)
  rw [hend] at hdecl hmem
  obtain ⟨assembly, hassembly, hfind⟩ :=
    spot.exists_assembly (h.nodup spot hspot) hlocated.drawn hdecl
  obtain ⟨own, hown, hfound⟩ := position_of_outline (hlocated.hosts.outline hassembly) hfind
  cases hinside : library.inside? component with
  | none =>
    obtain ⟨-, hpart, hposition⟩ := (hlocated.mem_attachments_plain hinside).mp hmem
    obtain ⟨part, port⟩ := ref
    obtain rfl : part = placed.part := hpart
    obtain rfl := Option.some.inj (hown.symm.trans hposition)
    exact ⟨decl, hfound, rfl, rfl⟩
  | some inside =>
    obtain ⟨port, inner, boundary, placed', hcrossing, hid, heq⟩ :=
      h.attachments_expanded hlocated hinside (List.ne_nil_of_mem hmem)
    -- the first of both is the port of the component itself
    have hsame : port = own := by
      have hhead : (netlist.attachments spot.placements ⟨component.id, endpoint.port⟩).head? =
          some (⟨placed.part, own⟩, netlist.parts[placed.part]?.any (·.valid)) := by
        rw [Netlist.attachments, hlocated.hosts.lookup]
        dsimp only
        rw [hown]
        dsimp only
        rw [Netlist.standing, ← hid, h.behind_crossing hlocated hcrossing]
        rfl
      rw [heq] at hhead
      exact congrArg (fun pair : PortRef × Bool => pair.1.port) (Option.some.inj hhead)
    rw [heq, List.mem_cons, List.mem_singleton] at hmem
    rcases hmem with hmem | hmem
    · obtain ⟨rfl, -⟩ := Prod.mk.inj hmem
      exact ⟨decl, hsame ▸ hfound, rfl, rfl⟩
    · obtain ⟨rfl, -⟩ := Prod.mk.inj hmem
      refine ⟨_, h.decl_external hcrossing, ?_⟩
      obtain ⟨entry, hentry, hassemble⟩ := Library.assembly?_eq hassembly
      obtain ⟨-, rfl⟩ := h.composed.expanded hcrossing.inside hentry hassemble
      have hexposed := h.exposed inner hcrossing.located.listed (by simp [hcrossing.names])
      have hshown : Boundary.outerDecl boundary.args boundary.id ∈
          Library.boundaryPorts inner.schematic :=
        List.mem_map_of_mem (List.mem_filter.mpr
          ⟨hcrossing.located.drawn, decide_eq_true hcrossing.boundary⟩)
      obtain rfl := List.inj_on_of_nodup_map hexposed (List.mem_of_find?_eq_some hfind) hshown
        ((by simpa using List.find?_some hfind : decl.id = endpoint.port).trans hid.symm)
      exact ⟨rfl, rfl⟩

/-- What an end at a port of an expanded component attaches, given the boundary port
inside that shows it. -/
theorem attachments_crossing {inner : Spot} {boundary : Component} {placed' : Placed}
    (hlocated : Located library netlist spots spot component placed)
    (hcrossing : Crossing library netlist spots spot component inner boundary placed')
    (hsome : netlist.attachments spot.placements
      ⟨component.id, (Boundary.outerDecl boundary.args boundary.id).id⟩ ≠ []) :
    ∃ port, netlist.attachments spot.placements
      ⟨component.id, (Boundary.outerDecl boundary.args boundary.id).id⟩ =
        [(⟨placed.part, port⟩, false), (⟨placed'.part, 1⟩, true)] := by
  obtain ⟨port, inner', boundary', placed'', hcrossing', hid, heq⟩ :=
    h.attachments_expanded hlocated hcrossing.inside hsome
  obtain ⟨-, -, rfl⟩ := h.eq_of_crossing hcrossing hcrossing' hid.symm
  exact ⟨port, heq⟩

/-- An end for which a port is declared attaches something. -/
theorem attachments_of_decl (hspot : spot ∈ spots)
    (hsensible : spot.schematic.Sensible library)
    (hdecl : spot.schematic.decl? library endpoint = some decl) :
    netlist.attachments spot.placements endpoint ≠ [] := by
  obtain ⟨component, hdrawn, hid, assembly, hassembly, hfind⟩ := exists_of_decl? hdecl
  obtain ⟨placed, hhosts⟩ := (h.laid spot hspot).hosts component hdrawn
  obtain ⟨name, id⟩ := endpoint
  obtain rfl : component.id = name := hid
  exact (hhosts.meets h.composed h.laid (hsensible.exposed component hdrawn) hassembly hfind).1

/-- A port that may drive belongs to a component that is not expanded: the one that the
end names, or a boundary port right inside it. -/
theorem exists_driver (hspot : spot ∈ spots)
    (hmem : (ref, true) ∈ netlist.attachments spot.placements endpoint) :
    ∃ other component placed, Located library netlist spots other component placed ∧
      library.inside? component = none ∧ ref.part = placed.part ∧
      (other = spot ∧ component.id = endpoint.component ∨
        other.names = spot.names ++ [endpoint.component]) := by
  have hsome := List.ne_nil_of_mem hmem
  obtain ⟨component, placed, hlocated, hend⟩ := h.component_of_end hspot hsome
  have hid : component.id = endpoint.component := (congrArg Endpoint.component hend).symm
  rw [hend] at hmem hsome
  cases hexpand : library.inside? component with
  | none =>
    obtain ⟨-, hpart, -⟩ := (hlocated.mem_attachments_plain hexpand).mp hmem
    exact ⟨spot, component, placed, hlocated, hexpand, hpart, .inl ⟨rfl, hid⟩⟩
  | some inside =>
    obtain ⟨port, inner, boundary, placed', hcrossing, -, heq⟩ :=
      h.attachments_expanded hlocated hexpand hsome
    rw [heq] at hmem
    simp only [List.mem_cons, List.not_mem_nil, or_false, Prod.mk.injEq, Bool.true_eq_false,
      and_false, false_or, and_true] at hmem
    exact ⟨inner, boundary, placed', hcrossing.located, h.not_expanded hcrossing,
      congrArg PortRef.part hmem, .inr (hid ▸ hcrossing.names)⟩

/-- A port that may drive is attached by the ends of one component alone. -/
theorem component_eq_of_attached {endpoint' : Endpoint} (hspot : spot ∈ spots)
    (hmem : (ref, true) ∈ netlist.attachments spot.placements endpoint)
    (hmem' : (ref, true) ∈ netlist.attachments spot.placements endpoint') :
    endpoint.component = endpoint'.component := by
  obtain ⟨other, component, placed, hlocated, -, hpart, hwhere⟩ := h.exists_driver hspot hmem
  obtain ⟨other', component', placed', hlocated', -, hpart', hwhere'⟩ := h.exists_driver hspot hmem'
  obtain ⟨rfl, rfl⟩ := h.eq_of_part hlocated hlocated' (hpart.symm.trans hpart')
  rcases hwhere with ⟨rfl, hid⟩ | hnames <;> rcases hwhere' with ⟨heq, hid'⟩ | hnames'
  · exact hid.symm.trans hid'
  · simp at hnames'
  · simp [heq] at hnames
  · exact List.singleton_inj.mp (List.append_cancel_left (hnames.symm.trans hnames'))

/-! ## Nets -/

/-- A net that joins an end lists a port of the type and the width declared for it. -/
theorem exists_listed (hflat : netlist.Flat) (hspot : spot ∈ spots)
    (hcarries : Carries netlist spot position index) (hnet : netlist.nets[index]? = some net)
    (hend : WireEnd spot.schematic.wires position endpoint)
    (hdecl : spot.schematic.decl? library endpoint = some decl) :
    ∃ ref port, netlist.Attached net ref port ∧ port.type = decl.type ∧
      port.width = decl.width := by
  obtain ⟨ref, hmem, hfaces⟩ := h.exists_attached hspot (h.attachments_ne_nil hspot hend)
  obtain ⟨found, hfound, htype, hwidth⟩ := h.decl_of_attached hspot hmem hdecl
  obtain ⟨port, hport, rfl⟩ := Option.map_eq_some_iff.mp hfound
  obtain ⟨listing, hlisting, href⟩ := lists_of_reached hcarries ⟨endpoint, hend, hmem⟩ hfaces
  obtain rfl := Option.some.inj (hnet.symm.trans hlisting)
  obtain ⟨port', hattached⟩ := hflat.wired.attached hnet href
  obtain rfl := Option.some.inj (hattached.found.symm.trans hport)
  exact ⟨ref, port', hattached, htype, hwidth⟩

theorem tristate_of_end (hflat : netlist.Flat) (hspot : spot ∈ spots)
    (hcarries : Carries netlist spot position index) (hnet : netlist.nets[index]? = some net)
    (hend : WireEnd spot.schematic.wires position endpoint)
    (hdecl : spot.schematic.decl? library endpoint = some decl)
    (htristate : decl.type.tristate = true) : net.tristate = true := by
  obtain ⟨ref, port, hattached, htype, -⟩ := h.exists_listed hflat hspot hcarries hnet hend hdecl
  exact hattached.tristate (htype ▸ htristate)

theorem width_of_end (hflat : netlist.Flat) (hspot : spot ∈ spots)
    (hcarries : Carries netlist spot position index) (hnet : netlist.nets[index]? = some net)
    (hend : WireEnd spot.schematic.wires position endpoint)
    (hdecl : spot.schematic.decl? library endpoint = some decl) (hwidth : decl.width ≠ 0) :
    net.width = decl.width := by
  obtain ⟨ref, port, hattached, -, heq⟩ := h.exists_listed hflat hspot hcarries hnet hend hdecl
  rcases hattached.width with hsame | hzero
  · exact hsame.symm.trans heq
  · exact absurd (heq.symm.trans hzero) hwidth

/-- A net is plain if no end is declared to be tri-state. -/
theorem plain_of_ends (htristate : ∀ net ∈ netlist.nets, net.tristate = true →
      netlist.ListsTristate net) (hspot : spot ∈ spots)
    (hcarries : Carries netlist spot position index) (hnet : netlist.nets[index]? = some net)
    (hends : ∀ endpoint, WireEnd spot.schematic.wires position endpoint →
      ∃ decl, spot.schematic.decl? library endpoint = some decl ∧ decl.type.tristate = false) :
    net.tristate = false := by
  refine Bool.eq_false_iff.mpr fun hopen => ?_
  obtain ⟨ref, port, href, hport, htype⟩ := htristate net (List.mem_of_getElem? hnet) hopen
  have hattached : ∃ endpoint asSource, WireEnd spot.schematic.wires position endpoint ∧
      (ref, asSource) ∈ netlist.attachments spot.placements endpoint := by
    rcases href with hsource | htarget
    · obtain ⟨⟨endpoint, hend, hmem⟩, -⟩ := hcarries.hasSource_iff.mp ⟨net, hnet, hsource⟩
      exact ⟨endpoint, true, hend, hmem⟩
    · exact (hcarries.hasTarget_iff.mp ⟨net, hnet, htarget⟩).1
  obtain ⟨endpoint, asSource, hend, hmem⟩ := hattached
  obtain ⟨decl, hdecl, hclosed⟩ := hends endpoint hend
  obtain ⟨found, hfound, hsame, -⟩ := h.decl_of_attached hspot hmem hdecl
  obtain ⟨port', hport', rfl⟩ := Option.map_eq_some_iff.mp hfound
  obtain rfl := Option.some.inj (hport.symm.trans hport')
  rw [hsame, hclosed] at htype
  cases htype

omit h in
/-- A port that is paired with its net is listed by no other one. -/
theorem single_of_paired (hwired : netlist.Wired) (hpaired : ∀ ref, netlist.Paired ref) :
    netlist.Single := by
  intro first second ref hfirst hsecond
  obtain ⟨net, hnet, href⟩ := id hfirst
  obtain ⟨port, hattached⟩ := hwired.attached hnet href
  have hiff := fun index => (hpaired ref).net_iff port index hattached.found
  exact Option.some.inj (((hiff first).mpr hfirst).symm.trans ((hiff second).mpr hsecond))

omit h in
theorem nodup_sources (hpaired : ∀ ref, netlist.Paired ref) (hnet : netlist.nets[index]? = some net) :
    net.sources.Nodup :=
  List.nodup_iff_count_le_one.mpr fun ref =>
    (hpaired ref).once net (List.mem_of_getElem? hnet) true

omit h in
/-- The sources of a net, if all of them are one port. -/
theorem sources_eq (hpaired : ∀ ref, netlist.Paired ref) (hnet : netlist.nets[index]? = some net)
    (hiff : ∀ ref, netlist.HasSource index ref ↔ ref = source) : net.sources = [source] := by
  refine List.perm_singleton.mp ((List.perm_ext_iff_of_nodup (nodup_sources hpaired hnet)
    (List.nodup_singleton source)).mpr fun ref => ?_)
  rw [List.mem_singleton, ← hiff ref]
  simp only [Netlist.HasSource, hnet, Option.some.injEq, exists_eq_left']

end Chart

end

end Breadboard
