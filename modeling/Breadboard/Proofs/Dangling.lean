import Breadboard.Proofs.Connections
import Breadboard.Proofs.Onward

/-!
# Ends of wires that name nothing

An end of a wire that names no port is reported and left out
(`hushed_bindEnd_of_dangling`), but by then it has taken part in grouping the wires. So a
schematic without such ends flattens to the same circuit, up to these reports, if and only
if its wires fall into the same groups (`flatten_keeps_iff`). That they may not shows
`flatten_joins_at_nothing`: two wires become one net because both name a component that
does not exist.
-/

namespace Breadboard

open Netlist

variable {library : Library} {netlist next other : Netlist} {placements : Placements}
  {scope index depth : Nat} {components : List Component} {wires others : List Wire}
  {schematic : Schematic} {p : Endpoint → Bool}

/-! ## Named ports -/

/-- The ids of the ports of what is placed under an id: the last of the components with the
id that can be built. -/
def Library.portsAt (library : Library) (components : List Component) (id : String) :
    Option (List String) :=
  ((components.filter (·.id = id)).filterMap library.assembly?).getLast?.map fun assembly =>
    assembly.ports.map (·.id)

/-- Whether an end of a wire names a port. -/
def Schematic.names (library : Library) (schematic : Schematic) (endpoint : Endpoint) : Bool :=
  (library.portsAt schematic.components endpoint.component).any (endpoint.port ∈ ·)

/-- A wire with some of its ends only. -/
def Wire.keeping (p : Endpoint → Bool) (wire : Wire) : Wire :=
  { wire with endpoints := wire.endpoints.filter p }

/-- The schematic without the ends of wires that name nothing. -/
def Schematic.cleaned (library : Library) (schematic : Schematic) : Schematic :=
  { schematic with wires := schematic.wires.map (·.keeping (schematic.names library)) }

/-- The ids of the ports of what was placed under an id. -/
def Netlist.portsAt (netlist : Netlist) (placements : Placements) (id : String) :
    Option (List String) :=
  (placements.lookup id).bind fun placed =>
    netlist.outline[placed.part]?.map fun part => part.ports.map (·.id)

theorem Library.portsAt_append (component : Component) (id : String) :
    library.portsAt (components ++ [component]) id =
      if component.id = id then
        match library.assembly? component with
        | none => library.portsAt components id
        | some assembly => some (assembly.ports.map (·.id))
      else library.portsAt components id := by
  simp only [portsAt, List.filter_append, List.filterMap_append]
  by_cases hid : component.id = id
  · rw [if_pos hid, List.filter_singleton, decide_eq_true hid, cond_true]
    cases hassembly : library.assembly? component with
    | none => simp [hassembly]
    | some assembly => simp [hassembly]
  · rw [if_neg hid, List.filter_singleton, decide_eq_false hid]
    simp

/-- What is placed is what the components say, and each entry has its part. -/
structure Placing (library : Library) (components : List Component)
    (state : Netlist × Placements) : Prop where
  ports : ∀ id, state.1.portsAt state.2 id = library.portsAt components id
  part : ∀ entry ∈ state.2, entry.2.part < state.1.parts.length

theorem Placing.grow (h : Placing library components (netlist, placements))
    (hnext : netlist.Onward next) : Placing library components (next, placements) := by
  refine ⟨fun id => (?_ : _ = netlist.portsAt placements id).trans (h.ports id), fun entry hentry =>
    Nat.lt_of_lt_of_le (h.part entry hentry) hnext.length_parts⟩
  unfold Netlist.portsAt
  cases hlookup : placements.lookup id with
  | none => rfl
  | some placed =>
    have hlt := h.part _ (mem_of_lookup hlookup)
    rw [← length_outline] at hlt
    rw [Option.bind_some, Option.bind_some,
      getElem?_of_prefix hnext.outline (List.getElem?_eq_getElem hlt), List.getElem?_eq_getElem hlt]

theorem Placing.place (h : Placing library components (netlist, placements)) (depth scope : Nat)
    (component : Component) : Placing library (components ++ [component])
      (Breadboard.place library (layout library depth) scope (netlist, placements) component) := by
  have hinside : netlist.Onward (enter (layout library depth) scope netlist component
      (library.inside? component)).1 := onward_of_grows (grows_enter library ..)
  cases hassembly : library.assembly? component with
  | none =>
    obtain ⟨diagnostic, hplace⟩ := place_of_unbuilt (layout library depth) scope netlist
      placements hassembly
    rw [hplace]
    have hnext := hinside.report diagnostic
    refine ⟨fun id => ((h.grow hnext).ports id).trans ?_, (h.grow hnext).part⟩
    rw [Library.portsAt_append, hassembly, ite_self]
  | some assembly =>
    rw [place_of_assembly? hassembly]
    have hnext := h.grow (hinside.addPart (assembly.toPart component scope))
    refine ⟨fun id => ?_, fun other hother => ?_⟩
    · rw [Library.portsAt_append, hassembly]
      split
      · next hid =>
        subst hid
        rw [Netlist.portsAt, List.lookup_cons, beq_self_eq_true]
        simp only [Option.bind_some, Grown.outline_addPart]
        rw [← length_outline, List.getElem?_concat_length, Stage.unbound_toPart]
        simp [Assembly.toPart, Function.comp_def, PortDecl.unbound]
      · next hid =>
        rw [← hnext.ports id, Netlist.portsAt, Netlist.portsAt, List.lookup_cons,
          beq_false_of_ne (Ne.symm hid)]
    · rcases List.mem_cons.mp hother with rfl | hother
      · simp [addPart]
      · exact hnext.part other hother

theorem placing_foldl (library : Library) (depth scope : Nat) (rest : List Component) :
    ∀ {components : List Component} {state : Netlist × Placements},
      Placing library components state → Placing library (components ++ rest)
        (rest.foldl (Breadboard.place library (layout library depth) scope) state) := by
  induction rest with
  | nil =>
    intro components state h
    rwa [List.append_nil]
  | cons component rest ih =>
    intro components state h
    have hrest := ih (h.place depth scope component)
    rwa [List.append_assoc, List.singleton_append] at hrest

/-! ## Without the reports -/

/-- The reports of ends of wires that name nothing. -/
def Diagnostic.dangling : Diagnostic → Bool
  | unknownComponent .. | unknownPort .. => true
  | _ => false

/-- A netlist without the reports of ends that name nothing. -/
def Netlist.hushed (netlist : Netlist) : Netlist :=
  { netlist with diagnostics := netlist.diagnostics.filter (!·.dangling) }

theorem hushed_report (netlist : Netlist) (diagnostic : Diagnostic) :
    (netlist.report diagnostic).hushed =
      if diagnostic.dangling then netlist.hushed else netlist.hushed.report diagnostic := by
  rw [report, hushed, hushed, List.filter_append, List.filter_singleton]
  cases diagnostic.dangling with
  | true => rw [Bool.not_true, cond_false, List.append_nil, if_pos rfl]
  | false => rfl

theorem hushed_bind (netlist : Netlist) (ref : PortRef) (asSource : Bool) :
    (netlist.bind index ref asSource).hushed = netlist.hushed.bind index ref asSource := by
  have hport : netlist.hushed.port? ref = netlist.port? ref := rfl
  have hnets : netlist.hushed.nets = netlist.nets := rfl
  unfold Netlist.bind
  rw [hport, hnets]
  cases netlist.port? ref with
  | none => rfl
  | some port =>
    cases netlist.nets[index]? with
    | none => rfl
    | some net =>
      dsimp only
      split
      · rfl
      · split
        · exact hushed_report netlist _
        · rfl

theorem hushed_bindPlaced (netlist : Netlist) (placed : Placed) (port : Nat) (id : String) :
    (netlist.bindPlaced index placed port id).hushed =
      netlist.hushed.bindPlaced index placed port id := by
  have hbehind : netlist.hushed.behind? placed id = netlist.behind? placed id := rfl
  rw [bindPlaced_eq, bindPlaced_eq, hbehind]
  cases netlist.behind? placed id with
  | none => exact hushed_bind ..
  | some inner =>
    dsimp only
    rw [hushed_bind, hushed_bind]
    rfl

theorem hushed_bindEnd_of_dangling (netlist : Netlist) {wireEnd : String × Endpoint}
    (h : (placements.lookup wireEnd.2.component).bind (fun placed =>
      netlist.position? placed.part wireEnd.2.port) = none) :
    (netlist.bindEnd scope placements index wireEnd).hushed = netlist.hushed := by
  rw [bindEnd_eq]
  cases hlookup : placements.lookup wireEnd.2.component with
  | none => exact hushed_report netlist _
  | some placed =>
    rw [hlookup, Option.bind_some] at h
    dsimp only
    rw [h]
    exact hushed_report netlist _

/-- Ends are bound alike where nothing but reports of such ends differs. -/
theorem hushed_bindEnd (h : netlist.hushed = other.hushed) (wireEnd : String × Endpoint) :
    (netlist.bindEnd scope placements index wireEnd).hushed =
      (other.bindEnd scope placements index wireEnd).hushed := by
  have hparts : netlist.hushed.parts = other.hushed.parts := congrArg Netlist.parts h
  have hposition : ∀ part id, netlist.position? part id = other.position? part id :=
    fun part id => congrArg (fun parts : List Part => parts[part]?.bind (·.port? id)) hparts
  cases hnamed : (placements.lookup wireEnd.2.component).bind fun placed =>
      other.position? placed.part wireEnd.2.port with
  | none =>
    rw [hushed_bindEnd_of_dangling other hnamed, ← h]
    refine hushed_bindEnd_of_dangling _ ?_
    simp only [hposition, hnamed]
  | some port =>
    obtain ⟨placed, hlookup, hport⟩ := Option.bind_eq_some_iff.mp hnamed
    rw [bindEnd_eq, bindEnd_eq, hlookup]
    dsimp only
    rw [hposition, hport]
    dsimp only
    rw [hushed_bindPlaced, hushed_bindPlaced, h]

theorem hushed_reportDrivers (netlist : Netlist) :
    netlist.reportDrivers.hushed = netlist.hushed.reportDrivers := by
  have hkept : ∀ entries : List (Net × Nat), (entries.filterMap fun entry =>
      if !entry.1.tristate && 1 < entry.1.sources.length then
        some (Diagnostic.multipleDrivers (netlist.netPath entry.2) entry.1.sources.length)
      else none).filter (!·.dangling) = entries.filterMap fun entry =>
        if !entry.1.tristate && 1 < entry.1.sources.length then
          some (Diagnostic.multipleDrivers (netlist.netPath entry.2) entry.1.sources.length)
        else none := by
    intro entries
    refine List.filter_eq_self.mpr fun diagnostic hmem => ?_
    obtain ⟨entry, -, heq⟩ := List.mem_filterMap.mp hmem
    obtain ⟨-, heq⟩ := Option.ite_none_right_eq_some.mp heq
    obtain rfl := Option.some.inj heq
    rfl
  have hpath : ∀ index, netlist.hushed.netPath index = netlist.netPath index := fun _ => rfl
  rw [Netlist.reportDrivers, Netlist.reportDrivers, hushed, hushed, List.filter_append]
  exact congrArg (fun found => ({ netlist with
    diagnostics := netlist.diagnostics.filter (!·.dangling) ++ found } : Netlist)) (hkept _)

/-! ## Leaving out ends -/

theorem filter_eraseDupsBy {α : Type} {r : α → α → Bool} {p : α → Bool}
    (hp : ∀ a b, r a b = true → p a = p b) : ∀ list : List α,
      (list.filter p).eraseDupsBy r = (list.eraseDupsBy r).filter p := by
  intro list
  induction hlength : list.length using Nat.strongRecOn generalizing list with
  | ind length ih =>
    cases list with
    | nil => rfl
    | cons a rest =>
      have hlt := List.length_filter_le (fun b => decide (r b a = false)) rest
      rw [List.length_cons] at hlength
      have hrest := ih _ (by omega) (rest.filter fun b => decide (r b a = false)) rfl
      rw [List.eraseDupsBy_cons, List.filter_cons, List.filter_cons, ← hrest]
      cases hpa : p a with
      | true =>
        rw [if_pos rfl, if_pos rfl, List.eraseDupsBy_cons, List.filter_filter, List.filter_filter]
        simp only [Bool.and_comm]
      | false =>
        rw [if_neg Bool.false_ne_true, if_neg Bool.false_ne_true, List.filter_filter]
        refine congrArg (List.eraseDupsBy r) (List.filter_congr fun b _ => ?_)
        cases hr : r b a with
        | true => rw [hp b a hr, hpa, Bool.false_and]
        | false => rw [decide_eq_true rfl, Bool.and_true]

theorem groupEnds_keeping (p : Endpoint → Bool) (wires : List Wire) :
    groupEnds (wires.map (·.keeping p)) = (groupEnds wires).filter (p ·.2) := by
  have hends : (wires.map (·.keeping p)).flatMap (fun wire => wire.endpoints.map (wire.id, ·)) =
      (wires.flatMap fun wire => wire.endpoints.map (wire.id, ·)).filter (p ·.2) := by
    rw [List.filter_flatMap, List.flatMap_map]
    refine List.flatMap_congr fun wire _ => ?_
    rw [List.filter_map]
    rfl
  rw [groupEnds, hends, filter_eraseDupsBy, groupEnds]
  intro a b heq
  rw [eq_of_beq heq]

/-- An end that names nothing among the placed components is only reported. -/
theorem Placing.hushed_bindEnd (h : Placing library schematic.components (other, placements))
    {wireEnd : String × Endpoint} (hnone : schematic.names library wireEnd.2 = false) :
    (other.bindEnd scope placements index wireEnd).hushed = other.hushed := by
  refine hushed_bindEnd_of_dangling _ ?_
  rw [Schematic.names, ← h.ports, Netlist.portsAt] at hnone
  cases hlookup : placements.lookup wireEnd.2.component with
  | none => rfl
  | some placed =>
    rw [Option.bind_some, position?_eq]
    cases hpart : other.outline[placed.part]? with
    | none => rfl
    | some part =>
      rw [hlookup, Option.bind_some, hpart, Option.map_some] at hnone
      refine List.findIdx?_eq_none_iff.mpr fun port hport => ?_
      simp only [Option.any_some, decide_eq_false_iff_not] at hnone
      exact decide_eq_false fun heq => hnone (heq ▸ List.mem_map_of_mem hport)

/-- Without the ends that name nothing, the others are bound as before. -/
theorem hushed_bindEnds (ends : List (String × Endpoint)) : ∀ {netlist other : Netlist},
    netlist.hushed = other.hushed → Placing library schematic.components (other, placements) →
      ((ends.filter (schematic.names library ·.2)).foldl (bindEnd scope placements index)
        netlist).hushed = (ends.foldl (bindEnd scope placements index) other).hushed := by
  induction ends with
  | nil => exact fun h _ => h
  | cons wireEnd ends ih =>
    intro netlist other h hplacing
    have hnext := hplacing.grow (onward_bindEnd scope placements index other wireEnd)
    rw [List.filter_cons]
    split
    · exact ih (hushed_bindEnd h wireEnd) hnext
    · next hnone =>
      exact ih (h.trans (hplacing.hushed_bindEnd (Bool.eq_false_iff.mpr hnone)).symm) hnext

theorem hushed_bindGroup (h : netlist.hushed = other.hushed)
    (hplacing : Placing library schematic.components (other, placements)) (group : List Nat) :
    (netlist.bindGroup (schematic.cleaned library).wires scope placements group).hushed =
      (other.bindGroup schematic.wires scope placements group).hushed := by
  have hmembers : group.filterMap ((schematic.cleaned library).wires[·]?) =
      (group.filterMap (schematic.wires[·]?)).map (·.keeping (schematic.names library)) := by
    rw [List.map_filterMap]
    refine List.filterMap_congr fun wire _ => ?_
    exact List.getElem?_map
  have hids : ((group.filterMap (schematic.wires[·]?)).map
      (·.keeping (schematic.names library))).map (·.id) =
        (group.filterMap (schematic.wires[·]?)).map (·.id) := by
    rw [List.map_map]
    rfl
  have hadded : (addNet schematic.wires scope netlist group).hushed =
      (addNet schematic.wires scope other group).hushed :=
    congrArg (addNet schematic.wires scope · group) h
  have hnets : netlist.hushed.nets.length = other.hushed.nets.length :=
    congrArg (·.nets.length) h
  unfold Netlist.bindGroup
  dsimp only
  rw [hmembers, groupEnds_keeping, hids, show netlist.nets.length = other.nets.length from hnets]
  exact hushed_bindEnds _ hadded (hplacing.grow ⟨List.prefix_rfl, List.prefix_rfl⟩)

theorem hushed_bindWires (netlist : Netlist)
    (hplacing : Placing library schematic.components (netlist, placements))
    (hgroups : wireGroups (schematic.cleaned library).wires = wireGroups schematic.wires) :
    (netlist.bindWires (schematic.cleaned library).wires scope placements).hushed =
      (netlist.bindWires schematic.wires scope placements).hushed := by
  rw [Netlist.bindWires, hgroups, Netlist.bindWires]
  refine (List.foldl_rel (r := fun netlist other : Netlist => netlist.hushed = other.hushed ∧
    Placing library schematic.components (other, placements)) ⟨rfl, hplacing⟩
    fun group _ netlist other ⟨h, hplacing⟩ => ⟨hushed_bindGroup h hplacing group, ?_⟩).1
  exact hplacing.grow (onward_of_grows (show Grows Library.empty _ _ from grows_bindGroup ..))

/-! ## How many nets there are -/

theorem length_nets_bindWires (netlist : Netlist) (wires : List Wire) :
    (netlist.bindWires wires scope placements).nets.length =
      netlist.nets.length + (wireGroups wires).length := by
  have hfold : ∀ (groups : List (List Nat)) (netlist : Netlist),
      (groups.foldl (bindGroup wires scope placements) netlist).nets.length =
        netlist.nets.length + groups.length := by
    intro groups
    induction groups with
    | nil => exact fun _ => rfl
    | cons group groups ih =>
      intro netlist
      rw [List.foldl_cons, ih, length_bindGroup, List.length_cons, Nat.add_right_comm,
        Nat.add_assoc]
  exact hfold _ netlist

theorem linked_of_keeping {a b : Nat} (h : Linked (wires.map (·.keeping p)) a b) :
    Linked wires a b := by
  induction h with
  | refl => exact .refl _
  | head hmem _ ih =>
    refine .head ?_ ih
    obtain ⟨near, far, hnear, hfar, htouches⟩ := mem_touching.mp hmem
    obtain ⟨endpoint, hend, hend'⟩ := Wire.touches_iff.mp htouches
    rw [List.getElem?_map] at hnear hfar
    obtain ⟨wire, hwire, rfl⟩ := Option.map_eq_some_iff.mp hnear
    obtain ⟨wire', hwire', rfl⟩ := Option.map_eq_some_iff.mp hfar
    exact mem_touching.mpr ⟨wire, wire', hwire, hwire', Wire.touches_iff.mpr
      ⟨endpoint, (List.mem_filter.mp hend).1, (List.mem_filter.mp hend').1⟩⟩

/-! ## Flattening -/

/-- Ends of wires that name nothing leave only their reports behind, if and only if the
wires fall into the same groups without them. -/
theorem flatten_keeps_iff (library : Library) (schematic : Schematic) :
    (flatten library (schematic.cleaned library)).hushed = (flatten library schematic).hushed ↔
      wireGroups (schematic.cleaned library).wires = wireGroups schematic.wires := by
  have hstart : Placing library [] ({ scopes := [⟨none, ""⟩] }, []) :=
    ⟨fun _ => rfl, fun _ hmem => absurd hmem List.not_mem_nil⟩
  have hplacing : Placing library schematic.components (library.placed schematic.components) :=
    placing_foldl library _ 0 schematic.components hstart
  have hplaced : (schematic.cleaned library).components = schematic.components := rfl
  rw [flatten_eq, flatten_eq, hplaced, hushed_reportDrivers, hushed_reportDrivers]
  constructor
  · intro h
    have hnets : ((library.placed schematic.components).1.bindWires
        (schematic.cleaned library).wires 0 (library.placed schematic.components).2).nets.length =
          ((library.placed schematic.components).1.bindWires schematic.wires 0
            (library.placed schematic.components).2).nets.length := congrArg (·.nets.length) h
    rw [length_nets_bindWires, length_nets_bindWires] at hnets
    exact wireGroups_eq_of_length (List.length_map _) (fun _ _ => linked_of_keeping)
      (Nat.add_left_cancel hnets)
  · exact fun h => congrArg reportDrivers (hushed_bindWires _ hplacing h)

/-- Two wires that have nothing in common but a component that does not exist. -/
def meetingNowhere : Schematic where
  components := [⟨"a", Builtin.constant.id, .obj [("value", .int 1)]⟩,
    ⟨"b", Builtin.probe.id, .null⟩]
  wires := [⟨"w0", [⟨"a", "out"⟩, ⟨"ghost", "x"⟩]⟩, ⟨"w1", [⟨"ghost", "x"⟩, ⟨"b", "in"⟩]⟩]

/-- Ends that name nothing can join what is apart without them. -/
theorem flatten_joins_at_nothing :
    ((flatten Library.builtin meetingNowhere).nets.map fun net => (net.wires, net.targets)) =
        [(["w0", "w1"], [⟨1, 0⟩])] ∧
      ((flatten Library.builtin (meetingNowhere.cleaned Library.builtin)).nets.map fun net =>
        (net.wires, net.targets)) = [(["w0"], []), (["w1"], [⟨1, 0⟩])] := by
  decide +kernel

end Breadboard
