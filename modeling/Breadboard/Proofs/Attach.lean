import Breadboard.Proofs.Sharing

/-!
# What a group of wires attaches to its net

As long as nothing is reported, each end of a wire attaches a fixed list of ports
(`Netlist.attachments`), each as a driver or as a reader only. The net of a group
lists as sources and targets just those of them that face the right way
(`joins_bindGroup`), and everything else in the netlist stays as it was but for the
nets that ports know (`Netlist.outline`).
-/

namespace Breadboard

/-- A part without the nets its ports know. -/
def Part.unbound (part : Part) : Part :=
  { part with ports := part.ports.map (·.toPortDecl.unbound) }

theorem Part.port?_unbound (part : Part) (id : String) : part.unbound.port? id = part.port? id := by
  rw [Part.port?, Part.port?, unbound, List.findIdx?_map]
  rfl

namespace Netlist

variable {netlist next later : Netlist} {index scope : Nat} {ref other : PortRef}
  {placements : Placements} {wires : List Wire} {asSource : Bool} {endpoint : Endpoint}
  {net : Net} {port : Port}

/-! ## What stays -/

/-- The parts of a netlist without the nets that they know. -/
def outline (netlist : Netlist) : List Part :=
  netlist.parts.map Part.unbound

/-- The port as it was declared. -/
def decl? (netlist : Netlist) (ref : PortRef) : Option PortDecl :=
  (netlist.port? ref).map (·.toPortDecl)

theorem outline_getElem? (netlist : Netlist) (index : Nat) :
    netlist.outline[index]? = netlist.parts[index]?.map Part.unbound :=
  List.getElem?_map ..

theorem length_outline (netlist : Netlist) : netlist.outline.length = netlist.parts.length :=
  List.length_map _

theorem decl?_eq (netlist : Netlist) (ref : PortRef) : netlist.decl? ref =
    netlist.outline[ref.part]?.bind fun part => part.ports[ref.port]?.map (·.toPortDecl) := by
  rw [decl?, port?, outline_getElem?]
  cases netlist.parts[ref.part]? with
  | none => rfl
  | some part =>
    simp only [Option.bind_some, Option.map_some, Part.unbound, List.getElem?_map, Option.map_map]
    rfl

/-- The position of a port with a given id in a part. -/
def position? (netlist : Netlist) (part : Nat) (id : String) : Option Nat :=
  netlist.parts[part]?.bind (·.port? id)

theorem position?_eq (netlist : Netlist) (part : Nat) (id : String) :
    netlist.position? part id = netlist.outline[part]?.bind (·.port? id) := by
  rw [position?, outline_getElem?]
  cases netlist.parts[part]? with
  | none => rfl
  | some found => exact (Part.port?_unbound found id).symm

theorem any_valid_eq (netlist : Netlist) (part : Nat) :
    netlist.parts[part]?.any (·.valid) = netlist.outline[part]?.any (·.valid) := by
  rw [outline_getElem?]
  cases netlist.parts[part]? <;> rfl

/-- What was there stays, at its place. -/
structure Grown (netlist next : Netlist) : Prop where
  outline : netlist.outline <+: next.outline
  nets : netlist.nets <+: next.nets
  scopes : netlist.scopes <+: next.scopes
  diagnostics : netlist.diagnostics <+: next.diagnostics

namespace Grown

theorem refl (netlist : Netlist) : netlist.Grown netlist :=
  ⟨List.prefix_rfl, List.prefix_rfl, List.prefix_rfl, List.prefix_rfl⟩

theorem trans (h : netlist.Grown next) (h' : next.Grown later) : netlist.Grown later :=
  ⟨h.outline.trans h'.outline, h.nets.trans h'.nets, h.scopes.trans h'.scopes,
    h.diagnostics.trans h'.diagnostics⟩

theorem addScope (netlist : Netlist) (parent : Nat) (name : String) :
    netlist.Grown (netlist.addScope parent name) :=
  ⟨List.prefix_rfl, List.prefix_rfl, List.prefix_append .., List.prefix_rfl⟩

theorem outline_addPart (netlist : Netlist) (part : Part) :
    (netlist.addPart part).outline = netlist.outline ++ [part.unbound] := by
  simp [Netlist.outline, Netlist.addPart]

theorem addPart (netlist : Netlist) (part : Part) : netlist.Grown (netlist.addPart part) :=
  ⟨outline_addPart netlist part ▸ List.prefix_append .., List.prefix_rfl, List.prefix_rfl,
    List.prefix_rfl⟩

theorem length_parts (h : netlist.Grown next) : netlist.parts.length ≤ next.parts.length := by
  have hle := h.outline.length_le
  rwa [length_outline, length_outline] at hle

theorem no_diagnostics (h : netlist.Grown next) (hnone : next.diagnostics = []) :
    netlist.diagnostics = [] :=
  List.prefix_nil.mp (hnone ▸ h.diagnostics)

theorem getElem?_outline (h : netlist.Grown next) (hlt : index < netlist.parts.length) :
    next.outline[index]? = netlist.outline[index]? :=
  (List.prefix_iff_getElem?.mp h.outline index (by rwa [length_outline])).trans
    (List.getElem?_eq_getElem _).symm

theorem getElem?_nets (h : netlist.Grown next) (hlt : index < netlist.nets.length) :
    next.nets[index]? = netlist.nets[index]? :=
  (List.prefix_iff_getElem?.mp h.nets index hlt).trans (List.getElem?_eq_getElem hlt).symm

theorem decl? (h : netlist.Grown next) (hlt : ref.part < netlist.parts.length) :
    next.decl? ref = netlist.decl? ref := by
  rw [decl?_eq, decl?_eq, h.getElem?_outline hlt]

theorem position? (h : netlist.Grown next) {part : Nat} (hlt : part < netlist.parts.length)
    (id : String) : next.position? part id = netlist.position? part id := by
  rw [position?_eq, position?_eq, h.getElem?_outline hlt]

theorem any_valid (h : netlist.Grown next) {part : Nat} (hlt : part < netlist.parts.length) :
    next.parts[part]?.any (·.valid) = netlist.parts[part]?.any (·.valid) := by
  rw [any_valid_eq, any_valid_eq, h.getElem?_outline hlt]

end Grown

/-! ## Attachments -/

/-- The port of a boundary port that faces outside, behind a port of a placed
component. -/
def behind? (netlist : Netlist) (placed : Breadboard.Placed) (id : String) : Option PortRef :=
  (placed.boundary.lookup id).bind fun part =>
    (netlist.position? part Boundary.externalPin).map (⟨part, ·⟩)

/-- The ports that a port of a placed component stands for, each with whether it may
drive. -/
def standing (netlist : Netlist) (placed : Breadboard.Placed) (port : Nat) (id : String) :
    List (PortRef × Bool) :=
  match netlist.behind? placed id with
  | none => [(⟨placed.part, port⟩, true)]
  | some inner =>
    let own := netlist.parts[placed.part]?.any (·.valid)
    [(⟨placed.part, port⟩, own), (inner, !own)]

/-- The ports that an end of a wire attaches. -/
def attachments (netlist : Netlist) (placements : Placements) (endpoint : Endpoint) :
    List (PortRef × Bool) :=
  match placements.lookup endpoint.component with
  | none => []
  | some placed =>
    match netlist.position? placed.part endpoint.port with
    | none => []
    | some port => netlist.standing placed port endpoint.port

/-- The placed components are among the first `count` parts. -/
def Within (count : Nat) (placements : Placements) : Prop :=
  ∀ id placed, placements.lookup id = some placed →
    placed.part < count ∧ ∀ inner ∈ placed.boundary, inner.2 < count

theorem Within.mono {count more : Nat} (h : Within count placements) (hle : count ≤ more) :
    Within more placements := by
  intro id placed hlookup
  obtain ⟨hpart, hinner⟩ := h id placed hlookup
  exact ⟨Nat.lt_of_lt_of_le hpart hle, fun inner hmem => Nat.lt_of_lt_of_le (hinner inner hmem) hle⟩

theorem behind?_grown (h : netlist.Grown next) {placed : Breadboard.Placed}
    (hinner : ∀ inner ∈ placed.boundary, inner.2 < netlist.parts.length) (id : String) :
    next.behind? placed id = netlist.behind? placed id := by
  unfold behind?
  cases hlookup : placed.boundary.lookup id with
  | none => rfl
  | some part =>
    rw [Option.bind_some, Option.bind_some, h.position? (hinner _ (mem_of_lookup hlookup))]

theorem attachments_grown (h : netlist.Grown next) (hwithin : Within netlist.parts.length placements)
    (endpoint : Endpoint) :
    next.attachments placements endpoint = netlist.attachments placements endpoint := by
  unfold attachments
  cases hlookup : placements.lookup endpoint.component with
  | none => rfl
  | some placed =>
    obtain ⟨hpart, hinner⟩ := hwithin _ _ hlookup
    dsimp only
    rw [h.position? hpart]
    unfold standing
    rw [h.any_valid hpart, behind?_grown h hinner]

theorem part_of_position? {part : Nat} {id : String} {position : Nat}
    (h : netlist.position? part id = some position) : part < netlist.parts.length := by
  obtain ⟨found, hfound, -⟩ := Option.bind_eq_some_iff.mp h
  exact (List.getElem?_eq_some_iff.mp hfound).1

theorem part_of_behind? {placed : Breadboard.Placed} {id : String}
    (h : netlist.behind? placed id = some ref) : ref.part < netlist.parts.length := by
  obtain ⟨part, -, hinner⟩ := Option.bind_eq_some_iff.mp h
  obtain ⟨position, hposition, rfl⟩ := Option.map_eq_some_iff.mp hinner
  exact part_of_position? hposition

theorem part_of_standing {placed : Breadboard.Placed} {port : Nat} {id : String}
    (hpart : placed.part < netlist.parts.length)
    (h : (ref, asSource) ∈ netlist.standing placed port id) : ref.part < netlist.parts.length := by
  unfold standing at h
  split at h
  · rw [(Prod.mk.inj (List.mem_singleton.mp h)).1]
    exact hpart
  · next inner hbehind =>
    simp only [List.mem_cons, List.not_mem_nil, or_false, Prod.mk.injEq] at h
    rcases h with ⟨rfl, -⟩ | ⟨rfl, -⟩
    · exact hpart
    · exact part_of_behind? hbehind

theorem part_of_attachments (h : (ref, asSource) ∈ netlist.attachments placements endpoint) :
    ref.part < netlist.parts.length := by
  unfold attachments at h
  split at h
  · cases h
  · split at h
    · cases h
    · next port hposition => exact part_of_standing (part_of_position? hposition) h

/-! ## Attaching -/

def Outputs (netlist : Netlist) (ref : PortRef) : Prop :=
  ∃ decl, netlist.decl? ref = some decl ∧ decl.type.output = true

def Inputs (netlist : Netlist) (ref : PortRef) : Prop :=
  ∃ decl, netlist.decl? ref = some decl ∧ decl.type.input = true

/-- The net at `index` got the ports of a list, each as what it can be, and nothing
else changed. -/
structure Attaches (netlist next : Netlist) (index : Nat) (pairs : List (PortRef × Bool)) :
    Prop where
  outline : next.outline = netlist.outline
  scopes : next.scopes = netlist.scopes
  nets : ∀ {net : Net}, netlist.nets[index]? = some net →
    ∃ wide, next.nets = netlist.nets.set index wide ∧ wide.scope = net.scope ∧
      wide.wires = net.wires ∧
      (∀ ref, ref ∈ wide.sources ↔
        ref ∈ net.sources ∨ (ref, true) ∈ pairs ∧ netlist.Outputs ref) ∧
      ∀ ref, ref ∈ wide.targets ↔
        ref ∈ net.targets ∨ (∃ asSource, (ref, asSource) ∈ pairs) ∧ netlist.Inputs ref

theorem decl?_congr (h : next.outline = netlist.outline) (ref : PortRef) :
    next.decl? ref = netlist.decl? ref := by
  rw [decl?_eq, h, decl?_eq]

theorem Attaches.nil (netlist : Netlist) (index : Nat) : netlist.Attaches netlist index [] := by
  refine ⟨rfl, rfl, fun {net} hnet => ⟨net, ?_, rfl, rfl, by simp, by simp⟩⟩
  obtain ⟨hlt, rfl⟩ := List.getElem?_eq_some_iff.mp hnet
  exact (List.set_getElem_self hlt).symm

theorem Attaches.append {pairs more : List (PortRef × Bool)}
    (h : netlist.Attaches next index pairs) (h' : next.Attaches later index more) :
    netlist.Attaches later index (pairs ++ more) := by
  refine ⟨h'.outline.trans h.outline, h'.scopes.trans h.scopes, fun {net} hnet => ?_⟩
  obtain ⟨wide, hnets, hscope, hwires, hsources, htargets⟩ := h.nets hnet
  have hlt := (List.getElem?_eq_some_iff.mp hnet).1
  have hwide : next.nets[index]? = some wide := by rw [hnets, List.getElem?_set_self hlt]
  obtain ⟨last, hnets', hscope', hwires', hsources', htargets'⟩ := h'.nets hwide
  refine ⟨last, by rw [hnets', hnets, List.set_set], hscope'.trans hscope, hwires'.trans hwires,
    fun ref => ?_, fun ref => ?_⟩
  · rw [hsources', hsources, Outputs, Outputs, decl?_congr h.outline, List.mem_append, or_assoc,
      or_and_right]
  · rw [htargets', htargets, Inputs, Inputs, decl?_congr h.outline]
    simp only [List.mem_append]
    constructor
    · rintro ((hnet | ⟨⟨asSource, hmem⟩, hin⟩) | ⟨⟨asSource, hmem⟩, hin⟩)
      · exact Or.inl hnet
      · exact Or.inr ⟨⟨asSource, Or.inl hmem⟩, hin⟩
      · exact Or.inr ⟨⟨asSource, Or.inr hmem⟩, hin⟩
    · rintro (hnet | ⟨⟨asSource, hmem | hmem⟩, hin⟩)
      · exact Or.inl (Or.inl hnet)
      · exact Or.inl (Or.inr ⟨⟨asSource, hmem⟩, hin⟩)
      · exact Or.inr ⟨⟨asSource, hmem⟩, hin⟩

theorem outline_attached (netlist : Netlist) (index : Nat) (ref : PortRef) (net : Net) :
    (netlist.attached index ref net).outline = netlist.outline :=
  map_parts_attached netlist index ref net fun part position =>
    congrArg (fun ports => { part with ports }) (part.map_ports_attach (fun _ => rfl) position)

theorem diagnostics_bind (netlist : Netlist) (index : Nat) (ref : PortRef) (asSource : Bool) :
    netlist.diagnostics <+: (netlist.bind index ref asSource).diagnostics := by
  unfold bind
  split
  · dsimp only
    split
    · exact List.prefix_rfl
    · split
      · exact List.prefix_append ..
      · exact List.prefix_rfl
  · exact List.prefix_rfl

/-- Nothing changes for a port that can be nothing of what it is attached as. -/
theorem Attaches.idle (hsource : asSource = true → ¬ netlist.Outputs ref)
    (htarget : ¬ netlist.Inputs ref) : netlist.Attaches netlist index [(ref, asSource)] := by
  refine ⟨rfl, rfl, fun {net} hnet => ?_⟩
  obtain ⟨wide, hnets, hscope, hwires, hsources, htargets⟩ := (Attaches.nil netlist index).nets hnet
  refine ⟨wide, hnets, hscope, hwires, fun other => ?_, fun other => ?_⟩
  · rw [hsources]
    refine or_congr_right (iff_of_false (by simp) ?_)
    rintro ⟨hmem, houtput⟩
    obtain ⟨rfl, rfl⟩ := Prod.mk.inj (List.mem_singleton.mp hmem)
    exact hsource rfl houtput
  · rw [htargets]
    refine or_congr_right (iff_of_false (by simp) ?_)
    rintro ⟨⟨_, hmem⟩, hinput⟩
    obtain ⟨rfl, -⟩ := Prod.mk.inj (List.mem_singleton.mp hmem)
    exact htarget hinput

theorem outputs_iff (hport : netlist.port? ref = some port) :
    netlist.Outputs ref ↔ port.type.output = true := by
  simp [Outputs, decl?, hport]

theorem inputs_iff (hport : netlist.port? ref = some port) :
    netlist.Inputs ref ↔ port.type.input = true := by
  simp [Inputs, decl?, hport]

theorem Attaches.attached (hport : netlist.port? ref = some port)
    (hnet : netlist.nets[index]? = some net) :
    netlist.Attaches (netlist.attached index ref (net.attach ref asSource port)) index
      [(ref, asSource)] := by
  refine ⟨outline_attached .., rfl, fun {found} hfound => ?_⟩
  obtain rfl := Option.some.inj (hnet.symm.trans hfound)
  refine ⟨_, rfl, rfl, rfl, fun other => ?_, fun other => ?_⟩
  · rw [Net.mem_sources_attach, Bool.and_eq_true, List.mem_singleton, Prod.mk.injEq]
    refine or_congr_right ⟨?_, ?_⟩
    · rintro ⟨rfl, rfl, houtput⟩
      exact ⟨⟨rfl, rfl⟩, (outputs_iff hport).mpr houtput⟩
    · rintro ⟨⟨rfl, rfl⟩, houtput⟩
      exact ⟨rfl, rfl, (outputs_iff hport).mp houtput⟩
  · rw [Net.mem_targets_attach]
    refine or_congr_right ⟨?_, ?_⟩
    · rintro ⟨rfl, hinput⟩
      exact ⟨⟨asSource, List.mem_singleton_self _⟩, (inputs_iff hport).mpr hinput⟩
    · rintro ⟨⟨_, hmem⟩, hinput⟩
      obtain ⟨rfl, -⟩ := Prod.mk.inj (List.mem_singleton.mp hmem)
      exact ⟨rfl, (inputs_iff hport).mp hinput⟩

/-- A port that was not turned away is attached as what it can be. -/
theorem attaches_bind (hnone : (netlist.bind index ref asSource).diagnostics = []) :
    netlist.Attaches (netlist.bind index ref asSource) index [(ref, asSource)] := by
  unfold bind at hnone ⊢
  cases hport : netlist.port? ref with
  | none =>
    have hdecl : netlist.decl? ref = none := by rw [decl?, hport, Option.map_none]
    exact .idle (fun _ => by simp [Outputs, hdecl]) (by simp [Inputs, hdecl])
  | some port =>
    cases hnet : netlist.nets[index]? with
    | none => exact ⟨rfl, rfl, fun h => nomatch hnet.symm.trans h⟩
    | some net =>
      rw [hport, hnet] at hnone
      dsimp only at hnone ⊢
      split
      · next hidle =>
        rw [Bool.and_eq_true, Bool.not_eq_true', Bool.not_eq_true', Bool.and_eq_false_imp] at hidle
        refine .idle (fun has => ?_) ?_
        · simp [outputs_iff hport, hidle.1 has]
        · simp [inputs_iff hport, hidle.2]
      · next hbusy =>
        rw [if_neg hbusy] at hnone
        split at hnone
        · exact absurd hnone (by simp [report])
        · next hwidth =>
          rw [if_neg hwidth]
          exact .attached hport hnet

theorem diagnostics_bindEnd (scope : Nat) (placements : Placements) (index : Nat)
    (netlist : Netlist) (wireEnd : String × Endpoint) :
    netlist.diagnostics <+: (netlist.bindEnd scope placements index wireEnd).diagnostics := by
  unfold bindEnd
  dsimp only
  split
  · exact List.prefix_append ..
  · split
    · exact List.prefix_append ..
    · unfold bindPlaced
      dsimp only
      split
      · exact diagnostics_bind ..
      · exact (diagnostics_bind ..).trans (diagnostics_bind ..)

theorem bindPlaced_eq (netlist : Netlist) (index : Nat) (placed : Breadboard.Placed) (port : Nat)
    (id : String) : netlist.bindPlaced index placed port id =
      match netlist.behind? placed id with
      | none => netlist.bind index ⟨placed.part, port⟩ true
      | some inner =>
        (netlist.bind index ⟨placed.part, port⟩ (netlist.parts[placed.part]?.any (·.valid))).bind
          index inner !(netlist.parts[placed.part]?.any (·.valid)) := rfl

theorem bindEnd_eq (scope : Nat) (placements : Placements) (index : Nat) (netlist : Netlist)
    (wireEnd : String × Endpoint) : netlist.bindEnd scope placements index wireEnd =
      match placements.lookup wireEnd.2.component with
      | none => netlist.report (.unknownComponent
          (localPath netlist.scopes scope wireEnd.1) wireEnd.2.component)
      | some placed =>
        match netlist.position? placed.part wireEnd.2.port with
        | none => netlist.report (.unknownPort (netlist.partPath placed.part) wireEnd.2.port)
        | some port => netlist.bindPlaced index placed port wireEnd.2.port := rfl

theorem attaches_bindPlaced {placed : Breadboard.Placed} {port : Nat} {id : String}
    (hnone : (netlist.bindPlaced index placed port id).diagnostics = []) :
    netlist.Attaches (netlist.bindPlaced index placed port id) index
      (netlist.standing placed port id) := by
  rw [bindPlaced_eq] at hnone ⊢
  unfold standing
  cases hbehind : netlist.behind? placed id with
  | none =>
    rw [hbehind] at hnone
    exact attaches_bind hnone
  | some inner =>
    rw [hbehind] at hnone
    dsimp only at hnone ⊢
    have hbefore : (netlist.bind index ⟨placed.part, port⟩
        (netlist.parts[placed.part]?.any (·.valid))).diagnostics = [] :=
      List.prefix_nil.mp (hnone ▸ diagnostics_bind ..)
    exact (attaches_bind hbefore).append (attaches_bind hnone)

/-- An end of a wire that is not reported attaches its ports. -/
theorem attaches_bindEnd {wireEnd : String × Endpoint}
    (hnone : (netlist.bindEnd scope placements index wireEnd).diagnostics = []) :
    netlist.attachments placements wireEnd.2 ≠ [] ∧
      netlist.Attaches (netlist.bindEnd scope placements index wireEnd) index
        (netlist.attachments placements wireEnd.2) := by
  rw [bindEnd_eq] at hnone ⊢
  unfold attachments
  cases hlookup : placements.lookup wireEnd.2.component with
  | none =>
    rw [hlookup] at hnone
    exact absurd hnone (by simp [report])
  | some placed =>
    rw [hlookup] at hnone
    dsimp only at hnone ⊢
    cases hposition : netlist.position? placed.part wireEnd.2.port with
    | none =>
      rw [hposition] at hnone
      exact absurd hnone (by simp [report])
    | some port =>
      rw [hposition] at hnone
      refine ⟨?_, attaches_bindPlaced hnone⟩
      dsimp only
      unfold standing
      split <;> simp

/-! ## Groups of wires -/

theorem exists_eraseDupsBy {α : Type} {r : α → α → Bool} (hrefl : ∀ a, r a a = true) {a : α} :
    ∀ {list : List α}, a ∈ list → ∃ b ∈ list.eraseDupsBy r, r a b = true := by
  intro list
  induction h : list.length using Nat.strongRecOn generalizing list a with
  | ind n ih =>
    cases list with
    | nil => exact fun h => nomatch h
    | cons head rest =>
      intro ha
      rw [List.eraseDupsBy_cons]
      have hlt := List.length_filter_le (fun c => decide (r c head = false)) rest
      rw [List.length_cons] at h
      by_cases hdup : r a head = true
      · exact ⟨head, List.mem_cons_self .., hdup⟩
      · rcases List.mem_cons.mp ha with rfl | ha
        · exact absurd (hrefl a) hdup
        · have hkeep : a ∈ rest.filter fun c => decide (r c head = false) :=
            List.mem_filter.mpr ⟨ha, decide_eq_true (Bool.not_eq_true _ ▸ hdup)⟩
          obtain ⟨b, hb, hab⟩ := ih _ (by omega) rfl hkeep
          exact ⟨b, List.mem_cons_of_mem _ hb, hab⟩

/-- The ends of a group are the endpoints of its wires. -/
theorem exists_groupEnds {wire : Wire} (hwire : wire ∈ wires) (hend : endpoint ∈ wire.endpoints) :
    ∃ wireEnd ∈ groupEnds wires, wireEnd.2 = endpoint := by
  have hmem : (wire.id, endpoint) ∈
      wires.flatMap fun wire => wire.endpoints.map (wire.id, ·) :=
    List.mem_flatMap.mpr ⟨wire, hwire, List.mem_map.mpr ⟨endpoint, hend, rfl⟩⟩
  obtain ⟨wireEnd, hmem, hsame⟩ :=
    exists_eraseDupsBy (r := fun a b : String × Endpoint => a.2 == b.2)
      (fun _ => beq_self_eq_true _) hmem
  exact ⟨wireEnd, hmem, (beq_iff_eq.mp hsame).symm⟩

theorem attachments_congr (h : next.outline = netlist.outline) (placements : Placements)
    (endpoint : Endpoint) :
    next.attachments placements endpoint = netlist.attachments placements endpoint := by
  unfold attachments standing behind?
  simp only [position?_eq, any_valid_eq, h]

theorem attaches_bindEnds : ∀ {ends : List (String × Endpoint)} {netlist : Netlist},
    (ends.foldl (bindEnd scope placements index) netlist).diagnostics = [] →
    (∀ wireEnd ∈ ends, netlist.attachments placements wireEnd.2 ≠ []) ∧
      netlist.Attaches (ends.foldl (bindEnd scope placements index) netlist) index
        (ends.flatMap fun wireEnd => netlist.attachments placements wireEnd.2) := by
  intro ends
  induction ends with
  | nil => exact fun _ => ⟨by simp, .nil ..⟩
  | cons wireEnd ends ih =>
    intro netlist hnone
    obtain ⟨hrest, hlater⟩ := ih hnone
    have hkeep : ∀ (ends : List (String × Endpoint)) (netlist : Netlist), netlist.diagnostics <+:
        (ends.foldl (bindEnd scope placements index) netlist).diagnostics := by
      intro ends
      induction ends with
      | nil => exact fun _ => List.prefix_rfl
      | cons wireEnd ends ih => exact fun _ => (diagnostics_bindEnd ..).trans (ih _)
    have hbefore : (netlist.bindEnd scope placements index wireEnd).diagnostics = [] :=
      List.prefix_nil.mp (hnone ▸ hkeep ends _)
    obtain ⟨hsome, hfirst⟩ := attaches_bindEnd hbefore
    have hsame := fun wireEnd : String × Endpoint =>
      attachments_congr hfirst.outline placements wireEnd.2
    simp only [hsame] at hrest hlater
    exact ⟨List.forall_mem_cons.mpr ⟨hsome, hrest⟩, hfirst.append hlater⟩

/-- An end of a wire of the group. -/
def GroupEnd (wires : List Wire) (group : List Nat) (endpoint : Endpoint) : Prop :=
  ∃ position ∈ group, ∃ wire, wires[position]? = some wire ∧ endpoint ∈ wire.endpoints

theorem exists_groupEnd {wire : Wire} (hwire : wire ∈ wires) (hend : endpoint ∈ wire.endpoints) :
    ∃ group ∈ wireGroups wires, GroupEnd wires group endpoint := by
  obtain ⟨position, hlt, rfl⟩ := List.getElem_of_mem hwire
  obtain ⟨group, hgroup, hmem⟩ := exists_group hlt
  exact ⟨group, hgroup, position, hmem, _, List.getElem?_eq_getElem hlt, hend⟩

/-- The net of a group of wires lists what their ends attach. -/
structure Joins (netlist : Netlist) (wires : List Wire) (scope : Nat) (placements : Placements)
    (group : List Nat) (net : Net) : Prop where
  scope_eq : net.scope = scope
  ids : net.wires = (group.filterMap (wires[·]?)).map (·.id)
  sources : ∀ ref, ref ∈ net.sources ↔
    (∃ endpoint, GroupEnd wires group endpoint ∧
      (ref, true) ∈ netlist.attachments placements endpoint) ∧ netlist.Outputs ref
  targets : ∀ ref, ref ∈ net.targets ↔
    (∃ endpoint asSource, GroupEnd wires group endpoint ∧
      (ref, asSource) ∈ netlist.attachments placements endpoint) ∧ netlist.Inputs ref

theorem Joins.congr {group : List Nat} (h : netlist.Joins wires scope placements group net)
    (hsame : ∀ endpoint, next.attachments placements endpoint =
      netlist.attachments placements endpoint)
    (hdecl : ∀ ref asSource endpoint, (ref, asSource) ∈ netlist.attachments placements endpoint →
      next.decl? ref = netlist.decl? ref) :
    next.Joins wires scope placements group net := by
  refine ⟨h.scope_eq, h.ids, fun ref => ?_, fun ref => ?_⟩
  · simp only [hsame]
    rw [h.sources]
    refine and_congr_right fun ⟨endpoint, _, hmem⟩ => ?_
    rw [Outputs, Outputs, hdecl ref true endpoint hmem]
  · simp only [hsame]
    rw [h.targets]
    refine and_congr_right fun ⟨endpoint, asSource, _, hmem⟩ => ?_
    rw [Inputs, Inputs, hdecl ref asSource endpoint hmem]

theorem Joins.grown {group : List Nat} (h : netlist.Joins wires scope placements group net)
    (hgrown : netlist.Grown next) (hwithin : Within netlist.parts.length placements) :
    next.Joins wires scope placements group net :=
  h.congr (attachments_grown hgrown hwithin) fun _ _ _ hmem =>
    hgrown.decl? (part_of_attachments hmem)

theorem groupEnd_iff {group : List Nat} : GroupEnd wires group endpoint ↔
    ∃ wireEnd ∈ groupEnds (group.filterMap (wires[·]?)), wireEnd.2 = endpoint := by
  constructor
  · rintro ⟨position, hposition, wire, hwire, hend⟩
    exact exists_groupEnds (List.mem_filterMap.mpr ⟨position, hposition, hwire⟩) hend
  · rintro ⟨wireEnd, hmem, rfl⟩
    obtain ⟨wire, hwire, hend⟩ := mem_groupEnds hmem
    obtain ⟨position, hposition, hwire⟩ := List.mem_filterMap.mp hwire
    exact ⟨position, hposition, wire, hwire, hend⟩

/-- Binding a group adds the net that joins it. -/
theorem joins_bindGroup {group : List Nat}
    (hnone : (netlist.bindGroup wires scope placements group).diagnostics = []) :
    (∀ endpoint, GroupEnd wires group endpoint → netlist.attachments placements endpoint ≠ []) ∧
    (netlist.bindGroup wires scope placements group).outline = netlist.outline ∧
    (netlist.bindGroup wires scope placements group).scopes = netlist.scopes ∧
    ∃ net, (netlist.bindGroup wires scope placements group).nets = netlist.nets ++ [net] ∧
      netlist.Joins wires scope placements group net := by
  let added : Netlist :=
    { netlist with
      nets := netlist.nets ++ [{ scope, wires := (group.filterMap (wires[·]?)).map (·.id) }] }
  obtain ⟨hsome, hattaches⟩ : (∀ wireEnd ∈ groupEnds (group.filterMap (wires[·]?)),
        added.attachments placements wireEnd.2 ≠ []) ∧
      added.Attaches (netlist.bindGroup wires scope placements group) netlist.nets.length _ :=
    attaches_bindEnds hnone
  have hsame : ∀ endpoint,
      added.attachments placements endpoint = netlist.attachments placements endpoint :=
    attachments_congr rfl placements
  have hnet : added.nets[netlist.nets.length]? =
      some { scope, wires := (group.filterMap (wires[·]?)).map (·.id) } := by simp [added]
  obtain ⟨wide, hnets, hscope, hwires, hsources, htargets⟩ := hattaches.nets hnet
  refine ⟨fun endpoint hend => ?_, hattaches.outline, hattaches.scopes, wide, ?_, hscope, hwires,
    fun ref => ?_, fun ref => ?_⟩
  · obtain ⟨wireEnd, hmem, rfl⟩ := groupEnd_iff.mp hend
    exact hsame wireEnd.2 ▸ hsome wireEnd hmem
  · rw [hnets]
    simp [added]
  · rw [hsources]
    simp only [List.not_mem_nil, false_or, List.mem_flatMap, groupEnd_iff]
    exact and_congr_left' ⟨fun ⟨wireEnd, hmem, hpair⟩ => ⟨_, ⟨wireEnd, hmem, rfl⟩, hpair⟩,
      fun ⟨_, ⟨wireEnd, hmem, heq⟩, hpair⟩ => ⟨wireEnd, hmem, heq ▸ hpair⟩⟩
  · rw [htargets]
    simp only [List.not_mem_nil, false_or, List.mem_flatMap, groupEnd_iff]
    refine and_congr_left' ⟨?_, ?_⟩
    · rintro ⟨asSource, wireEnd, hmem, hpair⟩
      exact ⟨_, asSource, ⟨wireEnd, hmem, rfl⟩, hpair⟩
    · rintro ⟨_, asSource, ⟨wireEnd, hmem, rfl⟩, hpair⟩
      exact ⟨asSource, wireEnd, hmem, hpair⟩

theorem diagnostics_bindGroup (netlist : Netlist) (group : List Nat) : netlist.diagnostics <+:
    (netlist.bindGroup wires scope placements group).diagnostics := by
  have hkeep : ∀ (index : Nat) (ends : List (String × Endpoint)) (netlist : Netlist),
      netlist.diagnostics <+: (ends.foldl (bindEnd scope placements index) netlist).diagnostics := by
    intro index ends
    induction ends with
    | nil => exact fun _ => List.prefix_rfl
    | cons wireEnd ends ih => exact fun _ => (diagnostics_bindEnd ..).trans (ih _)
  exact hkeep netlist.nets.length _ { netlist with nets := netlist.nets ++ [_] }

/-- What binding the wires of a schematic adds: a net for every group. -/
structure Wires (netlist next : Netlist) (wires : List Wire) (scope : Nat)
    (placements : Placements) (groups : List (List Nat)) : Prop where
  grown : netlist.Grown next
  outline : next.outline = netlist.outline
  scopes : next.scopes = netlist.scopes
  resolves : ∀ group ∈ groups, ∀ endpoint, GroupEnd wires group endpoint →
    next.attachments placements endpoint ≠ []
  length : next.nets.length = netlist.nets.length + groups.length
  joined : ∀ {position : Nat} {group : List Nat}, groups[position]? = some group →
    ∃ net, next.nets[netlist.nets.length + position]? = some net ∧
      next.Joins wires scope placements group net

theorem Wires.exists_net {groups : List (List Nat)}
    (h : netlist.Wires next wires scope placements groups) : ∀ group ∈ groups,
    ∃ (index : Nat) (net : Net), next.nets[index]? = some net ∧
      next.Joins wires scope placements group net := by
  intro group hgroup
  obtain ⟨position, hposition⟩ := List.getElem?_of_mem hgroup
  exact ⟨_, h.joined hposition⟩

theorem Wires.exists_group {groups : List (List Nat)}
    (h : netlist.Wires next wires scope placements groups) (index : Nat) (net : Net)
    (hle : netlist.nets.length ≤ index) (hnet : next.nets[index]? = some net) :
    ∃ group ∈ groups, next.Joins wires scope placements group net := by
  obtain ⟨position, rfl⟩ := Nat.exists_eq_add_of_le hle
  have hlt := (List.getElem?_eq_some_iff.mp hnet).1
  rw [h.length, Nat.add_lt_add_iff_left] at hlt
  obtain ⟨found, hfound, hjoins⟩ := h.joined (List.getElem?_eq_getElem hlt)
  obtain rfl := Option.some.inj (hnet.symm.trans hfound)
  exact ⟨_, List.getElem_mem hlt, hjoins⟩

theorem wires_bindGroups : ∀ {groups : List (List Nat)} {netlist : Netlist},
    (groups.foldl (bindGroup wires scope placements) netlist).diagnostics = [] →
    netlist.Wires (groups.foldl (bindGroup wires scope placements) netlist) wires scope placements
      groups := by
  intro groups
  induction groups with
  | nil => exact fun {netlist} _ => ⟨.refl _, rfl, rfl, by simp, rfl, by simp⟩
  | cons group groups ih =>
    intro netlist hnone
    have hlater := ih hnone
    have hfirst : (netlist.bindGroup wires scope placements group).diagnostics = [] :=
      hlater.grown.no_diagnostics hnone
    obtain ⟨hsome, houtline, hscopes, net, hnets, hjoins⟩ := joins_bindGroup hfirst
    have hgrown : netlist.Grown (netlist.bindGroup wires scope placements group) :=
      ⟨houtline ▸ List.prefix_rfl, hnets ▸ List.prefix_append .., hscopes ▸ List.prefix_rfl,
        diagnostics_bindGroup netlist group⟩
    have houtline' := hlater.outline.trans houtline
    have hsame := fun endpoint => attachments_congr houtline' placements endpoint
    have hjoins' := hjoins.congr hsame fun ref _ _ _ => decl?_congr houtline' ref
    have hplace : (groups.foldl (bindGroup wires scope placements)
        (netlist.bindGroup wires scope placements group)).nets[netlist.nets.length]? = some net := by
      rw [hlater.grown.getElem?_nets (by simp [hnets])]
      simp [hnets]
    rw [List.foldl_cons]
    refine ⟨hgrown.trans hlater.grown, houtline', hlater.scopes.trans hscopes, ?_, ?_, ?_⟩
    · exact List.forall_mem_cons.mpr ⟨fun endpoint hend => hsame endpoint ▸ hsome endpoint hend,
        hlater.resolves⟩
    · simp only [hlater.length, hnets, List.length_append, List.length_cons, List.length_nil]
      omega
    · intro position found hfound
      cases position with
      | zero =>
        obtain rfl := Option.some.inj hfound
        exact ⟨net, hplace, hjoins'⟩
      | succ position =>
        have hjoined := hlater.joined hfound
        rwa [hnets, List.length_append, List.length_singleton, Nat.add_right_comm,
          Nat.add_assoc] at hjoined

theorem wires_bindWires (hnone : (netlist.bindWires wires scope placements).diagnostics = []) :
    netlist.Wires (netlist.bindWires wires scope placements) wires scope placements
      (wireGroups wires) :=
  wires_bindGroups hnone

end Netlist

end Breadboard
