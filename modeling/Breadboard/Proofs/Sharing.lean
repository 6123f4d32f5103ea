import Breadboard.Proofs.Binding
import Breadboard.Proofs.Groups

/-!
# Which ports two nets can share

A port of a flat netlist is listed by at most one net, unless it is the external
pin of a boundary port (`unshared_flatten`): wires are bound only to the
components of their own schematic, each schematic binds its wires once, and
groups of wires have no endpoint in common. What binds the outside of a component
reaches into it only through external pins, and these face one way. So a port
that faces both ways is never shared.

Port ids decide which pins are external. They never change, and `names` is the
part of a netlist that this is about.
-/

namespace Breadboard

namespace Netlist

variable {library : Library} {netlist next : Netlist} {index : Nat} {ref : PortRef}
  {placements : Placements} {scope : Nat} {wires : List Wire} {asSource : Bool}

/-- The ids of the ports of a part. -/
def names (netlist : Netlist) (index : Nat) : Option (List String) :=
  netlist.parts[index]?.map fun part => part.ports.map (·.id)

/-- A port that is not the external pin of a boundary port. -/
def Inner (netlist : Netlist) (ref : PortRef) : Prop :=
  ∃ id, (netlist.names ref.part).bind (·[ref.port]?) = some id ∧ id ≠ Boundary.externalPin

def Unshared (netlist : Netlist) : Prop :=
  ∀ ref, netlist.Inner ref → ∀ first second, netlist.Lists first ref → netlist.Lists second ref →
    first = second

/-- Nets list ports of parts that are there. -/
def Placed (netlist : Netlist) : Prop :=
  ∀ index ref, netlist.Lists index ref → ref.part < netlist.parts.length

/-- The parts that were there are bound as they were, external pins aside. -/
def Frames (netlist next : Netlist) : Prop :=
  ∀ index ref, ref.part < netlist.parts.length → next.Inner ref → next.Lists index ref →
    netlist.Lists index ref

theorem names_eq (h : netlist.port? ref = some port) :
    (netlist.names ref.part).bind (·[ref.port]?) = some port.id := by
  obtain ⟨part, hpart, hport⟩ := part_of_port h
  simp [names, hpart, hport]

theorem inner_congr (h : next.names ref.part = netlist.names ref.part) :
    next.Inner ref ↔ netlist.Inner ref := by
  rw [Inner, h, Inner]

theorem lists_congr (h : next.nets = netlist.nets) : next.Lists index ref ↔ netlist.Lists index ref := by
  rw [Lists, h, Lists]

theorem lists_addNet {wires : List String} (h : ({ netlist with
    nets := netlist.nets ++ [{ scope, wires }] } : Netlist).Lists index ref) :
    netlist.Lists index ref := by
  obtain ⟨net, hnet, href⟩ := h
  rw [List.getElem?_append] at hnet
  split at hnet
  · exact ⟨net, hnet, href⟩
  · rw [List.mem_singleton.mp (List.mem_of_getElem? hnet)] at href
    rcases href with href | href <;> cases href

/-! ## Attaching a port -/

theorem names_bind (netlist : Netlist) (net : Nat) (ref : PortRef) (asSource : Bool) (index : Nat) :
    (netlist.bind net ref asSource).names index = netlist.names index := by
  rcases bind_cases netlist net ref asSource with ⟨_, heq⟩ | ⟨port, found, -, -, -, -, heq⟩
  · rw [heq]
    rfl
  · rw [heq, names, names, parts_attached]
    cases netlist.parts[index]? with
    | none => rfl
    | some part =>
      simp only [Option.map_some, Option.some.injEq]
      split
      · exact Part.map_ports_attach (fun _ => rfl) ..
      · rfl

theorem length_bind (netlist : Netlist) (net : Nat) (ref : PortRef) (asSource : Bool) :
    (netlist.bind net ref asSource).parts.length = netlist.parts.length ∧
      (netlist.bind net ref asSource).nets.length = netlist.nets.length := by
  rcases bind_cases netlist net ref asSource with ⟨_, heq⟩ | ⟨port, found, -, -, -, -, heq⟩
  · rw [heq]
    exact ⟨rfl, rfl⟩
  · rw [heq]
    exact ⟨length_parts_attached .., List.length_set ..⟩

theorem lists_bind {net : Nat} {other : PortRef}
    (h : (netlist.bind net ref asSource).Lists index other) :
    netlist.Lists index other ∨ index = net ∧ other = ref := by
  rcases bind_cases netlist net ref asSource with ⟨_, heq⟩ | ⟨port, found, hport, hfound, -, -, heq⟩
  · rw [heq] at h
    exact Or.inl h
  · rw [heq] at h
    obtain ⟨after, hafter, hmem⟩ := h
    rcases nets_attached_cases (List.getElem?_eq_some_iff.mp hfound).1 hafter with
      ⟨rfl, rfl⟩ | ⟨-, hafter⟩
    · exact (Net.listed_of_attach hmem).imp (fun hmem => ⟨found, hfound, hmem⟩)
        (fun href => ⟨rfl, href⟩)
    · exact Or.inl ⟨after, hafter, hmem⟩

theorem placed_bind (h : netlist.Placed) : (netlist.bind index ref asSource).Placed := by
  intro other place hlists
  rw [(length_bind ..).1]
  rcases lists_bind hlists with hlists | ⟨rfl, rfl⟩
  · exact h other place hlists
  · obtain ⟨net, hnet, hmem⟩ := hlists
    rcases bind_cases netlist other place asSource with ⟨_, heq⟩ | ⟨port, found, hport, -⟩
    · rw [heq] at hnet
      exact h other place ⟨net, hnet, hmem⟩
    · obtain ⟨part, hpart, -⟩ := part_of_port hport
      exact (List.getElem?_eq_some_iff.mp hpart).1

/-! ## Growing -/

/-- A netlist that grows keeps its parts and the ids of their ports. -/
theorem names_grows (hgrows : Grows library netlist next) :
    netlist.parts.length ≤ next.parts.length ∧
      ∀ index < netlist.parts.length, next.names index = netlist.names index := by
  induction hgrows with
  | refl => exact ⟨Nat.le_refl _, fun _ _ => rfl⟩
  | tail _ hstep ih =>
    obtain ⟨hlength, hnames⟩ := ih
    cases hstep with
    | diagnostics | scope | net => exact ⟨hlength, hnames⟩
    | part part =>
      refine ⟨Nat.le_trans hlength (by simp [addPart]), fun index hindex => ?_⟩
      rw [← hnames index hindex, names, names, addPart,
        List.getElem?_append_left (Nat.lt_of_lt_of_le hindex hlength)]
    | bind net ref asSource =>
      refine ⟨Nat.le_trans hlength (Nat.le_of_eq (length_bind ..).1.symm), fun index hindex => ?_⟩
      rw [names_bind, hnames index hindex]

theorem placed_grows (hgrows : Grows library netlist next) (h : netlist.Placed) : next.Placed := by
  induction hgrows with
  | refl => exact h
  | tail _ hstep ih =>
    cases hstep with
    | diagnostics | scope => exact ih
    | part part =>
      intro index ref hlists
      exact Nat.lt_of_lt_of_le (ih index ref hlists) (by simp [addPart])
    | net scope wires => exact fun index ref hlists => ih index ref (lists_addNet hlists)
    | bind net ref asSource => exact placed_bind ih

/-! ## Binding wires -/

/-- The port that an endpoint names. -/
def Named (placements : Placements) (netlist : Netlist) (endpoint : Endpoint) (ref : PortRef) :
    Prop :=
  ∃ placed ids, placements.lookup endpoint.component = some placed ∧ ref.part = placed.part ∧
    netlist.names placed.part = some ids ∧ ids[ref.port]? = some endpoint.port

theorem Named.congr {endpoint : Endpoint} (hnames : ∀ index, next.names index = netlist.names index)
    (h : Named placements next endpoint ref) : Named placements netlist endpoint ref := by
  obtain ⟨placed, ids, hlookup, hpart, hids, hid⟩ := h
  exact ⟨placed, ids, hlookup, hpart, (hnames _).symm.trans hids, hid⟩

theorem named_of_port {endpoint : Endpoint} {placed : Breadboard.Placed} {port : Nat}
    (hlookup : placements.lookup endpoint.component = some placed)
    (hport : netlist.parts[placed.part]?.bind (·.port? endpoint.port) = some port) :
    Named placements netlist endpoint ⟨placed.part, port⟩ := by
  obtain ⟨part, hpart, hposition⟩ := Option.bind_eq_some_iff.mp hport
  obtain ⟨hlt, hid, -⟩ := List.findIdx?_eq_some_iff_getElem.mp hposition
  refine ⟨placed, part.ports.map (·.id), hlookup, rfl, by simp [names, hpart], ?_⟩
  rw [List.getElem?_map, List.getElem?_eq_getElem hlt]
  simpa using hid

theorem names_bindPlaced (netlist : Netlist) (net : Nat) (placed : Breadboard.Placed) (port : Nat)
    (id : String) (index : Nat) :
    (netlist.bindPlaced net placed port id).names index = netlist.names index := by
  unfold bindPlaced
  dsimp only
  split
  · exact names_bind ..
  · rw [names_bind, names_bind]

theorem Inner.ne_of_external {part : Nat} {other : PortRef} (hinner : netlist.Inner ref)
    (h : (netlist.parts[part]?.bind (·.port? Boundary.externalPin)).map (⟨part, ·⟩) =
      some other) : ref ≠ other := by
  rintro rfl
  obtain ⟨position, hposition, rfl⟩ := Option.map_eq_some_iff.mp h
  obtain ⟨found, hfound, hposition⟩ := Option.bind_eq_some_iff.mp hposition
  obtain ⟨hlt, hid, -⟩ := List.findIdx?_eq_some_iff_getElem.mp hposition
  obtain ⟨name, hname, hne⟩ := hinner
  simp only [names, hfound, Option.map_some, Option.bind_some, List.getElem?_map,
    List.getElem?_eq_getElem hlt, Option.some.injEq] at hname
  exact absurd (hname.symm.trans (by simpa using hid)) hne

theorem lists_bindPlaced {net port : Nat} {placed : Breadboard.Placed} {id : String}
    (hinner : netlist.Inner ref)
    (h : (netlist.bindPlaced net placed port id).Lists index ref) :
    netlist.Lists index ref ∨ index = net ∧ ref = ⟨placed.part, port⟩ := by
  unfold bindPlaced at h
  dsimp only at h
  split at h
  · exact lists_bind h
  · next inner hinner' =>
    rcases lists_bind h with h | ⟨-, rfl⟩
    · exact lists_bind h
    · obtain ⟨part, -, hpin⟩ := Option.bind_eq_some_iff.mp hinner'
      exact absurd rfl (hinner.ne_of_external hpin)

theorem names_bindEnd (scope : Nat) (placements : Placements) (net : Nat) (netlist : Netlist)
    (wireEnd : String × Endpoint) (index : Nat) :
    (netlist.bindEnd scope placements net wireEnd).names index = netlist.names index := by
  unfold bindEnd
  dsimp only
  split
  · rfl
  · split
    · rfl
    · exact names_bindPlaced ..

theorem lists_bindEnd {net : Nat} {wireEnd : String × Endpoint} (hinner : netlist.Inner ref)
    (h : (netlist.bindEnd scope placements net wireEnd).Lists index ref) :
    netlist.Lists index ref ∨ index = net ∧ Named placements netlist wireEnd.2 ref := by
  unfold bindEnd at h
  dsimp only at h
  split at h
  · exact Or.inl h
  · next placed hlookup =>
    split at h
    · exact Or.inl h
    · next port hport =>
      refine (lists_bindPlaced hinner h).imp id fun ⟨hindex, href⟩ => ⟨hindex, ?_⟩
      subst href
      exact named_of_port hlookup hport

theorem lists_bindEnds {net : Nat} : ∀ {ends : List (String × Endpoint)} {netlist : Netlist},
    netlist.Inner ref → (ends.foldl (bindEnd scope placements net) netlist).Lists index ref →
    netlist.Lists index ref ∨
      index = net ∧ ∃ wireEnd ∈ ends, Named placements netlist wireEnd.2 ref := by
  intro ends
  induction ends with
  | nil => exact fun _ h => Or.inl h
  | cons wireEnd ends ih =>
    intro netlist hinner h
    have hnames := names_bindEnd scope placements net netlist wireEnd
    rcases ih ((inner_congr (hnames ref.part)).mpr hinner) h with h | ⟨hindex, other, hother, hnamed⟩
    · exact (lists_bindEnd hinner h).imp id fun ⟨hindex, hnamed⟩ =>
        ⟨hindex, wireEnd, List.mem_cons_self .., hnamed⟩
    · exact Or.inr ⟨hindex, other, List.mem_cons_of_mem _ hother, hnamed.congr hnames⟩

theorem names_bindEnds (net : Nat) : ∀ (ends : List (String × Endpoint)) (netlist : Netlist)
    (index : Nat), (ends.foldl (bindEnd scope placements net) netlist).names index =
      netlist.names index := by
  intro ends
  induction ends with
  | nil => exact fun _ _ => rfl
  | cons wireEnd ends ih => exact fun netlist index => (ih _ index).trans (names_bindEnd ..)

theorem mem_of_mem_eraseDupsBy {α : Type} {r : α → α → Bool} {a : α} :
    ∀ {list : List α}, a ∈ list.eraseDupsBy r → a ∈ list := by
  intro list
  induction h : list.length using Nat.strongRecOn generalizing list with
  | ind n ih =>
    cases list with
    | nil => exact fun h => h
    | cons b rest =>
      intro ha
      rw [List.eraseDupsBy_cons] at ha
      rcases List.mem_cons.mp ha with rfl | ha
      · exact List.mem_cons_self ..
      · have hlt := List.length_filter_le (fun c => decide (r c b = false)) rest
        rw [List.length_cons] at h
        exact List.mem_cons_of_mem _ (List.mem_filter.mp (ih _ (by omega) rfl ha)).1

theorem mem_groupEnds {wireEnd : String × Endpoint} (h : wireEnd ∈ groupEnds wires) :
    ∃ wire ∈ wires, wireEnd.2 ∈ wire.endpoints := by
  obtain ⟨wire, hwire, hend⟩ := List.mem_flatMap.mp (mem_of_mem_eraseDupsBy h)
  obtain ⟨endpoint, hendpoint, rfl⟩ := List.mem_map.mp hend
  exact ⟨wire, hwire, hendpoint⟩

/-- A port that a wire of the group ends at. -/
def Ends (wires : List Wire) (placements : Placements) (netlist : Netlist) (group : List Nat)
    (ref : PortRef) : Prop :=
  ∃ position ∈ group, ∃ wire, wires[position]? = some wire ∧
    ∃ endpoint ∈ wire.endpoints, Named placements netlist endpoint ref

theorem names_bindGroup (wires : List Wire) (scope : Nat) (placements : Placements)
    (netlist : Netlist) (group : List Nat) (index : Nat) :
    (netlist.bindGroup wires scope placements group).names index = netlist.names index :=
  names_bindEnds ..

theorem lists_bindGroup {group : List Nat} (hinner : netlist.Inner ref)
    (h : (netlist.bindGroup wires scope placements group).Lists index ref) :
    netlist.Lists index ref ∨
      index = netlist.nets.length ∧ Ends wires placements netlist group ref := by
  rcases lists_bindEnds (by exact hinner) h with h | ⟨hindex, wireEnd, hend, hnamed⟩
  · exact Or.inl (lists_addNet h)
  · obtain ⟨wire, hwire, hendpoint⟩ := mem_groupEnds hend
    obtain ⟨position, hposition, hwire⟩ := List.mem_filterMap.mp hwire
    exact Or.inr ⟨hindex, position, hposition, wire, hwire, wireEnd.2, hendpoint,
      hnamed.congr fun _ => rfl⟩

theorem length_bindGroup (netlist : Netlist) (group : List Nat) :
    (netlist.bindGroup wires scope placements group).nets.length = netlist.nets.length + 1 := by
  have hkeep : ∀ (net : Nat) (ends : List (String × Endpoint)) (netlist : Netlist),
      (ends.foldl (bindEnd scope placements net) netlist).nets.length = netlist.nets.length := by
    intro net ends
    induction ends with
    | nil => exact fun _ => rfl
    | cons wireEnd ends ih =>
      intro netlist
      refine (ih _).trans ?_
      unfold bindEnd
      dsimp only
      split
      · rfl
      · split
        · rfl
        · unfold bindPlaced
          dsimp only
          split
          · exact (length_bind ..).2
          · exact (length_bind ..).2.trans (length_bind ..).2
  exact (hkeep ..).trans List.length_append

/-- The groups of wires make nets of their own, in their order. -/
theorem lists_bindGroups : ∀ {groups : List (List Nat)} {netlist : Netlist}, netlist.Inner ref →
    (groups.foldl (bindGroup wires scope placements) netlist).Lists index ref →
    netlist.Lists index ref ∨ ∃ position group, groups[position]? = some group ∧
      index = netlist.nets.length + position ∧ Ends wires placements netlist group ref := by
  intro groups
  induction groups with
  | nil => exact fun _ h => Or.inl h
  | cons first groups ih =>
    intro netlist hinner h
    have hnames := names_bindGroup wires scope placements netlist first
    rcases ih ((inner_congr (hnames ref.part)).mpr hinner) h with
      h | ⟨position, group, hgroup, hindex, wire, hwire, found, hfound, endpoint, hend, hnamed⟩
    · exact (lists_bindGroup hinner h).imp id fun ⟨hindex, hends⟩ => ⟨0, first, rfl, hindex, hends⟩
    · refine Or.inr ⟨position + 1, group, hgroup, ?_, wire, hwire, found, hfound, endpoint, hend,
        hnamed.congr hnames⟩
      rw [length_bindGroup] at hindex
      omega

theorem names_bindWires (netlist : Netlist) (index : Nat) :
    (netlist.bindWires wires scope placements).names index = netlist.names index := by
  have hkeep : ∀ (groups : List (List Nat)) (netlist : Netlist),
      (groups.foldl (bindGroup wires scope placements) netlist).names index =
        netlist.names index := by
    intro groups
    induction groups with
    | nil => exact fun _ => rfl
    | cons first groups ih => exact fun netlist => (ih _).trans (names_bindGroup ..)
  exact hkeep ..

/-! ## Placing components -/

/-- Components placed side by side have parts of their own, which no net lists
yet. -/
structure Fresh (base : Nat) (netlist : Netlist) (placements : Placements) : Prop where
  nodup : (placements.map (·.2.part)).Nodup
  range : ∀ entry ∈ placements, base ≤ entry.2.part ∧ entry.2.part < netlist.parts.length
  unlisted : ∀ entry ∈ placements, ∀ index ref, ref.part = entry.2.part → netlist.Inner ref →
    ¬ netlist.Lists index ref

theorem Fresh.eq_of_named {base : Nat} {first second : Endpoint}
    (h : Fresh base netlist placements) (hfirst : Named placements netlist first ref)
    (hsecond : Named placements netlist second ref) : first = second := by
  obtain ⟨placed, ids, hlookup, hpart, hids, hid⟩ := hfirst
  obtain ⟨other, names, hlookup', hpart', hnames, hname⟩ := hsecond
  have hentry := List.inj_on_of_nodup_map h.nodup (mem_of_lookup hlookup) (mem_of_lookup hlookup')
    (hpart.symm.trans hpart')
  obtain ⟨hcomponent, rfl⟩ := Prod.mk.inj hentry
  obtain rfl := Option.some.inj (hids.symm.trans hnames)
  have hport := Option.some.inj (hid.symm.trans hname)
  obtain ⟨component, port⟩ := first
  obtain ⟨component', port'⟩ := second
  exact congrArg₂ Endpoint.mk hcomponent hport

theorem lists_bindWires (hinner : netlist.Inner ref)
    (h : (netlist.bindWires wires scope placements).Lists index ref) :
    netlist.Lists index ref ∨ ∃ position group, (wireGroups wires)[position]? = some group ∧
      index = netlist.nets.length + position ∧ Ends wires placements netlist group ref :=
  lists_bindGroups hinner h

/-- A port that a wire ends at belongs to one of the components. -/
theorem Fresh.mem_of_ends {base : Nat} {group : List Nat} (h : Fresh base netlist placements)
    (hends : Ends wires placements netlist group ref) :
    ∃ entry ∈ placements, ref.part = entry.2.part ∧ base ≤ ref.part := by
  obtain ⟨-, -, -, -, endpoint, -, placed, -, hlookup, hpart, -⟩ := hends
  have hmem := mem_of_lookup hlookup
  exact ⟨_, hmem, hpart, hpart ▸ (h.range _ hmem).1⟩

theorem unshared_bindWires {base : Nat} (hfresh : Fresh base netlist placements)
    (h : netlist.Unshared) : (netlist.bindWires wires scope placements).Unshared := by
  intro ref hinner first second hfirst hsecond
  rw [inner_congr (names_bindWires ..)] at hinner
  rcases lists_bindWires hinner hfirst with hfirst | ⟨k, group, hgroup, rfl, hends⟩
  · rcases lists_bindWires hinner hsecond with hsecond | ⟨_, _, _, _, hends⟩
    · exact h ref hinner first second hfirst hsecond
    · obtain ⟨entry, hentry, hpart, -⟩ := hfresh.mem_of_ends hends
      exact absurd hfirst (hfresh.unlisted entry hentry _ ref hpart hinner)
  · rcases lists_bindWires hinner hsecond with hsecond | ⟨l, other, hother, rfl, hends'⟩
    · obtain ⟨entry, hentry, hpart, -⟩ := hfresh.mem_of_ends hends
      exact absurd hsecond (hfresh.unlisted entry hentry _ ref hpart hinner)
    · obtain ⟨a, ha, near, hnear, endpoint, hend, hnamed⟩ := hends
      obtain ⟨b, hb, far, hfar, endpoint', hend', hnamed'⟩ := hends'
      obtain rfl := hfresh.eq_of_named hnamed hnamed'
      rw [group_eq_of_touches hgroup hother ha hb hnear hfar
        (Wire.touches_iff.mpr ⟨endpoint, hend, hend'⟩)]

theorem frames_bindWires {base : Netlist} (hfresh : Fresh base.parts.length netlist placements)
    (h : base.Frames netlist) : base.Frames (netlist.bindWires wires scope placements) := by
  intro index ref hpart hinner hlists
  rw [inner_congr (names_bindWires ..)] at hinner
  rcases lists_bindWires hinner hlists with hlists | ⟨_, _, _, _, hends⟩
  · exact h index ref hpart hinner hlists
  · obtain ⟨-, -, -, hle⟩ := hfresh.mem_of_ends hends
    exact absurd hpart (Nat.not_lt.mpr hle)

theorem Unshared.congr (h : netlist.Unshared) (hnets : next.nets = netlist.nets)
    (hinner : ∀ index ref, netlist.Lists index ref → next.Inner ref → netlist.Inner ref) :
    next.Unshared := by
  intro ref href first second hfirst hsecond
  rw [lists_congr hnets] at hfirst hsecond
  exact h ref (hinner first ref hfirst href) first second hfirst hsecond

theorem inner_addPart {part : Part} (hlt : ref.part < netlist.parts.length) :
    (netlist.addPart part).Inner ref ↔ netlist.Inner ref := by
  refine inner_congr ?_
  rw [names, addPart, List.getElem?_append_left hlt, names]

theorem Frames.trans {base : Netlist} (hgrows : Grows library base netlist)
    (hgrows' : Grows library netlist next) (h : base.Frames netlist) (h' : netlist.Frames next) :
    base.Frames next := by
  intro index ref hlt hinner hlists
  have hlt' := Nat.lt_of_lt_of_le hlt (names_grows hgrows).1
  refine h index ref hlt ?_ (h' index ref hlt' hinner hlists)
  exact (inner_congr ((names_grows hgrows').2 _ hlt')).mp hinner

theorem Fresh.frame {base : Nat} (h : Fresh base netlist placements)
    (hgrows : Grows library netlist next) (hframes : netlist.Frames next) :
    Fresh base next placements := by
  refine ⟨h.nodup, fun entry hentry => ⟨(h.range entry hentry).1, ?_⟩, ?_⟩
  · exact Nat.lt_of_lt_of_le (h.range entry hentry).2 (names_grows hgrows).1
  · intro entry hentry index ref hpart hinner hlists
    have hlt : ref.part < netlist.parts.length := hpart ▸ (h.range entry hentry).2
    refine h.unlisted entry hentry index ref hpart ?_ (hframes index ref hlt hinner hlists)
    exact (inner_congr ((names_grows hgrows).2 _ hlt)).mp hinner

/-- One more component. -/
theorem Fresh.place {base : Nat} {part : Part} {boundary : List (String × Nat)} {name : String}
    (h : Fresh base netlist placements) (hplaced : netlist.Placed)
    (hbase : base ≤ netlist.parts.length) :
    Fresh base (netlist.addPart part) ((name, ⟨netlist.parts.length, boundary⟩) :: placements) := by
  have hlength : (netlist.addPart part).parts.length = netlist.parts.length + 1 := by
    simp [addPart]
  refine ⟨?_, ?_, ?_⟩
  · refine List.nodup_cons.mpr ⟨fun hmem => ?_, h.nodup⟩
    obtain ⟨entry, hentry, heq⟩ := List.mem_map.mp hmem
    have hlt := (h.range entry hentry).2
    dsimp only at heq
    omega
  · intro entry hentry
    rw [hlength]
    rcases List.mem_cons.mp hentry with rfl | hentry
    · exact ⟨hbase, Nat.lt_succ_self _⟩
    · exact ⟨(h.range entry hentry).1, Nat.lt_succ_of_lt (h.range entry hentry).2⟩
  · intro entry hentry index ref hpart hinner hlists
    have hlists' : netlist.Lists index ref := hlists
    have hlt := hplaced index ref hlists'
    rcases List.mem_cons.mp hentry with rfl | hentry
    · dsimp only at hpart
      omega
    · exact h.unlisted entry hentry index ref hpart ((inner_addPart hlt).mp hinner) hlists'

/-! ## Laying out -/

/-- Laying out a schematic shares no ports, and leaves the parts that were there
alone. -/
def Tidy (library : Library) (expand : Layout) : Prop :=
  ∀ schematic scope netlist, netlist.Placed → netlist.Unshared →
    Grows library netlist (expand schematic scope netlist).1 ∧
      (expand schematic scope netlist).1.Unshared ∧
      netlist.Frames (expand schematic scope netlist).1

/-- The components placed so far, above a netlist `base`. -/
structure Placing (library : Library) (base : Netlist) (state : Netlist × Placements) : Prop where
  grows : Grows library base state.1
  unshared : state.1.Unshared
  frames : base.Frames state.1
  fresh : Fresh base.parts.length state.1 state.2

theorem Placing.expand {base : Netlist} {state : Netlist × Placements}
    (h : Placing library base state) (hgrows : Grows library state.1 next)
    (hunshared : next.Unshared) (hframes : state.1.Frames next) :
    Placing library base (next, state.2) :=
  ⟨h.grows.trans hgrows, hunshared, h.frames.trans h.grows hgrows hframes,
    h.fresh.frame hgrows hframes⟩

theorem Placing.report {base : Netlist} {state : Netlist × Placements}
    (h : Placing library base state) (diagnostic : Diagnostic) :
    Placing library base (state.1.report diagnostic, state.2) :=
  h.expand (grows_report ..) h.unshared fun _ _ _ _ hlists => hlists

theorem Placing.addPart {base : Netlist} {state : Netlist × Placements} {part : Part}
    {boundary : List (String × Nat)} {name : String} (hbase : base.Placed)
    (h : Placing library base state) (hstep : Extend library state.1 (state.1.addPart part)) :
    Placing library base
      (state.1.addPart part, (name, ⟨state.1.parts.length, boundary⟩) :: state.2) := by
  have hplaced := placed_grows h.grows hbase
  refine ⟨h.grows.tail hstep, ?_, ?_, h.fresh.place hplaced (names_grows h.grows).1⟩
  · exact h.unshared.congr rfl fun index ref hlists => (inner_addPart (hplaced index ref hlists)).mp
  · intro index ref hlt hinner hlists
    exact h.frames index ref hlt ((inner_addPart (hplaced index ref hlists)).mp hinner) hlists

theorem Placing.place {base : Netlist} {expand : Layout} {state : Netlist × Placements}
    (hexpand : Tidy library expand) (hbase : base.Placed) (h : Placing library base state)
    (component : Component) :
    Placing library base (Breadboard.place library expand scope state component) := by
  obtain ⟨netlist, placements⟩ := state
  have hplaced := placed_grows h.grows hbase
  have hinside : ∀ inside,
      Placing library base ((enter expand scope netlist component inside).1, placements) := by
    intro inside
    cases inside with
    | none => exact h
    | some inside =>
      have hscope := h.expand (.single (.scope netlist scope component.id)) h.unshared
        fun _ _ _ _ hlists => hlists
      obtain ⟨hgrows, hunshared, hframes⟩ :=
        hexpand inside netlist.scopes.length (netlist.addScope scope component.id)
          hplaced hscope.unshared
      exact hscope.expand hgrows hunshared hframes
  refine place_cases (motive := Placing library base) (fun _ => h.report _) (fun entry _ _ _ => (hinside entry.inside).report _)
    fun entry _ hentry hassemble => ?_
  exact (hinside entry.inside).addPart hbase (extend_toPart hentry hassemble _)

theorem placing_foldl {base : Netlist} {expand : Layout} (hexpand : Tidy library expand)
    (hbase : base.Placed) (scope : Nat) : ∀ (components : List Component)
      {state : Netlist × Placements}, Placing library base state →
      Placing library base (components.foldl (Breadboard.place library expand scope) state) := by
  intro components
  induction components with
  | nil => exact fun h => h
  | cons component components ih => exact fun h => ih (h.place hexpand hbase component)

theorem tidy_layout (library : Library) : ∀ depth, Tidy library (layout library depth) := by
  intro depth
  induction depth with
  | zero => exact fun _ _ _ _ h => ⟨.refl, h, fun _ _ _ _ hlists => hlists⟩
  | succ depth ih =>
    intro schematic scope netlist hplaced hunshared
    have hstart : Placing library netlist (netlist, []) :=
      ⟨.refl, hunshared, fun _ _ _ _ hlists => hlists, .nil, by simp, by simp⟩
    have hcomponents := placing_foldl ih hplaced scope schematic.components hstart
    refine ⟨grows_layout library (depth + 1) schematic scope netlist, ?_, ?_⟩
    · exact unshared_bindWires hcomponents.fresh hcomponents.unshared
    · exact frames_bindWires hcomponents.fresh hcomponents.frames

/-- In a flat netlist only the external pin of a boundary port is listed by
several nets. -/
theorem unshared_flatten (library : Library) (schematic : Schematic) :
    (flatten library schematic).Unshared := by
  have hempty : ∀ index ref, ¬ ({ scopes := [⟨none, ""⟩] } : Netlist).Lists index ref := by
    rintro index ref ⟨net, hnet, -⟩
    cases hnet
  obtain ⟨-, hunshared, -⟩ := tidy_layout library (library.entries.length + 1) schematic 0
    { scopes := [⟨none, ""⟩] } (fun index ref hlists => absurd hlists (hempty index ref))
    (fun ref _ first _ hlists => absurd hlists (hempty first ref))
  exact hunshared

/-! ## Flat netlists -/

/-- A netlist made by flattening, with built-in components only. -/
def Flat (netlist : Netlist) : Prop :=
  ∃ library schematic, library.Native ∧ netlist = flatten library schematic

theorem Flat.wired (h : netlist.Flat) : netlist.Wired := by
  obtain ⟨library, schematic, hnative, rfl⟩ := h
  exact wired_flatten hnative schematic

theorem Flat.built (h : netlist.Flat) : ∀ part ∈ netlist.parts, part.Built := by
  obtain ⟨library, schematic, hnative, rfl⟩ := h
  exact built_flatten hnative schematic

theorem Flat.eq_of_lists {port : Port} {first second : Nat} (h : netlist.Flat)
    (hport : netlist.port? ref = some port) (hid : port.id ≠ Boundary.externalPin)
    (hfirst : netlist.Lists first ref) (hsecond : netlist.Lists second ref) : first = second := by
  obtain ⟨library, schematic, -, rfl⟩ := h
  exact unshared_flatten library schematic ref ⟨port.id, names_eq hport, hid⟩ first second hfirst
    hsecond

/-- A port that faces both ways is listed by one net. -/
theorem Flat.eq_of_bidirectional {port : Port} {first second : Nat} (h : netlist.Flat)
    (hport : netlist.port? ref = some port) (hboth : port.type.bidirectional = true)
    (hfirst : netlist.Lists first ref) (hsecond : netlist.Lists second ref) : first = second := by
  refine h.eq_of_lists hport (fun hid => ?_) hfirst hsecond
  obtain ⟨part, hpart, hplace⟩ := part_of_port hport
  have hone := (h.built part (List.mem_of_getElem? hpart)).external (List.mem_of_getElem? hplace) hid
  rw [hboth] at hone
  cases hone

/-- Only a part that looks at resolved values alone has a port that several nets
can list. -/
theorem Flat.eq_of_wary {port : Port} {part : Part} {first second : Nat} (h : netlist.Flat)
    (hpart : netlist.parts[ref.part]? = some part) (hport : netlist.port? ref = some port)
    (hwary : part.device.wary = false)
    (hfirst : netlist.Lists first ref) (hsecond : netlist.Lists second ref) : first = second := by
  refine h.eq_of_lists hport (fun hid => ?_) hfirst hsecond
  obtain ⟨owner, howner, hplace⟩ := part_of_port hport
  obtain rfl := Option.some.inj (howner.symm.trans hpart)
  have hdevice := (h.built owner (List.mem_of_getElem? howner)).wary
    (List.mem_of_getElem? hplace) hid
  rw [hwary] at hdevice
  cases hdevice

end Netlist

end Breadboard
