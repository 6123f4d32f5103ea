import Breadboard.Proofs.Sharing

/-!
# A net lists a driver once

A net counts its sources with their multiplicity, so a pin that was listed twice
would be in conflict with itself. It is not: the ends of a group of wires are
different endpoints, different endpoints name different ports, and only the group
that makes a net attaches ports to it. As in the file on sharing this is shown for
all ports but the external pins of boundary ports, which are also attached from the
outside of their schematic.
-/

namespace Breadboard

namespace Netlist

variable {library : Library} {netlist next : Netlist} {index : Nat} {ref : PortRef}
  {placements : Placements} {scope : Nat} {wires : List Wire} {asSource : Bool}

/-- How often a net lists a port as a source. -/
def listings (netlist : Netlist) (index : Nat) (ref : PortRef) : Nat :=
  (netlist.nets.getD index default).sources.count ref

def Once (netlist : Netlist) : Prop :=
  ∀ index ref, netlist.Inner ref → netlist.listings index ref ≤ 1

theorem listings_congr (h : next.nets = netlist.nets) :
    next.listings index ref = netlist.listings index ref := by
  rw [listings, h, listings]

theorem listings_addNet (wires : List String) : ({ netlist with
    nets := netlist.nets ++ [{ scope, wires }] } : Netlist).listings index ref =
      netlist.listings index ref := by
  unfold listings
  dsimp only
  rw [List.getD_eq_getElem?_getD, List.getD_eq_getElem?_getD, List.getElem?_append]
  split
  · rfl
  · next hge =>
    rw [List.getElem?_eq_none (Nat.not_lt.mp hge), List.getElem?_singleton]
    split <;> rfl

theorem listings_length : netlist.listings netlist.nets.length ref = 0 := by
  simp [listings, default, instInhabitedNet.default]

/-! ## Attaching a port -/

theorem listings_bind (netlist : Netlist) (net : Nat) (other : PortRef) (asSource : Bool) :
    (netlist.bind net other asSource).listings index ref ≤ netlist.listings index ref ∨
      index = net ∧ ref = other ∧
        (netlist.bind net other asSource).listings index ref ≤ netlist.listings index ref + 1 := by
  rcases bind_cases netlist net other asSource with ⟨_, heq⟩ | ⟨port, found, -, hfound, -, -, heq⟩
  · rw [heq]
    exact Or.inl (Nat.le_refl _)
  · have hlt := (List.getElem?_eq_some_iff.mp hfound).1
    rw [heq, listings, listings, nets_attached, List.getD_eq_getElem?_getD,
      List.getD_eq_getElem?_getD]
    by_cases hsame : net = index
    · subst hsame
      rw [List.getElem?_set_self hlt, hfound]
      simp only [Option.getD_some, Net.attach]
      split
      · rw [List.count_append, List.count_singleton]
        split
        · next href => exact Or.inr ⟨trivial, (beq_iff_eq.mp href).symm, Nat.le_refl _⟩
        · exact Or.inl (Nat.le_refl _)
      · exact Or.inl (Nat.le_refl _)
    · rw [List.getElem?_set_ne hsame]
      exact Or.inl (Nat.le_refl _)

theorem listings_bindPlaced (net port : Nat) (placed : Breadboard.Placed) (id : String)
    (hinner : netlist.Inner ref) :
    (netlist.bindPlaced net placed port id).listings index ref ≤ netlist.listings index ref ∨
      index = net ∧ ref = ⟨placed.part, port⟩ ∧
        (netlist.bindPlaced net placed port id).listings index ref ≤
          netlist.listings index ref + 1 := by
  unfold bindPlaced
  dsimp only
  split
  · exact listings_bind ..
  · next inner hfound =>
    obtain ⟨part, -, hpin⟩ := Option.bind_eq_some_iff.mp hfound
    have hne : ref ≠ inner := hinner.ne_of_external hpin
    generalize netlist.parts[placed.part]?.any (·.valid) = own
    rcases listings_bind (netlist.bind net ⟨placed.part, port⟩ own) net inner (!own) with
      hsame | ⟨-, heq, -⟩
    · exact (listings_bind ..).imp (Nat.le_trans hsame) fun ⟨hindex, href, hle⟩ =>
        ⟨hindex, href, Nat.le_trans hsame hle⟩
    · exact absurd heq hne

theorem listings_bindEnd (net : Nat) (wireEnd : String × Endpoint) (hinner : netlist.Inner ref) :
    (netlist.bindEnd scope placements net wireEnd).listings index ref ≤
        netlist.listings index ref ∨
      index = net ∧ Named placements netlist wireEnd.2 ref ∧
        (netlist.bindEnd scope placements net wireEnd).listings index ref ≤
          netlist.listings index ref + 1 := by
  unfold bindEnd
  dsimp only
  split
  · exact Or.inl (Nat.le_refl _)
  · next placed hlookup =>
    split
    · exact Or.inl (Nat.le_refl _)
    · next port hport =>
      refine (listings_bindPlaced _ _ _ _ hinner).imp id fun ⟨hindex, href, hle⟩ => ?_
      refine ⟨hindex, ?_, hle⟩
      subst href
      exact named_of_port hlookup hport

/-- Different endpoints attach a port once at most. -/
theorem listings_bindEnds (net : Nat) : ∀ (ends : List (String × Endpoint)) {netlist : Netlist},
    netlist.Inner ref → ends.Pairwise (fun first second => second.2 ≠ first.2) →
    (∀ first second, Named placements netlist first ref → Named placements netlist second ref →
      first = second) →
    (ends.foldl (bindEnd scope placements net) netlist).listings index ref ≤
        netlist.listings index ref ∨
      index = net ∧ (∃ wireEnd ∈ ends, Named placements netlist wireEnd.2 ref) ∧
        (ends.foldl (bindEnd scope placements net) netlist).listings index ref ≤
          netlist.listings index ref + 1 := by
  intro ends
  induction ends with
  | nil => exact fun _ _ _ => Or.inl (Nat.le_refl _)
  | cons wireEnd ends ih =>
    intro netlist hinner hdistinct hone
    obtain ⟨hdistinct, hrest⟩ := List.pairwise_cons.mp hdistinct
    have hnames := names_bindEnd scope placements net netlist wireEnd
    have hlater := ih ((inner_congr (hnames ref.part)).mpr hinner) hrest fun first second hfirst
      hsecond => hone first second (hfirst.congr hnames) (hsecond.congr hnames)
    rw [List.foldl_cons]
    rcases listings_bindEnd net wireEnd hinner with hkeep | ⟨hindex, hnamed, hle⟩
    · refine hlater.imp (Nat.le_trans · hkeep) fun ⟨hindex, ⟨other, hother, hnamed⟩, hle⟩ => ?_
      exact ⟨hindex, ⟨other, List.mem_cons_of_mem _ hother, hnamed.congr hnames⟩, by omega⟩
    · rcases hlater with hsame | ⟨-, ⟨other, hother, hnamed'⟩, -⟩
      · exact Or.inr ⟨hindex, ⟨wireEnd, List.mem_cons_self .., hnamed⟩, Nat.le_trans hsame hle⟩
      · exact absurd (hone _ _ (hnamed'.congr hnames) hnamed) (hdistinct other hother)

/-! ## Binding wires -/

theorem pairwise_eraseDupsBy {α : Type} {r : α → α → Bool} : ∀ {list : List α},
    (list.eraseDupsBy r).Pairwise fun first second => r second first = false := by
  intro list
  induction h : list.length using Nat.strongRecOn generalizing list with
  | ind n ih =>
    cases list with
    | nil => exact List.Pairwise.nil
    | cons head rest =>
      rw [List.eraseDupsBy_cons]
      have hlt := List.length_filter_le (fun c => decide (r c head = false)) rest
      rw [List.length_cons] at h
      refine List.pairwise_cons.mpr ⟨fun other hother => ?_, ih _ (by omega) rfl⟩
      exact of_decide_eq_true (List.mem_filter.mp (mem_of_mem_eraseDupsBy hother)).2

theorem pairwise_groupEnds (wires : List Wire) :
    (groupEnds wires).Pairwise fun first second => second.2 ≠ first.2 :=
  pairwise_eraseDupsBy.imp fun h heq => by simp [heq] at h

/-- Endpoints of the components placed side by side name different ports. -/
def Distinct (placements : Placements) (netlist : Netlist) : Prop :=
  ∀ ref first second, Named placements netlist first ref → Named placements netlist second ref →
    first = second

theorem Once.bindGroup (h : netlist.Once) (hdistinct : Distinct placements netlist)
    (group : List Nat) : (netlist.bindGroup wires scope placements group).Once := by
  intro index ref hinner
  rw [inner_congr (names_bindGroup ..)] at hinner
  have hbefore := h index ref hinner
  let added : Netlist :=
    { netlist with
      nets := netlist.nets ++ [{ scope, wires := (group.filterMap (wires[·]?)).map (·.id) }] }
  have hadded : added.listings index ref = netlist.listings index ref := listings_addNet _
  have hone : ∀ first second, Named placements added first ref →
      Named placements added second ref → first = second := fun first second hfirst hsecond =>
    hdistinct ref first second (hfirst.congr fun _ => rfl) (hsecond.congr fun _ => rfl)
  have hends : (netlist.bindGroup wires scope placements group).listings index ref ≤
        added.listings index ref ∨
      index = netlist.nets.length ∧ _ ∧
        (netlist.bindGroup wires scope placements group).listings index ref ≤
          added.listings index ref + 1 :=
    listings_bindEnds _ _ hinner (pairwise_groupEnds _) hone
  rw [hadded] at hends
  rcases hends with hkeep | ⟨rfl, -, hle⟩
  · exact Nat.le_trans hkeep hbefore
  · rwa [listings_length] at hle

theorem Once.bindWires (h : netlist.Once) (hdistinct : Distinct placements netlist) :
    (netlist.bindWires wires scope placements).Once := by
  have hfold : ∀ (groups : List (List Nat)) {netlist : Netlist}, netlist.Once →
      Distinct placements netlist →
      (groups.foldl (Netlist.bindGroup wires scope placements) netlist).Once := by
    intro groups
    induction groups with
    | nil => exact fun h _ => h
    | cons group groups ih =>
      intro netlist h hdistinct
      refine ih (h.bindGroup hdistinct group) fun ref first second hfirst hsecond => ?_
      have hnames := names_bindGroup wires scope placements netlist group
      exact hdistinct ref first second (hfirst.congr hnames) (hsecond.congr hnames)
  exact hfold _ h hdistinct

/-! ## Laying out -/

/-- Laying out a schematic lists no port twice. -/
def Keeps (expand : Layout) : Prop :=
  ∀ schematic scope netlist, netlist.Placed → netlist.Unshared → netlist.Once →
    (expand schematic scope netlist).1.Once

theorem Once.congr (h : netlist.Once) (hnets : next.nets = netlist.nets)
    (hinner : ∀ index ref, netlist.Lists index ref → next.Inner ref → netlist.Inner ref) :
    next.Once := by
  intro index ref href
  rw [listings_congr hnets]
  by_cases hzero : netlist.listings index ref = 0
  · omega
  · refine h index ref (hinner index ref ?_ href)
    have hmem := List.count_pos_iff.mp (Nat.pos_of_ne_zero hzero)
    cases hnet : netlist.nets[index]? with
    | none =>
      rw [List.getD_eq_getElem?_getD, hnet] at hmem
      cases hmem
    | some net =>
      rw [List.getD_eq_getElem?_getD, hnet] at hmem
      exact ⟨net, hnet, Or.inl hmem⟩

theorem Once.place {base : Netlist} {expand : Layout} {state : Netlist × Placements}
    (hexpand : Tidy library expand) (hkeeps : Keeps expand) (hbase : base.Placed)
    (hplacing : Placing library base state) (h : state.1.Once) (component : Component) :
    (Breadboard.place library expand scope state component).1.Once := by
  obtain ⟨netlist, placements⟩ := state
  have hplaced := placed_grows hplacing.grows hbase
  have hinside : ∀ inside, (enter expand scope netlist component inside).1.Once ∧
      (enter expand scope netlist component inside).1.Placed := by
    intro inside
    cases inside with
    | none => exact ⟨h, hplaced⟩
    | some inside =>
      obtain ⟨hgrows, -, -⟩ := hexpand inside netlist.scopes.length
        (netlist.addScope scope component.id) hplaced hplacing.unshared
      exact ⟨hkeeps _ _ _ hplaced hplacing.unshared h, placed_grows hgrows hplaced⟩
  refine place_cases (motive := fun state => state.1.Once) (fun _ => h) (fun entry _ _ _ => (hinside entry.inside).1)
    fun entry _ _ _ => (hinside entry.inside).1.congr rfl fun index ref hlists => ?_
  exact (inner_addPart ((hinside entry.inside).2 index ref hlists)).mp

theorem keeps_layout (library : Library) : ∀ depth, Keeps (layout library depth) := by
  intro depth
  induction depth with
  | zero => exact fun _ _ _ _ _ h => h
  | succ depth ih =>
    intro schematic scope netlist hplaced hunshared hone
    have hfold : ∀ (components : List Component) (state : Netlist × Placements),
        Placing library netlist state → state.1.Once →
        let placed := components.foldl (place library (layout library depth) scope) state
        Placing library netlist placed ∧ placed.1.Once := by
      intro components
      induction components with
      | nil => exact fun _ hplacing h => ⟨hplacing, h⟩
      | cons component components ih' =>
        intro state hplacing h
        have htidy := tidy_layout library depth
        exact ih' _ (hplacing.place htidy hplaced component)
          (h.place htidy ih hplaced hplacing component)
    obtain ⟨hplacing, h⟩ := hfold schematic.components (netlist, [])
      ⟨.refl, hunshared, fun _ _ _ _ hlists => hlists, .nil, by simp, by simp⟩ hone
    exact h.bindWires fun ref first second => hplacing.fresh.eq_of_named

theorem once_flatten (library : Library) (schematic : Schematic) :
    (flatten library schematic).Once := by
  refine keeps_layout library (library.entries.length + 1) schematic 0 { scopes := [⟨none, ""⟩] }
    ?_ ?_ ?_
  · rintro index ref ⟨net, hnet, -⟩
    cases hnet
  · rintro ref - first second ⟨net, hnet, -⟩
    cases hnet
  · intro index ref _
    simp [listings, default, instInhabitedNet.default]

/-- A net lists a source that faces both ways once. -/
theorem Flat.count_le_one {port : Port} {net : Net} (h : netlist.Flat)
    (hport : netlist.port? ref = some port) (hboth : port.type.bidirectional = true)
    (hnet : netlist.nets[index]? = some net) : net.sources.count ref ≤ 1 := by
  have hid : port.id ≠ Boundary.externalPin := by
    intro hid
    obtain ⟨part, hpart, hplace⟩ := part_of_port hport
    have hbuilt := h.built part (List.mem_of_getElem? hpart)
    have hone := hbuilt.external (List.mem_of_getElem? hplace) hid
    rw [hboth] at hone
    cases hone
  obtain ⟨library, schematic, -, rfl⟩ := h
  have hle := once_flatten library schematic index ref ⟨port.id, names_eq hport, hid⟩
  rwa [listings, List.getD_eq_getElem?_getD, hnet] at hle

end Netlist

end Breadboard
