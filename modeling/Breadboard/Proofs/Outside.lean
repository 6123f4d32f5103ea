import Breadboard.Proofs.Roster
import Breadboard.Proofs.Thinned
import Mathlib.Data.Nat.Nth

/-!
# What stands outside of an expansion

A definition can be registered with a schematic or without one. `outside` goes through
all that a circuit is laid out into and marks what does not come from the schematic of
that definition, in the order in which it is placed: the parts
(`Schematic.partsOutside`) and the nets (`Schematic.netsOutside`). Laying out adds as
many parts and nets as there are marks (`length_layout`), and a part without a mark is
one of the schematic (`inside_of_outside`). Whatever a schematic is laid out into stays
among itself (`Aside`): it attaches only its own ports, and only to its own nets.

`litAt` numbers what is marked: the number of what is marked in the list of all that is
there. What comes behind the marks counts as marked.
-/

namespace Breadboard

/-! ## Marks -/

/-- The entries that are marked. -/
def picked {α : Type} (marks : List Bool) (list : List α) : List α :=
  ((list.zip marks).filter (·.2)).map (·.1)

/-- A position that is marked, or lies behind all marks. -/
abbrev Lit (marks : List Bool) (index : Nat) : Prop :=
  marks.getD index true = true

/-- The position of a marked entry, given its number among these. -/
noncomputable def litAt (marks : List Bool) (number : Nat) : Nat :=
  Nat.nth (Lit marks) number

/-- The marks of a list stand from a position on. -/
def Marked (marks : List Bool) (start : Nat) (list : List Bool) : Prop :=
  ∀ (index : Nat) (mark : Bool), list[index]? = some mark →
    marks.getD (start + index) true = mark

section Marks

variable {marks first second : List Bool} {start index number : Nat}

theorem infinite_lit (marks : List Bool) : (Set.ofPred (Lit marks)).Infinite := by
  refine Set.infinite_of_forall_exists_gt fun bound => ⟨max marks.length (bound + 1), ?_, ?_⟩
  · show marks.getD _ true = true
    rw [List.getD_eq_default _ _ (Nat.le_max_left ..)]
  · exact Nat.lt_of_lt_of_le (Nat.lt_succ_self bound) (Nat.le_max_right ..)

theorem lit_litAt (marks : List Bool) (number : Nat) : Lit marks (litAt marks number) :=
  Nat.nth_mem_of_infinite (infinite_lit marks) number

theorem strictMono_litAt (marks : List Bool) : StrictMono (litAt marks) :=
  Nat.nth_strictMono (infinite_lit marks)

theorem litAt_count (h : Lit marks index) : litAt marks (Nat.count (Lit marks) index) = index :=
  Nat.nth_count h

theorem litAt_lt_iff : litAt marks number < index ↔ number < Nat.count (Lit marks) index :=
  (Nat.lt_nth_iff_count_lt (infinite_lit marks)).symm

/-- Without marks the count stays. -/
theorem count_dark {more : Nat}
    (h : ∀ place, start ≤ place → place < start + more → ¬ Lit marks place) :
    Nat.count (Lit marks) (start + more) = Nat.count (Lit marks) start := by
  induction more with
  | zero => rfl
  | succ more ih =>
    rw [← Nat.add_assoc, Nat.count_succ, if_neg (h _ (by omega) (by omega)), Nat.add_zero]
    exact ih fun place hle hlt => h place hle (by omega)

theorem marked_append : Marked marks start (first ++ second) ↔
    Marked marks start first ∧ Marked marks (start + first.length) second := by
  constructor
  · intro h
    refine ⟨fun index mark hmark => h index mark ?_, fun index mark hmark => ?_⟩
    · rw [List.getElem?_append_left (List.getElem?_eq_some_iff.mp hmark).1, hmark]
    · have hplace : (first ++ second)[first.length + index]? = some mark := by
        rw [List.getElem?_append_right (Nat.le_add_right ..), Nat.add_sub_cancel_left, hmark]
      have hlater := h (first.length + index) mark hplace
      rwa [← Nat.add_assoc] at hlater
  · rintro ⟨hfirst, hsecond⟩ index mark hmark
    rw [List.getElem?_append] at hmark
    split at hmark
    · exact hfirst index mark hmark
    · next hge =>
      have hlater := hsecond _ mark hmark
      rwa [Nat.add_assoc, Nat.add_sub_cancel' (Nat.not_lt.mp hge)] at hlater

theorem marked_self : Marked marks 0 marks := fun index mark hmark => by
  rw [Nat.zero_add, List.getD_eq_getElem?_getD, hmark, Option.getD_some]

/-- No position of a list without marks is marked. -/
theorem Marked.dark {α : Type} {list : List α} (h : Marked marks start (list.map fun _ => false))
    (hle : start ≤ index) (hlt : index < start + list.length) : ¬ Lit marks index := by
  obtain ⟨place, rfl⟩ := Nat.exists_eq_add_of_le hle
  rw [Nat.add_lt_add_iff_left] at hlt
  have hmark := h place false (by rw [List.getElem?_map, List.getElem?_eq_getElem hlt]; rfl)
  rw [Lit, hmark]
  exact Bool.false_ne_true

theorem picked_eq {α : Type} : ∀ {marks : List Bool} {list : List α}, list.length = marks.length →
    picked marks list =
      (List.range list.length).filterMap fun index => if Lit marks index then list[index]? else none
  | [], [], _ => rfl
  | mark :: marks, a :: list, hlength => by
    have hrest := picked_eq (Nat.succ.inj hlength)
    rw [List.length_cons, List.range_succ_eq_map, List.filterMap_cons, List.filterMap_map]
    unfold picked at hrest ⊢
    rw [List.zip_cons_cons, List.filter_cons]
    cases mark with
    | false => exact hrest
    | true => exact congrArg (a :: ·) hrest

/-- A list is what is picked of another one if its entries stand there in order. -/
theorem eq_picked {α : Type} {small big : List α} (hlength : big.length = marks.length)
    (hcount : Nat.count (Lit marks) big.length = small.length)
    (hentry : ∀ number < small.length, small[number]? = big[litAt marks number]?) :
    small = picked marks big := by
  have hinj : ∀ p < small.length, ∀ q < small.length, litAt marks p = litAt marks q → p = q :=
    fun p _ q _ heq => (strictMono_litAt marks).injective heq
  have hback : (List.range big.length).filterMap (back (litAt marks) small.length) =
      List.range small.length :=
    filterMap_back (fun hlt _ => strictMono_litAt marks hlt)
      fun p hp => litAt_lt_iff.mpr (hcount.symm ▸ hp)
  have hsmall : (List.range small.length).filterMap (small[·]?) = small := by
    simpa using filterMap_range_getElem? small some
  rw [picked_eq hlength, ← hsmall, ← hback, List.filterMap_filterMap]
  refine List.filterMap_congr fun index hindex => ?_
  by_cases hlit : Lit marks index
  · have hnumber : Nat.count (Lit marks) index < small.length := by
      rw [← hcount, ← litAt_lt_iff, litAt_count hlit]
      exact List.mem_range.mp hindex
    rw [if_pos hlit, (back_eq_some hinj).mpr ⟨hnumber, litAt_count hlit⟩, Option.bind_some,
      hentry _ hnumber, litAt_count hlit]
  · have hnone : back (litAt marks) small.length index = none := by
      rw [Option.eq_none_iff_forall_ne_some]
      intro number hnumber
      exact hlit (((back_eq_some hinj).mp hnumber).2 ▸ lit_litAt marks number)
    rw [if_neg hlit, hnone, Option.bind_none]

end Marks

/-! ## What is laid out -/

/-- For all that a schematic is laid out into, in order, whether it comes from elsewhere
than the schematic of the definition `id`. Each component and the wires of each
schematic contribute something. -/
def outside (library : Library) (id : String) (ofComponent : Component → List Bool)
    (ofWires : List Wire → List Bool) : (depth : Nat) → Schematic → List Bool
  | 0, _ => []
  | depth + 1, schematic =>
    (schematic.components.flatMap fun component =>
      (match library.inside? component with
        | none => []
        | some inside =>
          let marks := outside library id ofComponent ofWires depth inside
          if component.definition = id then marks.map fun _ => false else marks) ++
        ofComponent component) ++ ofWires schematic.wires

/-- A component that can be built becomes a part. -/
def partMarks (library : Library) (component : Component) : List Bool :=
  (library.assembly? component).toList.map fun _ => true

/-- A group of wires becomes a net. -/
def netMarks (wires : List Wire) : List Bool :=
  (wireGroups wires).map fun _ => true

/-- The marks of the parts that a schematic is laid out into. -/
def outsideParts (library : Library) (id : String) : (depth : Nat) → Schematic → List Bool :=
  outside library id (partMarks library) fun _ => []

/-- The marks of the nets that a schematic is laid out into. -/
def outsideNets (library : Library) (id : String) : (depth : Nat) → Schematic → List Bool :=
  outside library id (fun _ => []) netMarks

def Schematic.partsOutside (library : Library) (id : String) (schematic : Schematic) : List Bool :=
  outsideParts library id (library.entries.length + 1) schematic

def Schematic.netsOutside (library : Library) (id : String) (schematic : Schematic) : List Bool :=
  outsideNets library id (library.entries.length + 1) schematic

/-- The marks of what is inside a component. -/
def childOutside (library : Library) (id : String) (ofComponent : Component → List Bool)
    (ofWires : List Wire → List Bool) (depth : Nat) (component : Component) : List Bool :=
  match library.inside? component with
  | none => []
  | some inside =>
    if component.definition = id then
      (outside library id ofComponent ofWires depth inside).map fun _ => false
    else outside library id ofComponent ofWires depth inside

section

variable {library : Library} {id : String} {ofComponent : Component → List Bool}
  {ofWires : List Wire → List Bool} {depth : Nat} {schematic : Schematic} {component : Component}
  {netlist : Netlist} {scope : Nat}

theorem outside_succ : outside library id ofComponent ofWires (depth + 1) schematic =
    (schematic.components.flatMap fun component =>
      childOutside library id ofComponent ofWires depth component ++ ofComponent component) ++
      ofWires schematic.wires := rfl

theorem length_childOutside : (childOutside library id ofComponent ofWires depth component).length =
    match library.inside? component with
    | none => 0
    | some inside => (outside library id ofComponent ofWires depth inside).length := by
  unfold childOutside
  cases library.inside? component with
  | none => rfl
  | some inside =>
    dsimp only
    split
    · exact List.length_map _
    · rfl

/-! ## How much is laid out -/

/-- What the marks count: each component adds as much as it has marks, and so do wires. -/
structure Counts (library : Library) (size : Netlist → Nat) (ofComponent : Component → List Bool)
    (ofWires : List Wire → List Bool) : Prop where
  report : ∀ (netlist : Netlist) (diagnostic : Diagnostic),
    size (netlist.report diagnostic) = size netlist
  scope : ∀ (netlist : Netlist) (parent : Nat) (name : String),
    size (netlist.addScope parent name) = size netlist
  part : ∀ (netlist : Netlist) (component : Component) (scope : Nat) (assembly : Assembly),
    library.assembly? component = some assembly →
    size (netlist.addPart (assembly.toPart component scope)) =
      size netlist + (ofComponent component).length
  unbuilt : ∀ component : Component, library.assembly? component = none → ofComponent component = []
  wires : ∀ (netlist : Netlist) (wires : List Wire) (scope : Nat) (placements : Placements),
    size (netlist.bindWires wires scope placements) = size netlist + (ofWires wires).length

namespace Counts

variable {size : Netlist → Nat} (h : Counts library size ofComponent ofWires)

include h

theorem enter (id : String) (hexpand : ∀ schematic scope netlist,
      size (Breadboard.layout library depth schematic scope netlist).1 =
        size netlist + (outside library id ofComponent ofWires depth schematic).length)
    {entry : Library.Entry} (hentry : library.get? component.definition = some entry)
    (scope : Nat) (netlist : Netlist) :
    size (Netlist.enter (Breadboard.layout library depth) scope netlist component entry.inside).1 =
      size netlist + (childOutside library id ofComponent ofWires depth component).length := by
  rw [length_childOutside, inside?_eq hentry]
  cases entry.inside with
  | none => rfl
  | some inside => exact (hexpand ..).trans (congrArg (· + _) (h.scope ..))

theorem place (id : String) (hexpand : ∀ schematic scope netlist,
      size (layout library depth schematic scope netlist).1 =
        size netlist + (outside library id ofComponent ofWires depth schematic).length)
    (scope : Nat) (state : Netlist × Placements) (component : Component) :
    size (Breadboard.place library (layout library depth) scope state component).1 =
      size state.1 + (childOutside library id ofComponent ofWires depth component ++
        ofComponent component).length := by
  obtain ⟨netlist, placements⟩ := state
  have hinside : ∀ entry, library.get? component.definition = some entry →
      size (Netlist.enter (Breadboard.layout library depth) scope netlist component
        entry.inside).1 =
          size netlist + (childOutside library id ofComponent ofWires depth component).length :=
    fun entry hentry => h.enter id hexpand hentry scope netlist
  refine Netlist.place_cases (motive := fun state => size state.1 = size netlist +
    (childOutside library id ofComponent ofWires depth component ++ ofComponent component).length)
    (fun hnone => ?_) (fun entry error hentry hassemble => ?_)
    fun entry assembly hentry hassemble => ?_
  · have hplain : library.inside? component = none := by rw [Library.inside?, hnone]; rfl
    have hunbuilt : library.assembly? component = none := by rw [Library.assembly?, hnone]; rfl
    rw [h.unbuilt component hunbuilt, List.append_nil, length_childOutside, hplain]
    exact h.report ..
  · have hunbuilt : library.assembly? component = none := by
      rw [Library.assembly?, hentry, Option.bind_some, hassemble]
      rfl
    rw [h.unbuilt component hunbuilt, List.append_nil]
    exact (h.report ..).trans (hinside entry hentry)
  · have hbuilt : library.assembly? component = some assembly := by
      rw [Library.assembly?, hentry, Option.bind_some, hassemble]
      rfl
    rw [List.length_append, ← Nat.add_assoc, ← hinside entry hentry]
    exact h.part _ component scope assembly hbuilt

theorem places (id : String) (hexpand : ∀ schematic scope netlist,
      size (layout library depth schematic scope netlist).1 =
        size netlist + (outside library id ofComponent ofWires depth schematic).length)
    (scope : Nat) (components : List Component) : ∀ state : Netlist × Placements,
    size (components.foldl (Breadboard.place library (layout library depth) scope) state).1 =
      size state.1 + (components.flatMap fun component =>
        childOutside library id ofComponent ofWires depth component ++
          ofComponent component).length := by
  induction components with
  | nil => exact fun _ => rfl
  | cons component components ih =>
    intro state
    rw [List.foldl_cons, ih, h.place id hexpand, List.flatMap_cons, Nat.add_assoc]
    exact congrArg _ (List.length_append ..).symm

theorem layout (id : String) : ∀ (depth : Nat) (schematic : Schematic) (scope : Nat)
    (netlist : Netlist), size (layout library depth schematic scope netlist).1 =
      size netlist + (outside library id ofComponent ofWires depth schematic).length := by
  intro depth
  induction depth with
  | zero => exact fun _ _ _ => rfl
  | succ depth ih =>
    intro schematic scope netlist
    rw [outside_succ, List.length_append, ← Nat.add_assoc]
    exact (h.wires ..).trans
      (congrArg (· + _) (h.places id ih scope schematic.components (netlist, [])))

end Counts

theorem counts_parts (library : Library) :
    Counts library (·.parts.length) (partMarks library) fun _ => [] where
  report _ _ := rfl
  scope _ _ _ := rfl
  part netlist component scope assembly hassembly := by
    simp [partMarks, hassembly, Netlist.addPart]
  unbuilt component hunbuilt := by simp [partMarks, hunbuilt]
  wires netlist wires scope placements := by
    rw [← Netlist.length_outline, outline_bindWires, Netlist.length_outline]
    rfl

theorem counts_nets (library : Library) :
    Counts library (·.nets.length) (fun _ => []) netMarks where
  report _ _ := rfl
  scope _ _ _ := rfl
  part _ _ _ _ _ := rfl
  unbuilt _ _ := rfl
  wires netlist wires scope placements := by
    have hgroups : ∀ (groups : List (List Nat)) (netlist : Netlist),
        (groups.foldl (Netlist.bindGroup wires scope placements) netlist).nets.length =
          netlist.nets.length + groups.length := by
      intro groups
      induction groups with
      | nil => exact fun _ => rfl
      | cons group groups ih =>
        intro netlist
        rw [List.foldl_cons, ih, Netlist.length_bindGroup, List.length_cons, Nat.add_assoc,
          Nat.add_comm 1]
    rw [netMarks, List.length_map]
    exact hgroups _ netlist

/-! ## What is not marked -/

/-- Laid out deeper or elsewhere, a schematic has at least the same parts. -/
theorem exists_of_roster {listing : Listing} : ∀ {depth : Nat} (more : Nat) {names : List String}
    (names' : List String) {schematic : Schematic}, depth ≤ more →
    listing ∈ roster library depth names schematic →
    ∃ other ∈ roster library more names' schematic, other.assembly = listing.assembly := by
  intro depth
  induction depth with
  | zero => exact fun _ _ _ _ _ hmem => nomatch hmem
  | succ depth ih =>
    intro more names names' schematic hle hmem
    obtain ⟨more, rfl⟩ :=
      Nat.exists_eq_add_of_le' (Nat.le_trans (Nat.succ_le_succ depth.zero_le) hle)
    rw [roster_succ, List.mem_flatMap] at hmem
    obtain ⟨component, hcomponent, hmem⟩ := hmem
    rcases List.mem_append.mp hmem with hmem | hmem
    · unfold childRoster at hmem
      split at hmem
      · next inside hinside =>
        obtain ⟨other, hother, heq⟩ :=
          ih more (names' ++ [component.id]) (Nat.le_of_succ_le_succ hle) hmem
        refine ⟨other, ?_, heq⟩
        rw [roster_succ, List.mem_flatMap]
        refine ⟨component, hcomponent, List.mem_append_left _ ?_⟩
        rw [childRoster, hinside]
        exact hother
      · cases hmem
    · obtain ⟨-, -, hassembly⟩ := mem_ownListing.mp hmem
      refine ⟨⟨names', component, listing.assembly⟩, ?_, rfl⟩
      rw [roster_succ, List.mem_flatMap]
      exact ⟨component, hcomponent,
        List.mem_append_right _ (mem_ownListing.mpr ⟨rfl, rfl, hassembly⟩)⟩

/-- What has no mark is built like something in the schematic. -/
def InsideIfDark (library : Library) (inside : Schematic) (listing : Listing) (mark : Bool) :
    Prop :=
  mark = false → ∃ other ∈ inside.roster library, other.assembly = listing.assembly

/-- A part without a mark is one of the schematic of the definition. -/
theorem inside_of_outside {definition : Definition} {inside : Schematic}
    (hentry : library.get? definition.id = some ⟨definition, some inside⟩) :
    ∀ (depth : Nat) (names : List String) (schematic : Schematic),
      depth ≤ library.entries.length + 1 → List.Forall₂ (InsideIfDark library inside)
        (roster library depth names schematic)
        (outsideParts library definition.id depth schematic) := by
  intro depth
  induction depth with
  | zero => exact fun _ _ _ => .nil
  | succ depth ih =>
    intro names schematic hle
    rw [roster_succ, outsideParts, outside_succ, List.append_nil]
    have hown : ∀ component, List.Forall₂ (InsideIfDark library inside)
        (ownListing library names component) (partMarks library component) := by
      intro component
      unfold ownListing partMarks
      cases library.assembly? component with
      | none => exact .nil
      | some assembly => exact .cons (fun hmark => nomatch hmark) .nil
    have hchild : ∀ component, List.Forall₂ (InsideIfDark library inside)
        (childRoster library depth names component)
        (childOutside library definition.id (partMarks library) (fun _ => []) depth component) := by
      intro component
      unfold childRoster childOutside
      cases hinside : library.inside? component with
      | none => exact .nil
      | some found =>
        dsimp only
        split
        · next hid =>
          obtain rfl : found = inside := by
            rw [Library.inside?, hid, hentry] at hinside
            exact (Option.some.inj hinside).symm
          refine List.forall₂_iff_get.mpr ⟨?_, fun index hindex hindex' _ => ?_⟩
          · rw [List.length_map]
            exact (ih (names ++ [component.id]) found (by omega)).length_eq
          · exact exists_of_roster _ [] (by omega) (List.get_mem _ _)
        · exact ih _ found (by omega)
    induction schematic.components with
    | nil => exact .nil
    | cons component components ih' =>
      rw [List.flatMap_cons, List.flatMap_cons]
      exact List.rel_append (List.rel_append (hchild component) (hown component)) ih'

/-! ## What is laid out stays among itself -/

theorem net_of_record {σ α : Type} {step : σ → α → σ} {attempts : σ → α → List Attempt}
    (read : σ → Netlist) {base : Nat}
    (hgrow : ∀ state item, (read state).nets.length ≤ (read (step state item)).nets.length)
    (hstep : ∀ state item, ∀ attempt ∈ attempts state item,
      (read state).nets.length ≤ attempt.net) :
    ∀ (items : List α) (state : σ), base ≤ (read state).nets.length →
      ∀ attempt ∈ record step attempts state items, base ≤ attempt.net := by
  intro items
  induction items with
  | nil => exact fun _ _ _ hmem => nomatch hmem
  | cons item items ih =>
    intro state hbase attempt hmem
    rcases List.mem_append.mp hmem with hmem | hmem
    · exact Nat.le_trans hbase (hstep state item attempt hmem)
    · exact ih _ (Nat.le_trans hbase (hgrow state item)) attempt hmem

theorem net_of_endAttempts {placements : Placements} {index : Nat} {netlist : Netlist}
    {wireEnd : String × Endpoint} :
    ∀ attempt ∈ Netlist.endAttempts placements index netlist wireEnd, attempt.net = index := by
  intro attempt hmem
  unfold Netlist.endAttempts at hmem
  split at hmem
  · cases hmem
  · split at hmem
    · cases hmem
    · unfold Netlist.placedAttempts at hmem
      split at hmem
      · rw [List.mem_singleton.mp hmem]
      · rcases List.mem_cons.mp hmem with rfl | hmem
        · rfl
        · rw [List.mem_singleton.mp hmem]

theorem net_of_wireAttempts (wires : List Wire) (scope : Nat) (placements : Placements)
    (netlist : Netlist) : ∀ attempt ∈ Netlist.wireAttempts wires scope placements netlist,
      netlist.nets.length ≤ attempt.net := by
  refine net_of_record id (fun netlist group => ?_) (fun netlist group attempt hmem => ?_) _ netlist
    (Nat.le_refl _)
  · exact (Netlist.length_bindGroup netlist group).symm ▸ Nat.le_succ _
  · have hends : ∀ (ends : List (String × Endpoint)) (state : Netlist),
        ∀ attempt ∈ record (Netlist.bindEnd scope placements netlist.nets.length)
          (Netlist.endAttempts placements netlist.nets.length) state ends,
        attempt.net = netlist.nets.length := by
      intro ends
      induction ends with
      | nil => exact fun _ _ hmem => nomatch hmem
      | cons wireEnd ends ih =>
        intro state attempt hmem
        rcases List.mem_append.mp hmem with hmem | hmem
        · exact net_of_endAttempts attempt hmem
        · exact ih _ attempt hmem
    exact Nat.le_of_eq (hends _ _ attempt hmem).symm

/-- Nothing is attached to the nets that were there. -/
theorem net_of_layoutAttempts (library : Library) : ∀ (depth : Nat) (schematic : Schematic)
    (scope : Nat) (netlist : Netlist),
    ∀ attempt ∈ layoutAttempts library depth schematic scope netlist,
      netlist.nets.length ≤ attempt.net := by
  intro depth
  induction depth with
  | zero => exact fun _ _ _ _ hmem => nomatch hmem
  | succ depth ih =>
    intro schematic scope netlist attempt hmem
    have hgrow : ∀ (state : Netlist × Placements) (component : Component), state.1.nets.length ≤
        (Breadboard.place library (layout library depth) scope state component).1.nets.length := by
      intro state component
      exact (counts_nets library).place "" ((counts_nets library).layout "" depth) scope state
        component ▸ Nat.le_add_right ..
    rcases List.mem_append.mp hmem with hmem | hmem
    · refine net_of_record Prod.fst hgrow (fun state component attempt hmem => ?_) _ (netlist, [])
        (Nat.le_refl _) attempt hmem
      unfold placeAttempts at hmem
      split at hmem
      · cases hmem
      · exact ih _ _ (state.1.addScope scope component.id) attempt hmem
    · refine Nat.le_trans ?_ (net_of_wireAttempts _ _ _ _ attempt hmem)
      exact (counts_nets library).places "" ((counts_nets library).layout "" depth) scope
        schematic.components (netlist, []) ▸ Nat.le_add_right ..

/-- What came to a netlist is attached to nothing that was there. -/
structure Netlist.Aside (netlist next : Netlist) : Prop where
  parts : ∀ index < netlist.parts.length, next.parts[index]? = netlist.parts[index]?
  nets : ∀ index < netlist.nets.length, next.nets[index]? = netlist.nets[index]?
  scopes : netlist.scopes <+: next.scopes
  lists : ∀ {index : Nat} {ref : PortRef}, netlist.nets.length ≤ index → next.Lists index ref →
    netlist.parts.length ≤ ref.part ∧ ref.part < next.parts.length

/-- A replay changes only what it attaches. -/
theorem Replay.unchanged {last : Netlist} {log : List Attempt} {base baseNet : Nat}
    (h : Replay library netlist log last)
    (hlog : ∀ attempt ∈ log, base ≤ attempt.ref.part ∧ baseNet ≤ attempt.net)
    (hparts : base ≤ netlist.parts.length) (hnets : baseNet ≤ netlist.nets.length) :
    (∀ index < base, last.parts[index]? = netlist.parts[index]?) ∧
      ∀ index < baseNet, last.nets[index]? = netlist.nets[index]? := by
  induction h with
  | nil => exact ⟨fun _ _ => rfl, fun _ _ => rfl⟩
  | quiet hquiet _ ih =>
    cases hquiet with
    | reports | scope => exact ih hlog hparts hnets
    | part part _ _ =>
      obtain ⟨hkeep, hkeep'⟩ := ih hlog (by simp [Netlist.addPart]; omega) hnets
      refine ⟨fun index hlt => (hkeep index hlt).trans ?_, hkeep'⟩
      exact List.getElem?_append_left (Nat.lt_of_lt_of_le hlt hparts)
    | net scope wires _ =>
      obtain ⟨hkeep, hkeep'⟩ := ih hlog hparts (by simp; omega)
      refine ⟨hkeep, fun index hlt => (hkeep' index hlt).trans ?_⟩
      exact List.getElem?_append_left (Nat.lt_of_lt_of_le hlt hnets)
  | @bind netlist last net ref asSource log port found hport hfound _ ih =>
    obtain ⟨hpart, hnet⟩ := hlog _ (List.mem_cons_self ..)
    have hlength := Netlist.length_bind netlist net ref asSource
    obtain ⟨hkeep, hkeep'⟩ := ih (fun attempt hmem => hlog attempt (List.mem_cons_of_mem _ hmem))
      (hlength.1.symm ▸ hparts) (hlength.2.symm ▸ hnets)
    refine ⟨fun index hlt => (hkeep index hlt).trans ?_,
      fun index hlt => (hkeep' index hlt).trans ?_⟩
    · rcases Netlist.bind_cases netlist net ref asSource with ⟨_, heq⟩ | ⟨_, _, -, -, -, -, heq⟩
      · rw [heq]
      · have hne : ref.part ≠ index := Nat.ne_of_gt (Nat.lt_of_lt_of_le hlt hpart)
        rw [heq, Netlist.parts_attached_of_ne _ _ _ _ hne]
    · rcases Netlist.bind_cases netlist net ref asSource with ⟨_, heq⟩ | ⟨_, _, -, -, -, -, heq⟩
      · rw [heq]
      · rw [heq]
        exact List.getElem?_set_ne (Nat.ne_of_gt (Nat.lt_of_lt_of_le hlt hnet))

theorem aside_layout (depth : Nat) (schematic : Schematic)
    (hscope : scope < netlist.scopes.length) :
    netlist.Aside (layout library depth schematic scope netlist).1 := by
  have hreplay := replay_layout library depth schematic scope netlist hscope
  have hrange := (recorded_layout library depth schematic scope netlist).range
  have hlog : ∀ attempt ∈ layoutAttempts library depth schematic scope netlist,
      netlist.parts.length ≤ attempt.ref.part ∧ netlist.nets.length ≤ attempt.net :=
    fun attempt hmem => ⟨(hrange attempt.ref (List.mem_map_of_mem hmem)).1,
      net_of_layoutAttempts library depth schematic scope netlist attempt hmem⟩
  obtain ⟨hparts, hnets⟩ := hreplay.unchanged hlog (Nat.le_refl _) (Nat.le_refl _)
  refine ⟨hparts, hnets, hreplay.kept.scopes, fun {index ref} hle hlists => ?_⟩
  rcases hreplay.lists hlists with ⟨net, hnet, -⟩ | ⟨attempt, hmem, rfl, rfl⟩
  · have := (List.getElem?_eq_some_iff.mp hnet).1
    omega
  · exact hrange attempt.ref (List.mem_map_of_mem hmem)

end

end Breadboard
