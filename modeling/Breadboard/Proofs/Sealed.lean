import Breadboard.Proofs.Once
import Breadboard.Proofs.Pairing

/-!
# Each port is attached once

Along the record of flattening each scope attaches the ports of its own components,
and the external pins behind the ports of expanded components. Different ends of
wires name different ports, and parts are numbered as they are placed: those inside a
component come after the components placed before it and before its own part
(`Staged`). So nothing is attached twice, external pins aside.

An external pin can be reached from both sides of its boundary: a wire inside may name
it, and two boundary ports of one id show the same pin twice. `Library.Sealed` excludes
that, and then all ports and nets pair up (`flatten_pairs_ports`). Otherwise they do
not (`flatten_shares_pin`).
-/

namespace Breadboard

open Netlist

/-- Nothing inside reaches for the outer sides of its boundary ports, and these differ
in their ids. -/
structure Schematic.Sealed (schematic : Schematic) : Prop where
  distinct : ∀ first ∈ schematic.components, ∀ second ∈ schematic.components,
    first.definition = Boundary.definition → second.definition = Boundary.definition →
    first.id = second.id → first = second
  hidden : ∀ wire ∈ schematic.wires, ∀ endpoint ∈ wire.endpoints,
    endpoint.port = Boundary.externalPin → ∀ component ∈ schematic.components,
    component.definition = Boundary.definition → component.id ≠ endpoint.component

/-- The schematics that the definitions expand to are sealed. -/
def Library.Sealed (library : Library) : Prop :=
  ∀ entry ∈ library.entries, ∀ inside, entry.inside = some inside → inside.Sealed

variable {library : Library} {netlist next : Netlist} {log more : List Attempt} {base index : Nat}
  {scope : Nat} {ref : PortRef} {placements : Placements} {wires : List Wire}
  {endpoint other : Endpoint}

/-! ## The ends of the wires of a schematic -/

/-- The ends of all wires, group by group. -/
def wireEnds (wires : List Wire) : List Endpoint :=
  (wireGroups wires).flatMap fun group =>
    (groupEnds (group.filterMap (wires[·]?))).map (·.2)

theorem mem_wireEnds (h : endpoint ∈ wireEnds wires) : ∃ wire ∈ wires, endpoint ∈ wire.endpoints := by
  obtain ⟨group, -, hend⟩ := List.mem_flatMap.mp h
  obtain ⟨wireEnd, hmem, rfl⟩ := List.mem_map.mp hend
  obtain ⟨wire, hwire, hend⟩ := mem_groupEnds hmem
  obtain ⟨position, -, hwire⟩ := List.mem_filterMap.mp hwire
  exact ⟨wire, List.mem_of_getElem? hwire, hend⟩

theorem nodup_wireEnds (wires : List Wire) : (wireEnds wires).Nodup := by
  refine List.nodup_flatMap.mpr ⟨fun group _ => ?_, ?_⟩
  · exact List.pairwise_map.mpr ((pairwise_groupEnds _).imp Ne.symm)
  · refine List.pairwise_iff_getElem.mpr fun first second hfirst hsecond hlt => ?_
    intro endpoint hend hend'
    obtain ⟨wireEnd, hmem, rfl⟩ := List.mem_map.mp hend
    obtain ⟨wireEnd', hmem', heq⟩ := List.mem_map.mp hend'
    obtain ⟨near, hnear, hend⟩ := mem_groupEnds hmem
    obtain ⟨far, hfar, hend'⟩ := mem_groupEnds hmem'
    obtain ⟨a, ha, hnear⟩ := List.mem_filterMap.mp hnear
    obtain ⟨b, hb, hfar⟩ := List.mem_filterMap.mp hfar
    have hsame := group_eq_of_touches (List.getElem?_eq_getElem hfirst)
      (List.getElem?_eq_getElem hsecond) ha hb hnear hfar
      (Wire.touches_iff.mpr ⟨wireEnd.2, hend, heq ▸ hend'⟩)
    exact absurd hsame (Nat.ne_of_lt hlt)

/-! ## What the record of a scope is about -/

theorem refs_record {σ α : Type} {step : σ → α → σ} {attempts : σ → α → List Attempt}
    (stays : σ → Prop) (f : α → List PortRef)
    (hkeep : ∀ state item, stays state → stays (step state item))
    (hrefs : ∀ state item, stays state → refs (attempts state item) = f item) :
    ∀ (items : List α) (state : σ), stays state →
      refs (record step attempts state items) = items.flatMap f := by
  intro items
  induction items with
  | nil => exact fun _ _ => rfl
  | cons item items ih =>
    intro state hstays
    rw [record, refs_append, hrefs state item hstays, ih _ (hkeep state item hstays),
      List.flatMap_cons]

theorem refs_endAttempts (netlist : Netlist) (wireEnd : String × Endpoint) :
    refs (endAttempts placements index netlist wireEnd) =
      (netlist.attachments placements wireEnd.2).map (·.1) := by
  unfold endAttempts attachments
  cases placements.lookup wireEnd.2.component with
  | none => rfl
  | some placed =>
    dsimp only
    cases netlist.position? placed.part wireEnd.2.port with
    | none => rfl
    | some port =>
      dsimp only
      unfold placedAttempts standing
      cases netlist.behind? placed wireEnd.2.port <;> rfl

theorem outline_bind (netlist : Netlist) (index : Nat) (ref : PortRef) (asSource : Bool) :
    (netlist.bind index ref asSource).outline = netlist.outline := by
  rcases bind_cases netlist index ref asSource with ⟨_, heq⟩ | ⟨port, net, -, -, -, -, heq⟩
  · rw [heq]
    rfl
  · rw [heq]
    exact outline_attached ..

theorem outline_bindEnd (index : Nat) (netlist : Netlist) (wireEnd : String × Endpoint) :
    (netlist.bindEnd scope placements index wireEnd).outline = netlist.outline := by
  rw [bindEnd_eq]
  cases placements.lookup wireEnd.2.component with
  | none => rfl
  | some placed =>
    dsimp only
    cases netlist.position? placed.part wireEnd.2.port with
    | none => rfl
    | some port =>
      dsimp only
      rw [bindPlaced_eq]
      cases netlist.behind? placed wireEnd.2.port with
      | none => exact outline_bind ..
      | some inner => exact (outline_bind ..).trans (outline_bind ..)

theorem outline_foldl {α : Type} {step : Netlist → α → Netlist}
    (h : ∀ netlist item, (step netlist item).outline = netlist.outline) :
    ∀ (items : List α) (netlist : Netlist), (items.foldl step netlist).outline = netlist.outline := by
  intro items
  induction items with
  | nil => exact fun _ => rfl
  | cons item items ih => exact fun netlist => (ih _).trans (h netlist item)

theorem outline_bindGroup (netlist : Netlist) (group : List Nat) :
    (netlist.bindGroup wires scope placements group).outline = netlist.outline :=
  outline_foldl (fun netlist wireEnd => outline_bindEnd _ netlist wireEnd) _ (addNet wires scope netlist group)

theorem outline_bindWires (netlist : Netlist) :
    (netlist.bindWires wires scope placements).outline = netlist.outline :=
  outline_foldl outline_bindGroup _ netlist

theorem refs_wireAttempts (netlist : Netlist) :
    refs (wireAttempts wires scope placements netlist) =
      (wireEnds wires).flatMap fun endpoint =>
        (netlist.attachments placements endpoint).map (·.1) := by
  have hgroup : ∀ (state : Netlist) (group : List Nat), state.outline = netlist.outline →
      refs (groupAttempts wires scope placements state group) =
        (groupEnds (group.filterMap (wires[·]?))).flatMap fun wireEnd =>
          (netlist.attachments placements wireEnd.2).map (·.1) := by
    intro state group hsame
    refine refs_record (fun next : Netlist => next.outline = netlist.outline) _
      (fun next wireEnd h => (outline_bindEnd _ next wireEnd).trans h)
      (fun next wireEnd h => ?_) _ _ hsame
    rw [refs_endAttempts, attachments_congr h]
  rw [wireEnds, List.flatMap_assoc]
  simp only [List.flatMap_map]
  exact refs_record (fun next : Netlist => next.outline = netlist.outline) _
    (fun next group h => (outline_bindGroup next group).trans h) hgroup _ _ rfl

/-! ## Where the parts of a scope lie -/

/-- The pin of a boundary port that faces outside. -/
def External (netlist : Netlist) (ref : PortRef) : Prop :=
  netlist.position? ref.part Boundary.externalPin = some ref.port

theorem position?_congr {part : Nat} (h : next.names part = netlist.names part) (id : String) :
    next.position? part id = netlist.position? part id := by
  have hnames : ∀ netlist : Netlist, netlist.position? part id =
      (netlist.names part).bind (·.findIdx? (· = id)) := by
    intro netlist
    rw [position?, names]
    cases netlist.parts[part]? with
    | none => rfl
    | some found =>
      simp only [Option.bind_some, Option.map_some, Part.port?, List.findIdx?_map]
      rfl
  rw [hnames, hnames, h]

theorem external_congr (h : next.names ref.part = netlist.names ref.part) :
    External next ref ↔ External netlist ref := by
  rw [External, position?_congr h, External]

theorem position?_injective {part position : Nat} {id id' : String}
    (h : netlist.position? part id = some position)
    (h' : netlist.position? part id' = some position) : id = id' := by
  obtain ⟨found, hfound, hposition⟩ := Option.bind_eq_some_iff.mp h
  obtain ⟨found', hfound', hposition'⟩ := Option.bind_eq_some_iff.mp h'
  obtain rfl := Option.some.inj (hfound.symm.trans hfound')
  obtain ⟨hlt, hid, -⟩ := List.findIdx?_eq_some_iff_getElem.mp hposition
  obtain ⟨hlt', hid', -⟩ := List.findIdx?_eq_some_iff_getElem.mp hposition'
  exact (of_decide_eq_true hid).symm.trans (of_decide_eq_true hid')

/-- The later of two placed components, with all that it expands to, has the greater
parts. -/
def After (later earlier : String × Placed) : Prop :=
  earlier.2.part < later.2.part ∧ ∀ inner ∈ later.2.boundary, earlier.2.part < inner.2

/-- The parts of placed components are numbered from `base` on: what a component
expands to comes before its own part, and after the components placed earlier. -/
structure Sorted (base count : Nat) (placements : Placements) : Prop where
  pairwise : placements.Pairwise After
  range : ∀ entry ∈ placements, base ≤ entry.2.part ∧ entry.2.part < count
  inner : ∀ entry ∈ placements, ∀ inner ∈ entry.2.boundary, base ≤ inner.2 ∧ inner.2 < entry.2.part

namespace Sorted

variable {count : Nat} {entry entry' : String × Placed}

theorem mono {count' : Nat} (h : Sorted base count placements) (hle : count ≤ count') :
    Sorted base count' placements :=
  ⟨h.pairwise, fun entry hmem =>
    ⟨(h.range entry hmem).1, Nat.lt_of_lt_of_le (h.range entry hmem).2 hle⟩, h.inner⟩

theorem trichotomy (h : Sorted base count placements) (hentry : entry ∈ placements)
    (hentry' : entry' ∈ placements) : entry = entry' ∨ After entry entry' ∨ After entry' entry := by
  by_cases heq : entry = entry'
  · exact Or.inl heq
  · rcases Before.total hentry hentry' heq with hbefore | hbefore
    · exact Or.inr (Or.inl (List.pairwise_pair.mp (h.pairwise.sublist hbefore)))
    · exact Or.inr (Or.inr (List.pairwise_pair.mp (h.pairwise.sublist hbefore)))

theorem eq_of_part (h : Sorted base count placements) (hentry : entry ∈ placements)
    (hentry' : entry' ∈ placements) (hpart : entry.2.part = entry'.2.part) : entry = entry' := by
  rcases h.trichotomy hentry hentry' with heq | hafter | hafter
  · exact heq
  · exact absurd hafter.1 (by omega)
  · exact absurd hafter.1 (by omega)

theorem inner_ne (h : Sorted base count placements) (hentry : entry ∈ placements)
    (hentry' : entry' ∈ placements) {inner : String × Nat} (hinner : inner ∈ entry.2.boundary) :
    inner.2 ≠ entry'.2.part := by
  have hlt := (h.inner entry hentry inner hinner).2
  rcases h.trichotomy hentry hentry' with heq | hafter | hafter
  · rw [← heq]
    omega
  · have := hafter.2 inner hinner
    omega
  · have := hafter.1
    omega

theorem eq_of_inner (h : Sorted base count placements) (hentry : entry ∈ placements)
    (hentry' : entry' ∈ placements) {inner inner' : String × Nat}
    (hinner : inner ∈ entry.2.boundary) (hinner' : inner' ∈ entry'.2.boundary)
    (hpart : inner.2 = inner'.2) : entry = entry' := by
  have hlt := (h.inner entry hentry inner hinner).2
  have hlt' := (h.inner entry' hentry' inner' hinner').2
  rcases h.trichotomy hentry hentry' with heq | hafter | hafter
  · exact heq
  · have := hafter.2 inner hinner
    omega
  · have := hafter.2 inner' hinner'
    omega

end Sorted

/-! ## What an end attaches -/

/-- An end attaches the port that it names, and the external pin behind that port. -/
theorem cases_of_attachments
    (h : ref ∈ (netlist.attachments placements endpoint).map (·.1)) :
    ∃ placed, placements.lookup endpoint.component = some placed ∧
      (ref.part = placed.part ∧ netlist.position? placed.part endpoint.port = some ref.port ∨
        placed.boundary.lookup endpoint.port = some ref.part ∧ External netlist ref) := by
  obtain ⟨pair, hpair, rfl⟩ := List.mem_map.mp h
  unfold attachments at hpair
  split at hpair
  · cases hpair
  · next placed hlookup =>
    refine ⟨placed, hlookup, ?_⟩
    split at hpair
    · cases hpair
    · next position hposition =>
      unfold standing at hpair
      split at hpair
      · rw [List.mem_singleton.mp hpair]
        exact Or.inl ⟨rfl, hposition⟩
      · next inner hbehind =>
        rcases List.mem_pair.mp hpair with rfl | rfl
        · exact Or.inl ⟨rfl, hposition⟩
        · obtain ⟨part, hpart, hinner⟩ := Option.bind_eq_some_iff.mp hbehind
          obtain ⟨pin, hpin, rfl⟩ := Option.map_eq_some_iff.mp hinner
          exact Or.inr ⟨hpart, hpin⟩

theorem count_attachments_le (hne : ∀ placed, placements.lookup endpoint.component = some placed →
      ∀ part, placed.boundary.lookup endpoint.port = some part → part ≠ placed.part) :
    ((netlist.attachments placements endpoint).map (·.1)).count ref ≤ 1 := by
  unfold attachments
  split
  · exact Nat.zero_le _
  · next placed hlookup =>
    split
    · exact Nat.zero_le _
    · unfold standing
      split
      · exact List.count_le_length
      · next inner hbehind =>
        obtain ⟨part, hpart, hinner⟩ := Option.bind_eq_some_iff.mp hbehind
        obtain ⟨pin, -, rfl⟩ := Option.map_eq_some_iff.mp hinner
        refine List.nodup_iff_count_le_one.mp ?_ ref
        have hother := hne placed hlookup part hpart
        simp [Ne.symm hother]

theorem count_flatMap_le {α β : Type} [DecidableEq β] {f : α → List β} {b : β} :
    ∀ {list : List α}, list.Nodup → (∀ a ∈ list, (f a).count b ≤ 1) →
      (∀ a ∈ list, ∀ a' ∈ list, b ∈ f a → b ∈ f a' → a = a') → (list.flatMap f).count b ≤ 1 := by
  intro list
  induction list with
  | nil => exact fun _ _ _ => Nat.zero_le _
  | cons head rest ih =>
    intro hnodup hone hunique
    obtain ⟨hfresh, hrest⟩ := List.nodup_cons.mp hnodup
    rw [List.flatMap_cons, List.count_append]
    by_cases hmem : b ∈ f head
    · have hnone : b ∉ rest.flatMap f := by
        intro hlater
        obtain ⟨a, ha, hb⟩ := List.mem_flatMap.mp hlater
        exact hfresh (hunique head (List.mem_cons_self ..) a (List.mem_cons_of_mem _ ha) hmem hb ▸ ha)
      rw [List.count_eq_zero_of_not_mem hnone]
      exact hone head (List.mem_cons_self ..)
    · rw [List.count_eq_zero_of_not_mem hmem, Nat.zero_add]
      exact ih hrest (fun a ha => hone a (List.mem_cons_of_mem _ ha)) fun a ha a' ha' =>
        hunique a (List.mem_cons_of_mem _ ha) a' (List.mem_cons_of_mem _ ha')

/-! ## Placing components -/

/-- The components placed so far, and the record of what was attached inside them. -/
structure Staged (library : Library) (base : Nat) (netlist : Netlist) (placements : Placements)
    (log : List Attempt) : Prop where
  base_le : base ≤ netlist.parts.length
  sorted : Sorted base netlist.parts.length placements
  range : ∀ ref ∈ refs log, base ≤ ref.part ∧ ref.part < netlist.parts.length ∧
    ∀ entry ∈ placements, ref.part ≠ entry.2.part
  once : ∀ ref, library.Sealed ∨ ¬ External netlist ref → (refs log).count ref ≤ 1
  shows : library.Sealed → ∀ entry ∈ placements, ∀ id id' part,
    entry.2.boundary.lookup id = some part → entry.2.boundary.lookup id' = some part → id = id'
  hidden : library.Sealed → ∀ entry ∈ placements, ∀ inner ∈ entry.2.boundary, ∀ ref ∈ refs log,
    ref.part = inner.2 → ¬ External netlist ref

namespace Staged

theorem lookup (h : Staged library base netlist placements log) {placed : Placed}
    (hlookup : placements.lookup endpoint.component = some placed) {part : Nat}
    (hpart : placed.boundary.lookup endpoint.port = some part) : part ≠ placed.part :=
  h.sorted.inner_ne (mem_of_lookup hlookup) (mem_of_lookup hlookup) (mem_of_lookup hpart)

/-- Different ends attach different ports. -/
theorem eq_of_attached (h : Staged library base netlist placements log)
    (hsealed : library.Sealed ∨ ¬ External netlist ref)
    (hmem : ref ∈ (netlist.attachments placements endpoint).map (·.1))
    (hmem' : ref ∈ (netlist.attachments placements other).map (·.1)) : endpoint = other := by
  obtain ⟨placed, hlookup, hcases⟩ := cases_of_attachments hmem
  obtain ⟨placed', hlookup', hcases'⟩ := cases_of_attachments hmem'
  have hentry := mem_of_lookup hlookup
  have hentry' := mem_of_lookup hlookup'
  have hsame : ∀ {entry : String × Placed}, entry = (other.component, placed') →
      entry = (endpoint.component, placed) → endpoint.port = other.port → endpoint = other := by
    rintro entry rfl heq hport
    obtain ⟨component, port⟩ := endpoint
    obtain ⟨component', port'⟩ := other
    exact congrArg₂ Endpoint.mk (Prod.mk.inj heq).1.symm hport
  rcases hcases with ⟨hpart, hposition⟩ | ⟨hpart, hexternal⟩
  · rcases hcases' with ⟨hpart', hposition'⟩ | ⟨hpart', -⟩
    · have heq := h.sorted.eq_of_part hentry hentry' (hpart.symm.trans hpart')
      refine hsame heq rfl (position?_injective hposition ?_)
      rw [(Prod.mk.inj heq).2]
      exact hposition'
    · exact absurd hpart (h.sorted.inner_ne hentry' hentry (mem_of_lookup hpart'))
  · rcases hcases' with ⟨hpart', -⟩ | ⟨hpart', -⟩
    · exact absurd hpart' (h.sorted.inner_ne hentry hentry' (mem_of_lookup hpart))
    · have heq := h.sorted.eq_of_inner hentry hentry' (mem_of_lookup hpart) (mem_of_lookup hpart') rfl
      refine hsame heq rfl (h.shows (hsealed.resolve_right (not_not_intro hexternal)) _ hentry _ _ _
        hpart ?_)
      rw [(Prod.mk.inj heq).2]
      exact hpart'

/-- Binding the wires attaches each port once, and none that was attached inside. -/
theorem count_wires (h : Staged library base netlist placements log)
    (hsealed : library.Sealed ∨ ¬ External netlist ref) :
    (refs (log ++ wireAttempts wires scope placements netlist)).count ref ≤ 1 := by
  rw [refs_append, List.count_append, refs_wireAttempts]
  have hown := count_flatMap_le (b := ref) (nodup_wireEnds wires)
    (f := fun endpoint => (netlist.attachments placements endpoint).map (·.1))
    (fun endpoint _ => count_attachments_le fun placed hlookup part hpart => h.lookup hlookup hpart)
    fun endpoint _ other _ => h.eq_of_attached hsealed
  by_cases hmem : ref ∈ (wireEnds wires).flatMap fun endpoint =>
      (netlist.attachments placements endpoint).map (·.1)
  · have hnone : ref ∉ refs log := by
      intro hlog
      obtain ⟨endpoint, -, hend⟩ := List.mem_flatMap.mp hmem
      obtain ⟨placed, hlookup, ⟨hpart, -⟩ | ⟨hpart, hexternal⟩⟩ := cases_of_attachments hend
      · exact (h.range ref hlog).2.2 _ (mem_of_lookup hlookup) hpart
      · exact h.hidden (hsealed.resolve_right (not_not_intro hexternal)) _ (mem_of_lookup hlookup) _
          (mem_of_lookup hpart) ref hlog rfl hexternal
    rw [List.count_eq_zero_of_not_mem hnone]
    omega
  · rw [List.count_eq_zero_of_not_mem hmem]
    exact h.once ref hsealed

theorem nil (netlist : Netlist) : Staged library netlist.parts.length netlist [] [] :=
  ⟨Nat.le_refl _, ⟨.nil, by simp, by simp⟩, by simp [refs], by simp [refs], by simp, by simp⟩

end Staged

/-- What laying out a schematic has placed and attached. -/
structure Recorded (library : Library) (schematic : Schematic) (base : Nat)
    (state : Netlist × Placements) (log : List Attempt) : Prop where
  sorted : Sorted base state.1.parts.length state.2
  range : ∀ ref ∈ refs log, base ≤ ref.part ∧ ref.part < state.1.parts.length
  once : ∀ ref, library.Sealed ∨ ¬ External state.1 ref → (refs log).count ref ≤ 1
  hidden : schematic.Sealed → ∀ component ∈ schematic.components,
    component.definition = Boundary.definition → ∀ placed,
    state.2.lookup component.id = some placed → ∀ ref ∈ refs log, ref.part = placed.part →
    ¬ External state.1 ref

theorem mem_boundaryParts {inside : Schematic} {inner : Placements} {shown : String × Nat}
    (h : shown ∈ boundaryParts inside inner) : ∃ component ∈ inside.components, ∃ placed,
      component.definition = Boundary.definition ∧ inner.lookup component.id = some placed ∧
        shown = ((Boundary.outerDecl component.args component.id).id, placed.part) := by
  obtain ⟨component, hmem, hshown⟩ := List.mem_filterMap.mp (List.mem_reverse.mp h)
  obtain ⟨hcomponent, hdefinition⟩ := List.mem_filter.mp hmem
  obtain ⟨placed, hlookup, rfl⟩ := Option.map_eq_some_iff.mp hshown
  exact ⟨component, hcomponent, placed, by simpa using hdefinition, hlookup, rfl⟩

namespace Staged

/-- What a component expands to is laid out behind everything placed so far. -/
theorem expand {inside : Schematic} {inner : Placements}
    (h : Staged library base netlist placements log) (hgrows : Grows library netlist next)
    (hinside : Recorded library inside netlist.parts.length (next, inner) more) :
    Staged library base next placements (log ++ more) := by
  obtain ⟨hlength, hnames⟩ := names_grows hgrows
  have hbefore : ∀ ref ∈ refs log, (External next ref ↔ External netlist ref) := fun ref href =>
    external_congr (hnames _ (h.range ref href).2.1)
  refine ⟨Nat.le_trans h.base_le hlength, h.sorted.mono hlength, fun ref href => ?_,
    fun ref hsealed => ?_, h.shows, fun hsealed entry hentry inner' hinner ref href hpart => ?_⟩
  · rw [refs_append] at href
    rcases List.mem_append.mp href with href | href
    · obtain ⟨hle, hlt, hne⟩ := h.range ref href
      exact ⟨hle, Nat.lt_of_lt_of_le hlt hlength, hne⟩
    · obtain ⟨hle, hlt⟩ := hinside.range ref href
      refine ⟨Nat.le_trans h.base_le hle, hlt, fun entry hentry => ?_⟩
      have := (h.sorted.range entry hentry).2
      omega
  · rw [refs_append, List.count_append]
    by_cases hlog : ref ∈ refs log
    · have hnone : ref ∉ refs more := fun hmore => by
        have := (h.range ref hlog).2.1
        have := (hinside.range ref hmore).1
        omega
      rw [List.count_eq_zero_of_not_mem hnone]
      exact h.once ref (hsealed.imp_right fun hopen => mt (hbefore ref hlog).mpr hopen)
    · rw [List.count_eq_zero_of_not_mem hlog, Nat.zero_add]
      exact hinside.once ref hsealed
  · rw [refs_append] at href
    rcases List.mem_append.mp href with href | href
    · exact mt (hbefore ref href).mp (h.hidden hsealed entry hentry inner' hinner ref href hpart)
    · have := (h.sorted.inner entry hentry inner' hinner).2
      have := (h.sorted.range entry hentry).2
      have := (hinside.range ref href).1
      omega

/-- A component gets its part behind what it expands to. -/
theorem addPart {part : Part} {boundary : List (String × Nat)} {name : String}
    (h : Staged library base netlist placements log)
    (hinner : ∀ inner ∈ boundary, base ≤ inner.2 ∧ inner.2 < netlist.parts.length ∧
      ∀ entry ∈ placements, entry.2.part < inner.2)
    (hshows : library.Sealed → ∀ id id' part, boundary.lookup id = some part →
      boundary.lookup id' = some part → id = id')
    (hhidden : library.Sealed → ∀ inner ∈ boundary, ∀ ref ∈ refs log, ref.part = inner.2 →
      ¬ External netlist ref) :
    Staged library base (netlist.addPart part)
      ((name, ⟨netlist.parts.length, boundary⟩) :: placements) log := by
  have hlength : (netlist.addPart part).parts.length = netlist.parts.length + 1 :=
    List.length_append
  have hsame : ∀ ref ∈ refs log, (External (netlist.addPart part) ref ↔ External netlist ref) := by
    intro ref href
    refine external_congr ?_
    rw [names, Netlist.addPart, List.getElem?_append_left (h.range ref href).2.1, names]
  refine ⟨by rw [hlength]; exact Nat.le_succ_of_le h.base_le, ⟨?_, ?_, ?_⟩, fun ref href => ?_,
    fun ref hsealed => ?_, ?_, ?_⟩
  · exact List.pairwise_cons.mpr ⟨fun entry hentry => ⟨(h.sorted.range entry hentry).2,
      fun inner hmem => (hinner inner hmem).2.2 entry hentry⟩, h.sorted.pairwise⟩
  · intro entry hentry
    rw [hlength]
    rcases List.mem_cons.mp hentry with rfl | hentry
    · exact ⟨h.base_le, Nat.lt_succ_self _⟩
    · exact ⟨(h.sorted.range entry hentry).1, Nat.lt_succ_of_lt (h.sorted.range entry hentry).2⟩
  · intro entry hentry inner hmem
    rcases List.mem_cons.mp hentry with rfl | hentry
    · exact ⟨(hinner inner hmem).1, (hinner inner hmem).2.1⟩
    · exact h.sorted.inner entry hentry inner hmem
  · obtain ⟨hle, hlt, hne⟩ := h.range ref href
    refine ⟨hle, hlength ▸ Nat.lt_succ_of_lt hlt, fun entry hentry => ?_⟩
    rcases List.mem_cons.mp hentry with rfl | hentry
    · exact Nat.ne_of_lt hlt
    · exact hne entry hentry
  · by_cases hlog : ref ∈ refs log
    · exact h.once ref (hsealed.imp_right fun hopen => mt (hsame ref hlog).mpr hopen)
    · rw [List.count_eq_zero_of_not_mem hlog]
      exact Nat.zero_le _
  · intro hsealed entry hentry
    rcases List.mem_cons.mp hentry with rfl | hentry
    · exact hshows hsealed
    · exact h.shows hsealed entry hentry
  · intro hsealed entry hentry inner hmem ref href hpart
    rw [hsame ref href]
    rcases List.mem_cons.mp hentry with rfl | hentry
    · exact hhidden hsealed inner hmem ref href hpart
    · exact h.hidden hsealed entry hentry inner hmem ref href hpart

/-- An expanded component shows the boundary ports inside. -/
theorem addExpanded {inside : Schematic} {inner : Placements} {part : Part} {name : String}
    (h : Staged library base netlist placements log) (hgrows : Grows library netlist next)
    (hinside : Recorded library inside netlist.parts.length (next, inner) more)
    (hsealed : library.Sealed → inside.Sealed) :
    Staged library base (next.addPart part)
      ((name, ⟨next.parts.length, boundaryParts inside inner⟩) :: placements) (log ++ more) := by
  refine (h.expand hgrows hinside).addPart (fun shown hshown => ?_) (fun hall id id' part hid hid' => ?_)
    fun hall shown hshown ref href hpart => ?_
  · obtain ⟨component, -, placed, -, hlookup, rfl⟩ := mem_boundaryParts hshown
    obtain ⟨hle, hlt⟩ := hinside.sorted.range _ (mem_of_lookup hlookup)
    refine ⟨Nat.le_trans h.base_le hle, hlt, fun entry hentry => ?_⟩
    exact Nat.lt_of_lt_of_le (h.sorted.range entry hentry).2 hle
  · obtain ⟨first, hfirst, placed, hdefinition, hlookup, hshown⟩ :=
      mem_boundaryParts (mem_of_lookup hid)
    obtain ⟨second, hsecond, placed', hdefinition', hlookup', hshown'⟩ :=
      mem_boundaryParts (mem_of_lookup hid')
    obtain ⟨rfl, rfl⟩ := Prod.mk.inj hshown
    obtain ⟨rfl, hpart⟩ := Prod.mk.inj hshown'
    have hentry := hinside.sorted.eq_of_part (mem_of_lookup hlookup) (mem_of_lookup hlookup') hpart
    rw [(hsealed hall).distinct first hfirst second hsecond hdefinition hdefinition'
      (Prod.mk.inj hentry).1]
  · obtain ⟨component, hcomponent, placed, hdefinition, hlookup, rfl⟩ := mem_boundaryParts hshown
    rw [refs_append] at href
    rcases List.mem_append.mp href with href | href
    · have hlt := (h.range ref href).2.1
      have hle := (hinside.sorted.range _ (mem_of_lookup hlookup)).1
      have hle : netlist.parts.length ≤ ref.part := hpart ▸ hle
      exact absurd hlt (Nat.not_lt.mpr hle)
    · exact hinside.hidden (hsealed hall) component hcomponent hdefinition placed hlookup ref href hpart

theorem place {expand : Layout} {inner : Schematic → Nat → Netlist → List Attempt}
    (hgrows : ∀ schematic scope netlist, Grows library netlist (expand schematic scope netlist).1)
    (hrecords : ∀ schematic scope netlist, Recorded library schematic netlist.parts.length
      (expand schematic scope netlist) (inner schematic scope netlist))
    (h : Staged library base netlist placements log) (component : Component) :
    let state := Breadboard.place library expand scope (netlist, placements) component
    Staged library base state.1 state.2
      (log ++ placeAttempts library inner scope (netlist, placements) component) := by
  have hempty : ∀ {inside : Option Schematic}, library.inside? component = inside → inside = none →
      placeAttempts library inner scope (netlist, placements) component = [] := by
    rintro _ rfl hnone
    rw [placeAttempts, hnone]
  have hreport : ∀ {netlist : Netlist} {log : List Attempt} (diagnostic : Diagnostic),
      Staged library base netlist placements log →
      Staged library base (netlist.report diagnostic) placements log := fun _ h =>
    ⟨h.base_le, h.sorted, h.range, h.once, h.shows, h.hidden⟩
  have hscope : Grows library netlist (netlist.addScope scope component.id) := .single (.scope ..)
  refine place_cases (motive := fun state => Staged library base state.1 state.2
    (log ++ placeAttempts library inner scope (netlist, placements) component))
    (fun hnone => ?_) (fun entry error hentry _ => ?_) fun entry assembly hentry hassemble => ?_
  · rw [hempty rfl (by rw [Library.inside?, hnone]; rfl), List.append_nil]
    exact hreport _ h
  all_goals
    have hinside : library.inside? component = entry.inside := by
      rw [Library.inside?, hentry, Option.bind_some]
  · refine hreport _ ?_
    cases hcase : entry.inside with
    | none =>
      rw [hempty hinside hcase, List.append_nil]
      exact h
    | some inside =>
      rw [placeAttempts, hinside, hcase]
      exact h.expand (hscope.trans (hgrows _ _ _)) (hrecords inside _ (netlist.addScope scope component.id))
  · cases hcase : entry.inside with
    | none =>
      rw [hempty hinside hcase, List.append_nil]
      exact h.addPart (by simp [enter]) (by simp [enter]) (by simp [enter])
    | some inside =>
      rw [placeAttempts, hinside, hcase]
      exact h.addExpanded (hscope.trans (hgrows _ _ _))
        (hrecords inside _ (netlist.addScope scope component.id))
        fun hall => hall entry (List.mem_of_find?_eq_some hentry) inside hcase

end Staged

/-! ## Laying out -/

theorem staged_places {expand : Layout} {inner : Schematic → Nat → Netlist → List Attempt}
    (scope : Nat) (hgrows : ∀ schematic scope netlist, Grows library netlist (expand schematic scope netlist).1)
    (hrecords : ∀ schematic scope netlist, Recorded library schematic netlist.parts.length
      (expand schematic scope netlist) (inner schematic scope netlist)) :
    ∀ (components : List Component) (state : Netlist × Placements) (log : List Attempt),
      Staged library base state.1 state.2 log →
      let placed := components.foldl (place library expand scope) state
      Staged library base placed.1 placed.2 (log ++ record (place library expand scope)
        (placeAttempts library inner scope) state components) := by
  intro components
  induction components with
  | nil =>
    intro state log h
    rw [record, List.append_nil]
    exact h
  | cons component components ih =>
    intro state log h
    rw [record, ← List.append_assoc]
    exact ih _ _ (h.place hgrows hrecords component)

/-- Once the wires are bound, the external pins of a sealed schematic are still free. -/
theorem Staged.recorded {schematic : Schematic} (h : Staged library base netlist placements log) :
    Recorded library schematic base (netlist.bindWires schematic.wires scope placements, placements)
      (log ++ wireAttempts schematic.wires scope placements netlist) := by
  have houtline : (netlist.bindWires schematic.wires scope placements).outline = netlist.outline :=
    outline_bindWires netlist
  have hlength : (netlist.bindWires schematic.wires scope placements).parts.length =
      netlist.parts.length := by
    rw [← length_outline, houtline, length_outline]
  have hexternal : ∀ ref, External (netlist.bindWires schematic.wires scope placements) ref ↔
      External netlist ref := fun ref => external_congr (names_bindWires ..)
  refine ⟨by rw [hlength]; exact h.sorted, fun ref href => ?_, fun ref hsealed => ?_,
    fun hsealed component hcomponent hdefinition placed hlookup ref href hpart => ?_⟩
  · rw [hlength]
    rw [refs_append] at href
    rcases List.mem_append.mp href with href | href
    · exact ⟨(h.range ref href).1, (h.range ref href).2.1⟩
    · rw [refs_wireAttempts] at href
      obtain ⟨endpoint, -, hend⟩ := List.mem_flatMap.mp href
      obtain ⟨placed, hlookup, ⟨hpart, -⟩ | ⟨hpart, -⟩⟩ := cases_of_attachments hend
      · rw [hpart]
        exact h.sorted.range _ (mem_of_lookup hlookup)
      · obtain ⟨hle, hlt⟩ := h.sorted.inner _ (mem_of_lookup hlookup) _ (mem_of_lookup hpart)
        exact ⟨hle, Nat.lt_trans hlt (h.sorted.range _ (mem_of_lookup hlookup)).2⟩
  · rw [hexternal] at hsealed
    exact h.count_wires hsealed
  · rw [hexternal]
    have hentry := mem_of_lookup hlookup
    rw [refs_append] at href
    rcases List.mem_append.mp href with href | href
    · exact absurd hpart ((h.range ref href).2.2 _ hentry)
    · rw [refs_wireAttempts] at href
      obtain ⟨endpoint, hend, hattached⟩ := List.mem_flatMap.mp href
      obtain ⟨placed', hlookup', ⟨hpart', hposition⟩ | ⟨hpart', -⟩⟩ := cases_of_attachments hattached
      · intro hpin
        have hsame := h.sorted.eq_of_part hentry (mem_of_lookup hlookup')
          (hpart.symm.trans hpart')
        obtain ⟨wire, hwire, hend⟩ := mem_wireEnds hend
        rw [External, hpart'] at hpin
        exact hsealed.hidden wire hwire endpoint hend (position?_injective hposition hpin) component
          hcomponent hdefinition (Prod.mk.inj hsame).1
      · exact absurd hpart (h.sorted.inner_ne (mem_of_lookup hlookup') hentry (mem_of_lookup hpart'))

theorem recorded_layout (library : Library) : ∀ (depth : Nat) (schematic : Schematic) (scope : Nat)
    (netlist : Netlist), Recorded library schematic netlist.parts.length
      (layout library depth schematic scope netlist)
      (layoutAttempts library depth schematic scope netlist) := by
  intro depth
  induction depth with
  | zero =>
    exact fun schematic scope netlist => ⟨⟨.nil, by simp [layout], by simp [layout]⟩,
      by simp [layoutAttempts, refs], by simp [layoutAttempts, refs], by simp [layoutAttempts, refs]⟩
  | succ depth ih =>
    intro schematic scope netlist
    have hplaced := staged_places scope (grows_layout library depth) ih
      schematic.components (netlist, []) [] (.nil netlist)
    exact hplaced.recorded

theorem count_attempts_le (library : Library) (schematic : Schematic)
    (hsealed : library.Sealed ∨ ¬ External (flatten library schematic) ref) :
    (refs (attempts library schematic)).count ref ≤ 1 :=
  (recorded_layout library (library.entries.length + 1) schematic 0
    { scopes := [⟨none, ""⟩] }).once ref hsealed

theorem Library.Sealed.paired_flatten (h : library.Sealed) (schematic : Schematic) (ref : PortRef) :
    (flatten library schematic).Paired ref :=
  (replay_flatten library schematic).paired (count_attempts_le library schematic (Or.inl h))

/-- What nets list faces the right way, the net that a port knows lists it, and a listed
port knows some net. Each port but the external pin of a boundary port pairs up with its
net, and that one does as well if nothing inside reaches for it. -/
theorem flatten_pairs_ports (library : Library) (schematic : Schematic) :
    let netlist := flatten library schematic
    Mutual netlist ∧
    (∀ ref port, netlist.port? ref = some port → port.id ≠ Boundary.externalPin →
      netlist.Paired ref) ∧
    (library.Sealed → ∀ ref, netlist.Paired ref) := by
  intro netlist
  have hreplay := replay_flatten library schematic
  refine ⟨hreplay.mutual mutual_empty, fun ref port hport hid => ?_, fun hsealed ref => ?_⟩
  · refine hreplay.paired (count_attempts_le library schematic (Or.inr fun hexternal => ?_))
    obtain ⟨part, hpart, hplace⟩ := part_of_port hport
    obtain ⟨found, hfound, hposition⟩ := Option.bind_eq_some_iff.mp hexternal
    obtain rfl := Option.some.inj (hpart.symm.trans hfound)
    obtain ⟨hlt, hname, -⟩ := List.findIdx?_eq_some_iff_getElem.mp hposition
    obtain ⟨_, rfl⟩ := List.getElem?_eq_some_iff.mp hplace
    exact hid (of_decide_eq_true hname)
  · exact hsealed.paired_flatten schematic ref

/-- A constant inside reaches for the external pin of the boundary port beside it. -/
def reachingOut : Schematic where
  components := [⟨"k", Builtin.constant.id, .null⟩, ⟨"p", Builtin.boundary.id, .null⟩]
  wires := [⟨"x", [⟨"k", "out"⟩, ⟨"p", Boundary.externalPin⟩]⟩]

/-- Another constant drives that boundary port from the outside. -/
def drivenTwice : Schematic where
  components := [⟨"c", Builtin.constant.id, .null⟩, ⟨"m", "m", .null⟩]
  wires := [⟨"y", [⟨"c", "out"⟩, ⟨"m", "p"⟩]⟩]

/-- The net inside and the one outside both list the external pin, which knows the
latter. -/
theorem flatten_shares_pin :
    ¬ ∀ library schematic ref, (flatten library schematic).Paired ref := by
  intro h
  have hport : (flatten (Library.builtin.addSchematic "m" reachingOut) drivenTwice).port? ⟨2, 1⟩ =
      some (((flatten (Library.builtin.addSchematic "m" reachingOut) drivenTwice).port? ⟨2, 1⟩).getD
        default) := rfl
  have hnet : (flatten (Library.builtin.addSchematic "m" reachingOut) drivenTwice).nets[0]? =
      some ((flatten (Library.builtin.addSchematic "m" reachingOut) drivenTwice).nets.getD 0
        default) := rfl
  have hknows := ((h (Library.builtin.addSchematic "m" reachingOut) drivenTwice ⟨2, 1⟩).net_iff _ 0
    hport).mpr ⟨_, hnet, by decide +kernel⟩
  revert hknows
  decide +kernel

end Breadboard
