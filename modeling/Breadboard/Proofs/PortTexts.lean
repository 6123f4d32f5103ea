import Breadboard.Proofs.Connections
import Breadboard.Proofs.Expanding
import Breadboard.Proofs.Storage

/-!
# Texts that name ports

The text `component.port` is read in two places. An end of a wire ends the component at
the first point (`Endpoint.ofText`), and reading a value from outside ends it at the last
one (`Simulation.peekPort`). Both cut a text with one point alike, and no other one
(`splitLast_eq_some_iff_count`). The components of the top level are found both ways, as no
other part has a path without separators (`Schematic.partAt?_top`). So a text that attaches a
port reads the same port if it has one point; without points it reads nothing, and with
several it reads a port of another component, if any (`reads_attached_iff`).
-/

namespace Breadboard

open Netlist

/-! ## Cutting at the first and at the last separator -/

section

variable {separator : Char} {text before after : List Char}

theorem splitFirst_eq_none_iff : splitFirst separator text = none ↔ separator ∉ text := by
  induction text with
  | nil => simp [splitFirst]
  | cons c rest ih =>
    rw [splitFirst]
    split
    · next h => simp [h]
    · next h => simp [ih, Ne.symm h]

/-- Both cuts are the same if the separator occurs once. -/
theorem splitLast_eq_some_iff_count (h : splitFirst separator text = some (before, after)) :
    splitLast separator text = some (before, after) ↔ text.count separator = 1 := by
  obtain ⟨rfl, hbefore⟩ := splitFirst_eq_some h
  rw [splitLast_eq_some_iff, List.count_append, List.count_cons_self,
    List.count_eq_zero.mpr hbefore, Nat.zero_add, Nat.add_eq_right, List.count_eq_zero]
  exact and_iff_right rfl

end

/-! ## The components at the top -/

variable {library : Library} {schematic : Schematic} {listing : Listing} {id : String}
  {placed : Placed} {endpoint : Endpoint} {ref read : PortRef} {text : String}
  {simulation : Simulation} {index : Nat}

/-- Only at the top have components paths without separators. -/
theorem Listing.of_path_eq (hpath : listing.path = ⟨id⟩) (hid : Path.separator ∉ id.toList) :
    listing.names = [] ∧ listing.component.id = id := by
  rw [Listing.path] at hpath
  cases hnames : listing.names using List.reverseRecOn with
  | nil =>
    rw [hnames] at hpath
    exact ⟨rfl, congrArg Path.text hpath⟩
  | append_singleton names name =>
    rw [hnames, Path.ofNames_snoc] at hpath
    have hlist := congrArg (·.text.toList) hpath
    dsimp only at hlist
    rw [Path.toList_within] at hlist
    exact absurd (hlist ▸ List.mem_append_right _ (List.mem_cons_self ..)) hid

namespace Schematic

variable (hnodup : (schematic.components.map (·.id)).Nodup)

include hnodup

/-- Parts at the top have different ids. -/
theorem pairwise_roster : (schematic.roster library).Pairwise fun first second =>
    first.names = [] → second.names = [] → first.component.id ≠ second.component.id := by
  refine ((roster_perm ..).pairwise_iff fun {first second} h hsecond hfirst =>
    (h hfirst hsecond).symm).mpr ?_
  have hinner : ∀ listing ∈ (schematic.components.flatMap (childSites library
      library.entries.length [])).flatMap (Site.listings library), listing.names ≠ [] := by
    intro listing hlisting
    obtain ⟨site, hsite, hlisting⟩ := List.mem_flatMap.mp hlisting
    obtain ⟨component, -, hsite⟩ := List.mem_flatMap.mp hsite
    unfold childSites at hsite
    split at hsite
    · obtain ⟨rest, hnames⟩ := names_of_mem_sites hsite
      rw [(mem_listings.mp hlisting).1, hnames]
      simp
    · cases hsite
  rw [sites_succ, List.flatMap_cons, List.pairwise_append]
  refine ⟨?_, ?_, fun first _ second hsecond _ hnames => absurd hnames (hinner second hsecond)⟩
  · have hids := hnodup.sublist (sublist_ids library [] schematic.components)
    exact (List.pairwise_map.mp hids).imp fun hne _ _ => hne
  · exact List.pairwise_of_forall_mem_list fun first hfirst _ _ hnames =>
      absurd hnames (hinner first hfirst)

/-- A component at the top is found under its id. -/
theorem partAt?_top
    (hfree : ∀ component ∈ schematic.components, Path.separator ∉ component.id.toList)
    (hlookup : (library.placed schematic.components).2.lookup id = some placed) :
    (flatten library schematic).partPath placed.part = ⟨id⟩ ∧
      (flatten library schematic).partAt? ⟨id⟩ = some placed.part := by
  obtain ⟨component, hmem, rfl, assembly, -, hpart⟩ :=
    made_layout library (library.entries.length + 1) schematic 0 .blank _ (mem_of_lookup hlookup)
  have houtline : (flatten library schematic).outline[placed.part]? =
      some (assembly.toPart component 0) := hpart
  have hlt := (List.getElem?_eq_some_iff.mp houtline).1
  rw [length_outline] at hlt
  obtain ⟨-, hid, hscope⟩ := madeOf_of_outline (List.getElem?_eq_getElem hlt) houtline
  have hpath : (flatten library schematic).partPath placed.part = ⟨component.id⟩ := by
    obtain ⟨rest, hscopes, -⟩ := rooted_flatten library schematic
    rw [partPath, List.getD_eq_getElem?_getD, List.getElem?_eq_getElem hlt, Option.getD_some,
      localPath_eq, hid, hscope, scopePath, hscopes]
    rfl
  refine ⟨hpath, ?_⟩
  obtain ⟨found, hfound⟩ := exists_latest? (mem_partEntries.mpr ⟨hlt, hpath⟩)
  obtain ⟨hlt', hpath'⟩ := partPath_of_partAt? hfound
  -- what is found has the same id, and is at the top as well
  have hread : ∀ {index : Nat} (hindex : index < (schematic.roster library).length),
      (flatten library schematic).partPath index = ⟨component.id⟩ →
      (schematic.roster library)[index].names = [] ∧
        (schematic.roster library)[index].component.id = component.id :=
    fun hindex hindexed => Listing.of_path_eq
      ((Listing.at_of_roster (List.getElem?_eq_getElem hindex)).path.symm.trans hindexed)
      (hfree component hmem)
  rw [← length_roster] at hlt hlt'
  obtain ⟨hnames, hsame⟩ := hread hlt hpath
  obtain ⟨hnames', hsame'⟩ := hread hlt' hpath'
  have hroster : (schematic.roster library).Pairwise _ := pairwise_roster hnodup
  have hapart := List.pairwise_iff_getElem.mp hroster
  rcases Nat.lt_trichotomy found placed.part with hbefore | rfl | hafter
  · exact absurd (hsame'.trans hsame.symm) (hapart _ _ hlt' hlt hbefore hnames' hnames)
  · exact hfound
  · exact absurd (hsame.trans hsame'.symm) (hapart _ _ hlt hlt' hafter hnames hnames')

end Schematic

/-! ## What attaches a port -/

/-- The port that an end of a wire at the top attaches. -/
def Schematic.attached? (library : Library) (schematic : Schematic) (endpoint : Endpoint) :
    Option PortRef :=
  ((library.placed schematic.components).2.lookup endpoint.component).bind fun placed =>
    ((library.placed schematic.components).1.position? placed.part endpoint.port).map
      (⟨placed.part, ·⟩)

theorem mem_wireEnds_of_mem {wires : List Wire} {wire : Wire} (hwire : wire ∈ wires)
    (hend : endpoint ∈ wire.endpoints) : endpoint ∈ wireEnds wires := by
  obtain ⟨position, hposition⟩ := List.mem_iff_getElem?.mp hwire
  obtain ⟨group, hgroup, hmem⟩ := (connections_wireGroups wires).exists_mem
    (List.getElem?_eq_some_iff.mp hposition).1
  obtain ⟨wireEnd, hwireEnd, rfl⟩ := exists_groupEnds
    (List.mem_filterMap.mpr ⟨position, hmem, hposition⟩) hend
  exact List.mem_flatMap.mpr ⟨group, hgroup, List.mem_map_of_mem hwireEnd⟩

/-- Flattening attempts to attach it. -/
theorem Schematic.mem_refs_of_attached? {wire : Wire} (hwire : wire ∈ schematic.wires)
    (hend : endpoint ∈ wire.endpoints) (h : schematic.attached? library endpoint = some ref) :
    ref ∈ refs (attempts library schematic) := by
  obtain ⟨placed, hlookup, h⟩ := Option.bind_eq_some_iff.mp h
  obtain ⟨port, hport, rfl⟩ := Option.map_eq_some_iff.mp h
  obtain ⟨before, hbefore⟩ : ∃ before, attempts library schematic =
      before ++ wireAttempts schematic.wires 0 (library.placed schematic.components).2
        (library.placed schematic.components).1 := ⟨_, rfl⟩
  rw [hbefore, refs_append, refs_wireAttempts]
  refine List.mem_append_right _
    (List.mem_flatMap.mpr ⟨endpoint, mem_wireEnds_of_mem hwire hend, ?_⟩)
  rw [attachments, hlookup]
  dsimp only
  rw [hport]
  dsimp only
  -- the port itself comes first, whatever stands behind it
  unfold standing
  split <;> exact List.mem_cons_self ..

/-! ## Reading a text -/

namespace Simulation

/-- The port that a text is read as. -/
def portAt? (simulation : Simulation) (text : String) : Option PortRef :=
  (splitLast '.' text.toList).bind fun (component, port) =>
    (simulation.netlist.partAt? ⟨String.ofList component⟩).bind fun index =>
      (simulation.netlist.position? index (String.ofList port)).map (⟨index, ·⟩)

/-- The text is read as this port, and answered with its value. -/
def Reads (simulation : Simulation) (text : String) (ref : PortRef) : Prop :=
  simulation.portAt? text = some ref ∧
    simulation.peekPort text = .ok ((simulation.state.part ref.part).pin ref.port).value

theorem pinState?_eq (simulation : Simulation) (index : Nat) (port : String) :
    simulation.pinState? index port = (simulation.netlist.position? index port).map
      (simulation.state.part index).pin := by
  unfold pinState? position?
  cases simulation.netlist.parts[index]? with
  | none => rfl
  | some part => cases hport : part.port? port <;> simp [hport]

theorem toOption_peekPort (simulation : Simulation) (text : String) :
    (simulation.peekPort text).toOption = (simulation.portAt? text).map fun ref =>
      ((simulation.state.part ref.part).pin ref.port).value := by
  unfold peekPort portAt?
  cases splitLast '.' text.toList with
  | none => rfl
  | some halves =>
    obtain ⟨component, port⟩ := halves
    simp only [partAt, Option.bind_some]
    cases simulation.netlist.partAt? ⟨String.ofList component⟩ with
    | none => rfl
    | some index =>
      have hpin := simulation.pinState?_eq index (String.ofList port)
      cases hport : simulation.netlist.position? index (String.ofList port) with
      | none =>
        rw [hport] at hpin
        simp [Bind.bind, Except.bind, hpin, hport]
        rfl
      | some position =>
        rw [hport] at hpin
        simp [Bind.bind, Except.bind, hpin, hport]
        rfl

theorem reads_of_portAt? (h : simulation.portAt? text = some ref) : simulation.Reads text ref := by
  have hvalue := simulation.toOption_peekPort text
  rw [h] at hvalue
  refine ⟨h, ?_⟩
  cases hpeek : simulation.peekPort text with
  | error error =>
    rw [hpeek] at hvalue
    cases hvalue
  | ok value =>
    rw [hpeek] at hvalue
    exact congrArg Except.ok (Option.some.inj hvalue)

/-- A text is read as one port, or not at all. -/
theorem error_or_reads (simulation : Simulation) (text : String) :
    (∃ error, simulation.peekPort text = .error error) ∨
      ∃ ref, simulation.Reads text ref := by
  cases hport : simulation.portAt? text with
  | some ref => exact Or.inr ⟨ref, reads_of_portAt? hport⟩
  | none =>
    have hvalue := simulation.toOption_peekPort text
    rw [hport] at hvalue
    cases hpeek : simulation.peekPort text with
    | error error => exact Or.inl ⟨error, rfl⟩
    | ok value =>
      rw [hpeek] at hvalue
      cases hvalue

/-- A text with one point is read as an end of a wire is. -/
theorem portAt?_eq (simulation : Simulation) (h : text.toList.count '.' = 1) :
    simulation.portAt? text =
      (simulation.netlist.partAt? ⟨(Endpoint.ofText text).component⟩).bind fun index =>
        (simulation.netlist.position? index (Endpoint.ofText text).port).map (⟨index, ·⟩) := by
  rw [portAt?, Endpoint.ofText]
  cases hfirst : splitFirst '.' text.toList with
  | none =>
    rw [List.count_eq_zero.mpr (splitFirst_eq_none_iff.mp hfirst)] at h
    cases h
  | some halves => rw [(splitLast_eq_some_iff_count hfirst).mpr h, Option.bind_some]

/-- A text with several points is read as a port of a component of another id. -/
theorem ne_of_portAt? (h : text.toList.count '.' ≠ 1) (hport : simulation.portAt? text = some ref) :
    simulation.netlist.partPath ref.part ≠ ⟨(Endpoint.ofText text).component⟩ := by
  obtain ⟨⟨before, after⟩, hlast, hport⟩ := Option.bind_eq_some_iff.mp hport
  obtain ⟨index, hindex, hport⟩ := Option.bind_eq_some_iff.mp hport
  obtain ⟨position, -, rfl⟩ := Option.map_eq_some_iff.mp hport
  rw [(partPath_of_partAt? hindex).2, Endpoint.ofText]
  cases hfirst : splitFirst '.' text.toList with
  | none =>
    rw [splitLast_eq_none_iff.mpr (splitFirst_eq_none_iff.mp hfirst)] at hlast
    cases hlast
  | some halves =>
    intro hsame
    -- halves that agree in front of the point agree behind it
    have hbefore : before = halves.1 := String.ofList_injective (congrArg Path.text hsame)
    have htext := (splitLast_eq_some_iff.mp hlast).1
    rw [(splitFirst_eq_some hfirst).1, hbefore, List.append_cancel_left_eq,
      List.cons.injEq] at htext
    rw [hbefore, ← htext.2] at hlast
    exact h ((splitLast_eq_some_iff_count hfirst).mp hlast)

/-- A text attaches a port and is read as the same port if it has one point. Otherwise it is
read as no port, or as one of another component. -/
theorem reads_attached_iff {wire : Wire} (hoccurs : simulation.Occurs library schematic)
    (hnodup : (schematic.components.map (·.id)).Nodup)
    (hfree : ∀ component ∈ schematic.components, Path.separator ∉ component.id.toList)
    (hwire : wire ∈ schematic.wires) (hend : Endpoint.ofText text ∈ wire.endpoints)
    (hattached : schematic.attached? library (Endpoint.ofText text) = some ref) :
    ref ∈ refs (attempts library schematic) ∧
      (simulation.Reads text ref ↔ text.toList.count '.' = 1) ∧
      (text.toList.count '.' ≠ 1 → (∃ error, simulation.peekPort text = .error error) ∨
        ∃ other, simulation.Reads text other ∧ other.part ≠ ref.part) := by
  have hnetlist := hoccurs.stocked.netlist
  have hrefs := Schematic.mem_refs_of_attached? hwire hend hattached
  obtain ⟨placed, hlookup, hattach⟩ := Option.bind_eq_some_iff.mp hattached
  obtain ⟨port, hport, rfl⟩ := Option.map_eq_some_iff.mp hattach
  obtain ⟨hpath, hfound⟩ := Schematic.partAt?_top hnodup hfree hlookup
  have hposition : simulation.netlist.position? placed.part (Endpoint.ofText text).port =
      some port := by
    rw [hnetlist, position?_eq, ← hport, position?_eq]
    exact congrArg (fun outline : List Part => outline[placed.part]?.bind _) (outline_bindWires _)
  rw [← hnetlist] at hpath hfound
  have hother : text.toList.count '.' ≠ 1 → ∀ other, simulation.portAt? text = some other →
      other.part ≠ placed.part := fun hcount other hother hsame =>
    ne_of_portAt? hcount hother (hsame ▸ hpath)
  refine ⟨hrefs, ⟨fun hreads => ?_, fun hcount => ?_⟩, fun hcount => ?_⟩
  · by_contra hcount
    exact hother hcount _ hreads.1 rfl
  · refine reads_of_portAt? ?_
    rw [portAt?_eq simulation hcount, hfound, Option.bind_some, hposition, Option.map_some]
  · exact (simulation.error_or_reads text).imp_right fun ⟨other, hreads⟩ =>
      ⟨other, hreads, hother hcount other hreads.1⟩

/-- A schematic that shows one port, with a point in its id. -/
def dottedLibrary : Library :=
  Library.builtin.addSchematic "m"
    { components := [⟨"p", Builtin.boundary.id,
        .obj [("portId", .str "a.b"), ("width", .int 8)]⟩] }

/-- An input at that port, next to a component whose id has a point. -/
def dotted : Schematic where
  components :=
    [⟨"x", Builtin.input.id, .obj [("width", .int 8), ("value", .int 5)]⟩, ⟨"c", "m", .null⟩,
      ⟨"c.a", Builtin.adder.id, .obj [("width", .int 8)]⟩]
  wires := [.ofTexts "w" ["x.out", "c.a.b"]]

/-- The text attaches the port of `c`, which has the value of the input, and is read as the
port of the other component, which nothing is attached to. -/
theorem reads_attached_iff_dotted : ∃ simulation,
    start dottedLibrary dotted = .ok simulation ∧
      dotted.attached? dottedLibrary (.ofText "c.a.b") = some ⟨2, 0⟩ ∧
      ((simulation.state.part 2).pin 0).value = 5 ∧ simulation.peekPort "c.a.b" = .ok 0 ∧
      ¬ simulation.Reads "c.a.b" ⟨2, 0⟩ ∧
      ∃ other, simulation.Reads "c.a.b" other ∧ other.part ≠ 2 := by
  have hstart : start dottedLibrary dotted = .ok (ofNetlist (flatten dottedLibrary dotted)) :=
    start_eq (by decide +kernel)
  have hattached : dotted.attached? dottedLibrary (.ofText "c.a.b") = some ⟨2, 0⟩ := by
    decide +kernel
  have hwire : Wire.ofTexts "w" ["x.out", "c.a.b"] ∈ dotted.wires := by decide +kernel
  obtain ⟨-, hreads, hother⟩ := reads_attached_iff (.start hstart) (by decide +kernel)
    (by decide +kernel) hwire (by decide +kernel) hattached
  refine ⟨_, hstart, hattached, by decide +kernel, by decide +kernel,
    fun h => absurd (hreads.mp h) (by decide +kernel), ?_⟩
  refine (hother (by decide +kernel)).resolve_left fun ⟨error, herror⟩ => ?_
  have hvalue : (ofNetlist (flatten dottedLibrary dotted)).peekPort "c.a.b" = .ok 0 := by
    decide +kernel
  cases herror.symm.trans hvalue

end Simulation

end Breadboard
