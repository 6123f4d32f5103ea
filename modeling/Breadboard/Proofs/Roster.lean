import Breadboard.Proofs.Directory
import Breadboard.Proofs.Sealed

/-!
# What flattening places

Flattening goes on after a component that cannot be placed and after an end of a wire
that cannot be attached. So whatever it reports, the parts of a flat circuit are the
components of all sites that can be built (`roster_perm`), each under its path
(`stands_flatten`): one for each, as ids that differ and are written without separators
make the paths differ (`Schematic.Tidy.nodup_paths`). A path therefore finds the part
of the component that it is the path of, and nothing else (`Schematic.Tidy.partAt?_eq`).
-/

namespace Breadboard

/-! ## The components that become parts -/

/-- What a component is built as; none if its definition is not known or turns its
arguments down. -/
def Library.assembly? (library : Library) (component : Component) : Option Assembly :=
  (library.get? component.definition).bind fun entry =>
    (entry.definition.assemble component.args).toOption

/-- A component that becomes a part, with the ids of the components around it. -/
structure Listing where
  names : List String
  component : Component
  assembly : Assembly

namespace Listing

def path (listing : Listing) : Path :=
  Path.within (Path.ofNames listing.names) listing.component.id

/-- The part stands for the component, in a scope of the right path. -/
def Stands (scopes : List Scope) (listing : Listing) (part : Part) : Prop :=
  ∃ scope < scopes.length, scopePath scopes scope = Path.ofNames listing.names ∧
    part = listing.assembly.toPart listing.component scope

theorem Stands.append {scopes : List Scope} {listing : Listing} {part : Part}
    (h : listing.Stands scopes part) (more : List Scope) :
    listing.Stands (scopes ++ more) part := by
  obtain ⟨scope, hlt, hpath, rfl⟩ := h
  refine ⟨scope, ?_, ?_, rfl⟩
  · rw [List.length_append]
    exact Nat.lt_add_right _ hlt
  · rw [scopePath_append _ _ hlt, hpath]

end Listing

/-- What a component itself becomes. -/
def ownListing (library : Library) (names : List String) (component : Component) : List Listing :=
  ((library.assembly? component).map (Listing.mk names component)).toList

/-- Everything that becomes a part, in the order of the parts: what is inside a component
comes before the component. -/
def roster (library : Library) : (depth : Nat) → List String → Schematic → List Listing
  | 0, _, _ => []
  | depth + 1, names, schematic => schematic.components.flatMap fun component =>
      (match library.inside? component with
        | some inside => roster library depth (names ++ [component.id]) inside
        | none => []) ++ ownListing library names component

def childRoster (library : Library) (depth : Nat) (names : List String) (component : Component) :
    List Listing :=
  match library.inside? component with
  | some inside => roster library depth (names ++ [component.id]) inside
  | none => []

def Schematic.roster (library : Library) (schematic : Schematic) : List Listing :=
  Breadboard.roster library (library.entries.length + 1) [] schematic

/-- The components of a site that become parts. -/
def Site.listings (library : Library) (site : Site) : List Listing :=
  site.schematic.components.flatMap (ownListing library site.names)

variable {library : Library} {schematic : Schematic} {listing other : Listing}
  {component : Component} {site : Site} {path : Path} {index : Nat}

theorem roster_succ (depth : Nat) (names : List String) (schematic : Schematic) :
    roster library (depth + 1) names schematic = schematic.components.flatMap fun component =>
      childRoster library depth names component ++ ownListing library names component := rfl

theorem mem_ownListing {names : List String} : listing ∈ ownListing library names component ↔
    listing.names = names ∧ listing.component = component ∧
      library.assembly? component = some listing.assembly := by
  obtain ⟨_, _, assembly⟩ := listing
  rw [ownListing, Option.mem_toList, Option.map_eq_some_iff]
  constructor
  · rintro ⟨found, hfound, heq⟩
    obtain ⟨rfl, rfl, rfl⟩ := Listing.mk.inj heq
    exact ⟨rfl, rfl, hfound⟩
  · rintro ⟨rfl, rfl, hfound⟩
    exact ⟨assembly, hfound, rfl⟩

/-- The parts are the components of the sites, in another order. -/
theorem roster_perm : ∀ (depth : Nat) (names : List String) (schematic : Schematic),
    (roster library depth names schematic).Perm
      ((sites library depth names schematic).flatMap (Site.listings library)) := by
  intro depth
  induction depth with
  | zero => exact fun _ _ => .refl _
  | succ depth ih =>
    intro names schematic
    have hchild : ∀ component, (childRoster library depth names component).Perm
        ((childSites library depth names component).flatMap (Site.listings library)) := by
      intro component
      unfold childRoster childSites
      cases library.inside? component with
      | none => exact .refl _
      | some inside => exact ih _ inside
    rw [roster_succ, sites_succ, List.flatMap_cons, List.flatMap_assoc]
    refine (List.flatMap_append_perm ..).symm.trans (List.perm_append_comm.trans ?_)
    exact (List.Perm.refl _).append (List.Perm.flatMap_left _ fun component _ => hchild component)

theorem mem_listings : listing ∈ site.listings library ↔ listing.names = site.names ∧
    listing.component ∈ site.schematic.components ∧
      library.assembly? listing.component = some listing.assembly := by
  rw [Site.listings, List.mem_flatMap]
  constructor
  · rintro ⟨component, hmem, hown⟩
    obtain ⟨hnames, rfl, hassembly⟩ := mem_ownListing.mp hown
    exact ⟨hnames, hmem, hassembly⟩
  · rintro ⟨hnames, hmem, hassembly⟩
    exact ⟨_, hmem, mem_ownListing.mpr ⟨hnames, rfl, hassembly⟩⟩

theorem mem_roster : listing ∈ schematic.roster library ↔ ∃ site ∈ schematic.sites library,
    listing.names = site.names ∧ listing.component ∈ site.schematic.components ∧
      library.assembly? listing.component = some listing.assembly := by
  rw [Schematic.roster, (roster_perm ..).mem_iff, List.mem_flatMap]
  exact exists_congr fun site => and_congr_right fun _ => mem_listings

theorem sublist_ids (library : Library) (names : List String) (components : List Component) :
    ((components.flatMap (ownListing library names)).map (·.component.id)).Sublist
      (components.map (·.id)) := by
  induction components with
  | nil => exact .slnil
  | cons component components ih =>
    rw [List.flatMap_cons, List.map_append, List.map_cons, ownListing]
    cases library.assembly? component with
    | none => exact ih.cons _
    | some assembly => exact ih.cons_cons _

/-- Only built-in components store something. -/
theorem Library.builtin_of_stores {assembly : Assembly}
    (h : library.assembly? component = some assembly) (hstores : assembly.device.stores = true) :
    ∃ builtin : Builtin, assembly = builtin.assemble component.args := by
  obtain ⟨entry, -, hassemble⟩ := Option.bind_eq_some_iff.mp h
  unfold Definition.assemble at hassemble
  split at hassemble
  · next builtin _ => exact ⟨builtin, (Option.some.inj hassemble).symm⟩
  · next ports _ =>
    cases hbuilder : (Builder.start entry.definition.id component.args ports).addDefault with
    | error error =>
      rw [hbuilder] at hassemble
      cases hassemble
    | ok builder =>
      rw [hbuilder] at hassemble
      cases hassemble
      cases hstores
  · next script _ =>
    unfold Script.assemble at hassemble
    dsimp only at hassemble
    generalize Script.addPhases _ script.phases = built at hassemble
    cases built with
    | error error => cases hassemble
    | ok built =>
      cases hassemble
      cases hstores

/-! ## Laying out -/

namespace Netlist

/-- What was added to a netlist are the parts of a list. -/
structure Fills (netlist next : Netlist) (listings : List Listing) : Prop where
  scopes : netlist.scopes <+: next.scopes
  parts : ∃ parts, next.outline = netlist.outline ++ parts ∧
    List.Forall₂ (Listing.Stands next.scopes) listings parts

variable {netlist next last : Netlist} {listings more : List Listing} {scope : Nat}
  {names : List String}

theorem Fills.of_outline (hscopes : netlist.scopes <+: next.scopes)
    (houtline : next.outline = netlist.outline) : Fills netlist next [] :=
  ⟨hscopes, [], by rw [houtline, List.append_nil], .nil⟩

theorem Fills.refl (netlist : Netlist) : Fills netlist netlist [] :=
  .of_outline List.prefix_rfl rfl

theorem Fills.trans (h : Fills netlist next listings) (h' : Fills next last more) :
    Fills netlist last (listings ++ more) := by
  obtain ⟨hscopes, parts, houtline, hstands⟩ := h
  obtain ⟨hscopes', parts', houtline', hstands'⟩ := h'
  refine ⟨hscopes.trans hscopes', parts ++ parts', ?_, ?_⟩
  · rw [houtline', houtline, List.append_assoc]
  · obtain ⟨rest, hrest⟩ := hscopes'
    exact List.rel_append (hstands.imp fun _ _ hone => hrest ▸ hone.append rest) hstands'

theorem Fills.keeps (h : Fills netlist next listings) (hscope : scope < netlist.scopes.length)
    (hpath : scopePath netlist.scopes scope = Path.ofNames names) :
    scope < next.scopes.length ∧ scopePath next.scopes scope = Path.ofNames names := by
  obtain ⟨rest, hrest⟩ := h.scopes
  refine ⟨Nat.lt_of_lt_of_le hscope h.scopes.length_le, ?_⟩
  rw [← hrest, scopePath_append _ _ hscope, hpath]

theorem fills_report (netlist : Netlist) (diagnostic : Diagnostic) :
    Fills netlist (netlist.report diagnostic) [] :=
  .of_outline List.prefix_rfl rfl

theorem fills_addPart (hscope : scope < netlist.scopes.length)
    (hpath : scopePath netlist.scopes scope = Path.ofNames names) (assembly : Assembly) :
    Fills netlist (netlist.addPart (assembly.toPart component scope))
      [⟨names, component, assembly⟩] := by
  refine ⟨List.prefix_rfl, [assembly.toPart component scope], ?_,
    .cons ⟨scope, hscope, hpath, rfl⟩ .nil⟩
  rw [Grown.outline_addPart, Stage.unbound_toPart]

theorem fills_bindWires (wires : List Wire) (placements : Placements)
    (hscope : scope < netlist.scopes.length) :
    Fills netlist (netlist.bindWires wires scope placements) [] :=
  have hreplay : Replay Library.empty netlist _ (netlist.bindWires wires scope placements) :=
    replay_bindWires wires placements hscope
  .of_outline hreplay.kept.scopes (outline_bindWires netlist)

/-- Laying out a schematic adds its roster. -/
def Filling (library : Library) (depth : Nat) : Prop :=
  ∀ (schematic : Schematic) (names : List String) (scope : Nat) (netlist : Netlist),
    scope < netlist.scopes.length → scopePath netlist.scopes scope = Path.ofNames names →
    Fills netlist (layout library depth schematic scope netlist).1
      (roster library depth names schematic)

theorem Filling.enter {depth : Nat} (h : Filling library depth)
    (hscope : scope < netlist.scopes.length)
    (hpath : scopePath netlist.scopes scope = Path.ofNames names) (component : Component) :
    Fills netlist (Netlist.enter (layout library depth) scope netlist component
      (library.inside? component)).1 (childRoster library depth names component) := by
  unfold childRoster
  cases library.inside? component with
  | none => exact .refl netlist
  | some inside =>
    have hentered : scopePath (netlist.addScope scope component.id).scopes netlist.scopes.length =
        Path.ofNames (names ++ [component.id]) := by
      rw [scopePath_addScope component.id hscope, localPath_eq, hpath, Path.ofNames_snoc]
    have hopened : Fills netlist (netlist.addScope scope component.id) [] :=
      .of_outline (List.prefix_append ..) rfl
    exact hopened.trans (h inside _ _ _ (by simp [addScope]) hentered)

theorem Filling.place {depth : Nat} (h : Filling library depth)
    (hscope : scope < netlist.scopes.length)
    (hpath : scopePath netlist.scopes scope = Path.ofNames names) (placements : Placements)
    (component : Component) :
    Fills netlist (Breadboard.place library (layout library depth) scope (netlist, placements)
      component).1
      (childRoster library depth names component ++ ownListing library names component) := by
  have hinside := h.enter hscope hpath component
  refine place_cases (motive := fun state => Fills netlist state.1 _) (fun hnone => ?_)
    (fun entry error hentry hassemble => ?_) fun entry assembly hentry hassemble => ?_
  · have hplain : library.inside? component = none := by rw [Library.inside?, hnone]; rfl
    have hunbuilt : library.assembly? component = none := by rw [Library.assembly?, hnone]; rfl
    rw [childRoster, hplain, ownListing, hunbuilt]
    exact fills_report ..
  · have hunbuilt : library.assembly? component = none := by
      rw [Library.assembly?, hentry, Option.bind_some, hassemble]
      rfl
    rw [inside?_eq hentry] at hinside
    rw [ownListing, hunbuilt]
    exact hinside.trans (fills_report ..)
  · have hbuilt : library.assembly? component = some assembly := by
      rw [Library.assembly?, hentry, Option.bind_some, hassemble]
      rfl
    rw [inside?_eq hentry] at hinside
    obtain ⟨hscope', hpath'⟩ := hinside.keeps hscope hpath
    rw [ownListing, hbuilt]
    exact hinside.trans (fills_addPart hscope' hpath' assembly)

theorem Filling.places {depth : Nat} (h : Filling library depth) (components : List Component) :
    ∀ state : Netlist × Placements, scope < state.1.scopes.length →
      scopePath state.1.scopes scope = Path.ofNames names →
      Fills state.1
        (components.foldl (Breadboard.place library (layout library depth) scope) state).1
        (components.flatMap fun component =>
          childRoster library depth names component ++ ownListing library names component) := by
  induction components with
  | nil => exact fun _ _ _ => .refl _
  | cons component components ih =>
    intro state hscope hpath
    have hfirst := h.place hscope hpath state.2 component
    obtain ⟨hscope', hpath'⟩ := hfirst.keeps hscope hpath
    rw [List.flatMap_cons]
    exact hfirst.trans (ih _ hscope' hpath')

theorem filling_layout (library : Library) : ∀ depth, Filling library depth := by
  intro depth
  induction depth with
  | zero => exact fun _ _ _ _ _ _ => .refl _
  | succ depth ih =>
    intro schematic names scope netlist hscope hpath
    have hplaced : Fills netlist (schematic.components.foldl
        (Breadboard.place library (layout library depth) scope) (netlist, [])).1
        (roster library (depth + 1) names schematic) :=
      ih.places schematic.components (netlist, []) hscope hpath
    -- wires are bound behind the components, and change no part
    have hwired := hplaced.trans (fills_bindWires schematic.wires
      (schematic.components.foldl (Breadboard.place library (layout library depth) scope)
        (netlist, [])).2 (hplaced.keeps hscope hpath).1)
    rw [List.append_nil] at hwired
    exact hwired

end Netlist

/-- The parts of a flat circuit are those of its roster. -/
theorem stands_flatten (library : Library) (schematic : Schematic) :
    List.Forall₂ (Listing.Stands (flatten library schematic).scopes) (schematic.roster library)
      (flatten library schematic).outline := by
  obtain ⟨-, parts, houtline, hstands⟩ := Netlist.filling_layout library
    (library.entries.length + 1) schematic [] 0 { scopes := [⟨none, ""⟩] } Nat.zero_lt_one
    (by rw [scopePath]; rfl)
  have hparts : (flatten library schematic).outline = parts := houtline
  rw [hparts]
  exact hstands

/-! ## Looking up a path -/

/-- The part at that position was made for the component. -/
structure Listing.At (listing : Listing) (netlist : Netlist) (index : Nat) : Prop where
  path : netlist.partPath index = listing.path
  part : ∃ part, netlist.parts[index]? = some part ∧ part.MadeOf listing.assembly ∧
    part.definition = listing.component.definition

theorem length_roster (library : Library) (schematic : Schematic) :
    (schematic.roster library).length = (flatten library schematic).parts.length := by
  rw [(stands_flatten library schematic).length_eq, Netlist.length_outline]

theorem Listing.at_of_roster (h : (schematic.roster library)[index]? = some listing) :
    listing.At (flatten library schematic) index := by
  obtain ⟨hlt, rfl⟩ := List.getElem?_eq_some_iff.mp h
  have hlt' : index < (flatten library schematic).outline.length := by
    rwa [← (stands_flatten library schematic).length_eq]
  obtain ⟨scope, -, hpath, hpart⟩ :=
    (List.forall₂_iff_get.mp (stands_flatten library schematic)).2 index hlt hlt'
  have houtline := (List.getElem?_eq_getElem hlt').trans (congrArg some hpart)
  rw [Netlist.length_outline] at hlt'
  have hfound := List.getElem?_eq_getElem hlt'
  obtain ⟨hmade, hid, hscope⟩ := madeOf_of_outline hfound houtline
  refine ⟨?_, _, hfound, hmade, ?_⟩
  · rw [Netlist.partPath, List.getD_eq_getElem?_getD, hfound, Option.getD_some, localPath_eq,
      hscope, hid]
    exact congrArg (Path.within · _) hpath
  · rw [Netlist.outline_getElem?, hfound, Option.map_some, Option.some.injEq] at houtline
    exact congrArg Part.definition houtline

/-- What a path finds was made for a component of that path. -/
theorem Listing.exists_of_partAt? (h : (flatten library schematic).partAt? path = some index) :
    ∃ listing ∈ schematic.roster library, listing.path = path ∧
      listing.At (flatten library schematic) index := by
  obtain ⟨hlt, rfl⟩ := Netlist.partPath_of_partAt? h
  rw [← length_roster] at hlt
  have hat := at_of_roster (List.getElem?_eq_getElem hlt)
  exact ⟨_, List.getElem_mem hlt, hat.path.symm, hat⟩

namespace Schematic

/-- Within each schematic that is laid out, ids differ and contain no separator. -/
structure Tidy (library : Library) (schematic : Schematic) : Prop where
  nodup : ∀ site ∈ schematic.sites library, (site.schematic.components.map (·.id)).Nodup
  spelled : schematic.Spelled library

instance (library : Library) (schematic : Schematic) : Decidable (schematic.Tidy library) :=
  decidable_of_iff
    ((∀ site ∈ schematic.sites library, (site.schematic.components.map (·.id)).Nodup) ∧
    ∀ site ∈ schematic.sites library, ∀ component ∈ site.schematic.components,
      Path.separator ∉ component.id.toList)
    ⟨fun ⟨hnodup, hspelled⟩ => ⟨hnodup, hspelled⟩, fun h => ⟨h.nodup, h.spelled⟩⟩

namespace Tidy

variable (h : schematic.Tidy library)

include h

/-- The parts have different paths. -/
theorem nodup_paths : ((schematic.roster library).map Listing.path).Nodup := by
  refine List.Perm.nodup ((roster_perm ..).map _).symm (List.Nodup.of_map Path.text ?_)
  have hdistinct : Distinct (schematic.sites library) fun site =>
      (site.listings library).map (·.component.id) :=
    distinct_sites h.spelled h.nodup
      (fun site hsite => (h.nodup site hsite).sublist (sublist_ids library site.names _))
      fun site hsite id hid => by
        obtain ⟨listing, hmem, rfl⟩ := List.mem_map.mp hid
        exact h.spelled site hsite _ (mem_listings.mp hmem).2.1
  rw [List.map_map, List.map_flatMap]
  refine (congrArg List.Nodup (List.flatMap_congr fun site _ => ?_)).mpr hdistinct
  rw [List.map_map]
  refine List.map_congr_left fun listing hmem => ?_
  rw [Function.comp, Function.comp, Listing.path, Site.path, (mem_listings.mp hmem).1]

/-- The path of a component that can be built finds its part. -/
theorem partAt?_eq (hat : listing.At (flatten library schematic) index) :
    (flatten library schematic).partAt? listing.path = some index := by
  obtain ⟨part, hpart, -⟩ := hat.part
  have hlt := (List.getElem?_eq_some_iff.mp hpart).1
  obtain ⟨found, hfound⟩ := exists_latest? (Netlist.mem_partEntries.mpr ⟨hlt, hat.path⟩)
  obtain ⟨hlt', hpath⟩ := Netlist.partPath_of_partAt? hfound
  -- the paths along the roster are those of the parts
  have hread : ∀ position < (flatten library schematic).parts.length,
      ((schematic.roster library).map Listing.path)[position]? =
        some ((flatten library schematic).partPath position) := by
    intro position hposition
    rw [← length_roster] at hposition
    rw [List.getElem?_map, List.getElem?_eq_getElem hposition, Option.map_some,
      (Listing.at_of_roster (List.getElem?_eq_getElem hposition)).path]
  have hsame := (hread found hlt').trans ((congrArg some (hpath.trans hat.path.symm)).trans
    (hread index hlt).symm)
  have hfit : found < ((schematic.roster library).map Listing.path).length := by
    rwa [List.length_map, length_roster]
  rw [← (List.getElem?_inj hfit h.nodup_paths).mp hsame]
  exact hfound

end Tidy

end Schematic

end Breadboard
