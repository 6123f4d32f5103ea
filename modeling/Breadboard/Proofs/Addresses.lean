import Breadboard.Demo
import Breadboard.Proofs.Connections
import Breadboard.Proofs.Expanding
import Breadboard.Proofs.Roster
import Breadboard.Proofs.Thinned

/-!
# Paths identify

A flat circuit keeps scopes and ids, and puts paths together from them when they are asked
for. The way from a scope to the top ends, as every scope stands behind the one around it
(`Netlist.Housed.climbs`). The parts are those of the roster, and the nets are the cables of
the sites, in the order of the wires that are bound (`threads_flatten`). As the ids of a site
differ and are written without separators, no two parts have one path, and no two wires
(`Schematic.Labelled.nodup_wirePaths`). So both tables of paths are one to one: a path finds
what it is the path of, and what has no such path is not found
(`flatten_paths_identify`).
-/

namespace Breadboard

open Netlist

/-! ## The way to the top -/

/-- The way from a scope to the top ends, and passes scopes of these names; the outermost
name comes first. -/
inductive Climbs (scopes : List Scope) : Nat → List String → Prop where
  | top {index : Nat} {name : String} : scopes[index]? = some ⟨none, name⟩ →
      Climbs scopes index []
  | inside {index parent : Nat} {name : String} {names : List String} :
      scopes[index]? = some ⟨some parent, name⟩ → Climbs scopes parent names →
      Climbs scopes index (names ++ [name])

theorem Netlist.Housed.climbs {netlist : Netlist} (h : netlist.Housed) :
    ∀ {scope : Nat}, scope < netlist.scopes.length →
      ∃ names, Climbs netlist.scopes scope names := by
  intro scope
  induction scope using Nat.strongRecOn with
  | ind scope ih =>
    intro hlt
    have hscope := List.getElem?_eq_getElem hlt
    generalize netlist.scopes[scope] = found at hscope
    obtain ⟨_ | parent, name⟩ := found
    · exact ⟨[], .top hscope⟩
    · have hparent := h.nested hscope
      obtain ⟨names, hnames⟩ := ih parent hparent (Nat.lt_trans hparent hlt)
      exact ⟨names ++ [name], .inside hscope hnames⟩

/-- The path of a scope is read off the way to the top. -/
theorem Netlist.Housed.scopePath_eq {netlist : Netlist} (h : netlist.Housed) {scope : Nat}
    {names : List String} (hclimbs : Climbs netlist.scopes scope names) :
    scopePath netlist.scopes scope = Path.ofNames names := by
  induction hclimbs with
  | top hscope => rw [scopePath, hscope]; rfl
  | inside hscope _ ih =>
    rw [scopePath, hscope, Path.ofNames_snoc]
    simp only [h.nested hscope, if_true, ih]
    cases Path.ofNames _ <;> rfl

/-! ## The wires that become nets -/

/-- The wires of a connection, with the ids of the components around them. -/
structure Cable where
  names : List String
  wires : List String
  deriving Repr

/-- The ids of the wires at some positions. -/
def idsAt (wires : List Wire) (group : List Nat) : List String :=
  (group.filterMap (wires[·]?)).map (·.id)

/-- The connections of a site. -/
def Site.cables (site : Site) : List Cable :=
  (wireGroups site.schematic.wires).map fun group => ⟨site.names, idsAt site.schematic.wires group⟩

/-- Everything that becomes a net, in the order of the nets: what is inside the components of
a schematic comes before its own wires. -/
def cables (library : Library) : (depth : Nat) → List String → Schematic → List Cable
  | 0, _, _ => []
  | depth + 1, names, schematic => (schematic.components.flatMap fun component =>
      match library.inside? component with
      | some inside => cables library depth (names ++ [component.id]) inside
      | none => []) ++ Site.cables ⟨names, schematic⟩

def childCables (library : Library) (depth : Nat) (names : List String) (component : Component) :
    List Cable :=
  match library.inside? component with
  | some inside => cables library depth (names ++ [component.id]) inside
  | none => []

def Schematic.cables (library : Library) (schematic : Schematic) : List Cable :=
  Breadboard.cables library (library.entries.length + 1) [] schematic

variable {library : Library} {schematic : Schematic} {site : Site} {cable : Cable}
  {component : Component} {path : Path} {index scope : Nat} {names : List String}

theorem cables_succ (depth : Nat) (names : List String) (schematic : Schematic) :
    cables library (depth + 1) names schematic =
      schematic.components.flatMap (childCables library depth names) ++
        Site.cables ⟨names, schematic⟩ := rfl

/-- The nets are the connections of the sites, in another order. -/
theorem cables_perm : ∀ (depth : Nat) (names : List String) (schematic : Schematic),
    (cables library depth names schematic).Perm
      ((sites library depth names schematic).flatMap Site.cables) := by
  intro depth
  induction depth with
  | zero => exact fun _ _ => .refl _
  | succ depth ih =>
    intro names schematic
    have hchild : ∀ component, (childCables library depth names component).Perm
        ((childSites library depth names component).flatMap Site.cables) := by
      intro component
      unfold childCables childSites
      cases library.inside? component with
      | none => exact .refl _
      | some inside => exact ih _ inside
    rw [cables_succ, sites_succ, List.flatMap_cons, List.flatMap_assoc]
    refine List.perm_append_comm.trans ((List.Perm.refl _).append ?_)
    exact List.Perm.flatMap_left _ fun component _ => hchild component

/-- Each wire of a site is in one cable. -/
theorem perm_idsAt (wires : List Wire) :
    ((wireGroups wires).flatMap (idsAt wires)).Perm (wires.map (·.id)) := by
  have hall : (List.range wires.length).filterMap (wires[·]?) = wires := by
    simpa using filterMap_range_getElem? wires some
  have hids := (((connections_wireGroups wires).once.filterMap (wires[·]?)).map (·.id))
  rw [hall, List.filterMap_flatten, List.map_flatten, List.map_map] at hids
  exact hids

theorem idsAt_ne_nil {wires : List Wire} {group : List Nat} (h : group ∈ wireGroups wires) :
    idsAt wires group ≠ [] := by
  have hconnections := connections_wireGroups wires
  obtain ⟨first, hfirst⟩ := List.exists_mem_of_ne_nil group fun hnil =>
    hconnections.nonempty (hnil ▸ h)
  have hwire := List.getElem?_eq_getElem (hconnections.lt h hfirst)
  exact List.ne_nil_of_mem (List.mem_map_of_mem (List.mem_filterMap.mpr ⟨first, hfirst, hwire⟩))

/-! ## Laying out -/

/-- The net has the wires of the cable, in a scope of the right path. -/
def Cable.Runs (scopes : List Scope) (cable : Cable) (net : Nat × List String) : Prop :=
  net.1 < scopes.length ∧ scopePath scopes net.1 = Path.ofNames cable.names ∧
    net.2 = cable.wires

theorem Cable.Runs.append {scopes : List Scope} {net : Nat × List String}
    (h : cable.Runs scopes net) (more : List Scope) : cable.Runs (scopes ++ more) net := by
  refine ⟨?_, (scopePath_append _ _ h.1).trans h.2.1, h.2.2⟩
  rw [List.length_append]
  exact Nat.lt_add_right _ h.1

/-- The paths of wires are made of the names around their cables. -/
theorem Cable.flatMap_paths {scopes : List Scope} {lines : List Cable}
    {nets : List (Nat × List String)} (h : List.Forall₂ (Cable.Runs scopes) lines nets) :
    (nets.flatMap fun net => net.2.map (localPath scopes net.1)) =
      lines.flatMap fun cable => cable.wires.map (Path.within (Path.ofNames cable.names)) := by
  induction h with
  | nil => rfl
  | cons hone _ ih =>
    obtain ⟨-, hpath, hwires⟩ := hone
    rw [List.flatMap_cons, List.flatMap_cons, ih, hwires]
    refine congrArg (· ++ _) (List.map_congr_left fun wire _ => ?_)
    rw [localPath_eq, hpath]

namespace Netlist

/-- What tells nets apart: the scope and the wires of each. -/
def wiring (netlist : Netlist) : List (Nat × List String) :=
  netlist.nets.map fun net => (net.scope, net.wires)

variable {netlist next last : Netlist} {lines more : List Cable} {placements : Placements}

theorem wiring_bind (netlist : Netlist) (index : Nat) (ref : PortRef) (asSource : Bool) :
    (netlist.bind index ref asSource).wiring = netlist.wiring := by
  rcases bind_cases netlist index ref asSource with ⟨_, heq⟩ | ⟨port, net, -, hnet, -, -, heq⟩
  · rw [heq]
    rfl
  · have hentry : netlist.wiring[index]? = some (net.scope, net.wires) := by
      rw [wiring, List.getElem?_map, hnet]
      rfl
    obtain ⟨hlt, hget⟩ := List.getElem?_eq_some_iff.mp hentry
    rw [heq, wiring, nets_attached, List.map_set]
    exact (congrArg (netlist.wiring.set index) hget.symm).trans (List.set_getElem_self hlt)

theorem wiring_bindEnd (scope : Nat) (placements : Placements) (index : Nat) (netlist : Netlist)
    (wireEnd : String × Endpoint) :
    (netlist.bindEnd scope placements index wireEnd).wiring = netlist.wiring := by
  rw [bindEnd_eq]
  split
  · rfl
  · split
    · rfl
    · rw [bindPlaced_eq]
      split
      · exact wiring_bind ..
      · exact (wiring_bind ..).trans (wiring_bind ..)

theorem wiring_bindGroup (wires : List Wire) (scope : Nat) (placements : Placements)
    (netlist : Netlist) (group : List Nat) :
    (netlist.bindGroup wires scope placements group).wiring =
      netlist.wiring ++ [(scope, idsAt wires group)] := by
  have hends : ∀ (index : Nat) (ends : List (String × Endpoint)) (netlist : Netlist),
      (ends.foldl (bindEnd scope placements index) netlist).wiring = netlist.wiring :=
    fun index ends netlist => List.foldlRecOn
      (motive := fun next : Netlist => next.wiring = netlist.wiring) ends _ rfl
      fun next h wireEnd _ => (wiring_bindEnd ..).trans h
  exact (hends ..).trans List.map_append

theorem wiring_bindWires (wires : List Wire) (scope : Nat) (placements : Placements)
    (netlist : Netlist) : (netlist.bindWires wires scope placements).wiring =
      netlist.wiring ++ (wireGroups wires).map fun group => (scope, idsAt wires group) := by
  have hgroups : ∀ (groups : List (List Nat)) (netlist : Netlist),
      (groups.foldl (bindGroup wires scope placements) netlist).wiring =
        netlist.wiring ++ groups.map fun group => (scope, idsAt wires group) := by
    intro groups
    induction groups with
    | nil => exact fun netlist => (List.append_nil _).symm
    | cons group groups ih =>
      intro netlist
      rw [List.foldl_cons, ih, wiring_bindGroup, List.append_assoc]
      rfl
  exact hgroups ..

/-- What was added to a netlist are nets of these cables. -/
structure Threads (netlist next : Netlist) (lines : List Cable) : Prop where
  scopes : netlist.scopes <+: next.scopes
  nets : ∃ nets, next.wiring = netlist.wiring ++ nets ∧
    List.Forall₂ (Cable.Runs next.scopes) lines nets

theorem Threads.of_wiring (hscopes : netlist.scopes <+: next.scopes)
    (hwiring : next.wiring = netlist.wiring) : Threads netlist next [] :=
  ⟨hscopes, [], by rw [hwiring, List.append_nil], .nil⟩

theorem Threads.refl (netlist : Netlist) : Threads netlist netlist [] :=
  .of_wiring List.prefix_rfl rfl

theorem Threads.trans (h : Threads netlist next lines) (h' : Threads next last more) :
    Threads netlist last (lines ++ more) := by
  obtain ⟨hscopes, nets, hwiring, hruns⟩ := h
  obtain ⟨hscopes', nets', hwiring', hruns'⟩ := h'
  refine ⟨hscopes.trans hscopes', nets ++ nets', ?_, ?_⟩
  · rw [hwiring', hwiring, List.append_assoc]
  · obtain ⟨rest, hrest⟩ := hscopes'
    exact List.rel_append (hruns.imp fun _ _ hone => hrest ▸ hone.append rest) hruns'

theorem Threads.keeps (h : Threads netlist next lines) (hscope : scope < netlist.scopes.length)
    (hpath : scopePath netlist.scopes scope = Path.ofNames names) :
    scope < next.scopes.length ∧ scopePath next.scopes scope = Path.ofNames names := by
  obtain ⟨rest, hrest⟩ := h.scopes
  refine ⟨Nat.lt_of_lt_of_le hscope h.scopes.length_le, ?_⟩
  rw [← hrest, scopePath_append _ _ hscope, hpath]

theorem threads_bindWires (schematic : Schematic) (placements : Placements)
    (hscope : scope < netlist.scopes.length)
    (hpath : scopePath netlist.scopes scope = Path.ofNames names) :
    Threads netlist (netlist.bindWires schematic.wires scope placements)
      (Site.cables ⟨names, schematic⟩) := by
  have hreplay : Replay Library.empty netlist _
      (netlist.bindWires schematic.wires scope placements) :=
    replay_bindWires schematic.wires placements hscope
  have hscopes := hreplay.kept.scopes
  refine ⟨hscopes, _, wiring_bindWires .., ?_⟩
  obtain ⟨rest, hrest⟩ := hscopes
  rw [Site.cables, List.forall₂_map_left_iff, List.forall₂_map_right_iff, List.forall₂_same]
  intro group _
  refine ⟨Nat.lt_of_lt_of_le hscope hreplay.kept.scopes.length_le, ?_, rfl⟩
  rw [← hrest, scopePath_append _ _ hscope, hpath]

/-- Laying out a schematic adds its cables. -/
def Threading (library : Library) (depth : Nat) : Prop :=
  ∀ (schematic : Schematic) (names : List String) (scope : Nat) (netlist : Netlist),
    scope < netlist.scopes.length → scopePath netlist.scopes scope = Path.ofNames names →
    Threads netlist (layout library depth schematic scope netlist).1
      (cables library depth names schematic)

theorem Threading.enter {depth : Nat} (h : Threading library depth)
    (hscope : scope < netlist.scopes.length)
    (hpath : scopePath netlist.scopes scope = Path.ofNames names) (component : Component) :
    Threads netlist (Netlist.enter (layout library depth) scope netlist component
      (library.inside? component)).1 (childCables library depth names component) := by
  unfold childCables
  cases library.inside? component with
  | none => exact .refl netlist
  | some inside =>
    have hentered : scopePath (netlist.addScope scope component.id).scopes netlist.scopes.length =
        Path.ofNames (names ++ [component.id]) := by
      rw [scopePath_addScope component.id hscope, localPath_eq, hpath, Path.ofNames_snoc]
    have hopened : Threads netlist (netlist.addScope scope component.id) [] :=
      .of_wiring (List.prefix_append ..) rfl
    exact hopened.trans (h inside _ _ _ (by simp [addScope]) hentered)

/-- The part of a component is no net, and neither is the report that there is none. -/
theorem Threading.place {depth : Nat} (h : Threading library depth)
    (hscope : scope < netlist.scopes.length)
    (hpath : scopePath netlist.scopes scope = Path.ofNames names) (placements : Placements)
    (component : Component) :
    Threads netlist (Breadboard.place library (layout library depth) scope (netlist, placements)
      component).1 (childCables library depth names component) := by
  have hinside := h.enter hscope hpath component
  rw [← List.append_nil (childCables ..)]
  cases hassembly : library.assembly? component with
  | none =>
    obtain ⟨diagnostic, hplace⟩ := place_of_unbuilt (layout library depth) scope netlist
      placements hassembly
    rw [hplace]
    exact hinside.trans (.of_wiring List.prefix_rfl rfl)
  | some assembly =>
    rw [place_of_assembly? hassembly]
    exact hinside.trans (.of_wiring List.prefix_rfl rfl)

theorem Threading.places {depth : Nat} (h : Threading library depth)
    (components : List Component) :
    ∀ state : Netlist × Placements, scope < state.1.scopes.length →
      scopePath state.1.scopes scope = Path.ofNames names →
      Threads state.1
        (components.foldl (Breadboard.place library (layout library depth) scope) state).1
        (components.flatMap (childCables library depth names)) := by
  induction components with
  | nil => exact fun _ _ _ => .refl _
  | cons component components ih =>
    intro state hscope hpath
    have hfirst := h.place hscope hpath state.2 component
    obtain ⟨hscope', hpath'⟩ := hfirst.keeps hscope hpath
    rw [List.flatMap_cons]
    exact hfirst.trans (ih _ hscope' hpath')

theorem threading_layout (library : Library) : ∀ depth, Threading library depth := by
  intro depth
  induction depth with
  | zero => exact fun _ _ _ _ _ _ => .refl _
  | succ depth ih =>
    intro schematic names scope netlist hscope hpath
    have hplaced := ih.places schematic.components (netlist, []) hscope hpath
    obtain ⟨hscope', hpath'⟩ := hplaced.keeps hscope hpath
    rw [layout_succ, cables_succ]
    exact hplaced.trans (threads_bindWires schematic _ hscope' hpath')

end Netlist

/-- The nets of a flat circuit are the cables of its schematic. -/
theorem threads_flatten (library : Library) (schematic : Schematic) :
    List.Forall₂ (Cable.Runs (flatten library schematic).scopes) (schematic.cables library)
      (flatten library schematic).wiring := by
  obtain ⟨-, nets, hwiring, hruns⟩ := threading_layout library (library.entries.length + 1)
    schematic [] 0 { scopes := [⟨none, ""⟩] } Nat.zero_lt_one (by rw [scopePath]; rfl)
  have hnets : (flatten library schematic).wiring = nets := hwiring
  rw [hnets]
  exact hruns

/-! ## Tables of paths -/

/-- Where no path is given twice, a path finds its entry and nothing else. -/
theorem latest?_eq_some_iff {entries : List (Path × Nat)} (h : (entries.map (·.1)).Nodup) :
    latest? entries path = some index ↔ (path, index) ∈ entries := by
  refine ⟨mem_of_latest?, fun hmem => ?_⟩
  obtain ⟨found, hfound⟩ := exists_latest? hmem
  have hsame := List.inj_on_of_nodup_map h (mem_of_latest? hfound) hmem rfl
  rw [hfound, (Prod.mk.inj hsame).2]

namespace Netlist

variable {netlist : Netlist}

theorem mem_netEntries : (path, index) ∈ netlist.netEntries ↔
    ∃ net, netlist.nets[index]? = some net ∧
      ∃ wire ∈ net.wires, localPath netlist.scopes net.scope wire = path := by
  rw [netEntries, List.mem_flatMap]
  constructor
  · rintro ⟨⟨net, found⟩, hfound, hmem⟩
    obtain ⟨wire, hwire, heq⟩ := List.mem_map.mp hmem
    obtain ⟨rfl, rfl⟩ := Prod.mk.inj heq
    exact ⟨net, List.mem_zipIdx_iff_getElem?.mp hfound, wire, hwire, rfl⟩
  · rintro ⟨net, hnet, wire, hwire, rfl⟩
    exact ⟨(net, index), List.mem_zipIdx_iff_getElem?.mpr hnet, List.mem_map.mpr ⟨wire, hwire, rfl⟩⟩

/-- The paths of the wires, net by net. -/
theorem map_netEntries (netlist : Netlist) : netlist.netEntries.map (·.1) =
    netlist.wiring.flatMap fun net => net.2.map (localPath netlist.scopes net.1) := by
  have hzip : netlist.nets.zipIdx.map (·.1) = netlist.nets := List.zipIdx_map_fst ..
  rw [netEntries, List.map_flatMap, wiring, List.flatMap_map]
  conv_rhs => rw [← hzip, List.flatMap_map]
  simp only [List.map_map, Function.comp_def]

/-- The path of a net is that of its first wire. -/
theorem netPath_mem_netEntries {net : Net} (hnet : netlist.nets[index]? = some net)
    (hwires : net.wires ≠ []) : (netlist.netPath index, index) ∈ netlist.netEntries := by
  obtain ⟨wire, rest, hcons⟩ := List.exists_cons_of_ne_nil hwires
  refine mem_netEntries.mpr ⟨net, hnet, wire, hcons ▸ List.mem_cons_self .., ?_⟩
  rw [netPath, List.getD_eq_getElem?_getD, hnet, Option.getD_some, hcons]

end Netlist

/-! ## Schematics whose ids tell -/

namespace Schematic

/-- Within each schematic that is laid out, ids of components differ and so do ids of wires,
and none contains a separator. -/
structure Labelled (library : Library) (schematic : Schematic) : Prop
    extends Tidy library schematic where
  nodupWires : ∀ site ∈ schematic.sites library, (site.schematic.wires.map (·.id)).Nodup
  spelledWires : ∀ site ∈ schematic.sites library, ∀ wire ∈ site.schematic.wires,
    Path.separator ∉ wire.id.toList

instance (library : Library) (schematic : Schematic) : Decidable (schematic.Labelled library) :=
  decidable_of_iff (schematic.Tidy library ∧
    (∀ site ∈ schematic.sites library, (site.schematic.wires.map (·.id)).Nodup) ∧
    ∀ site ∈ schematic.sites library, ∀ wire ∈ site.schematic.wires,
      Path.separator ∉ wire.id.toList)
    ⟨fun ⟨htidy, hnodup, hspelled⟩ => ⟨htidy, hnodup, hspelled⟩, fun h =>
      ⟨h.toTidy, h.nodupWires, h.spelledWires⟩⟩

/-- The parts have different paths. -/
theorem Tidy.nodup_partPaths (h : schematic.Tidy library) :
    ((flatten library schematic).partEntries.map (·.1)).Nodup := by
  have hpaths : (flatten library schematic).partEntries.map (·.1) =
      (schematic.roster library).map Listing.path := by
    rw [partEntries, List.map_map, ← length_roster]
    refine List.ext_getElem (by simp) fun position hposition hposition' => ?_
    rw [List.length_map] at hposition'
    simp only [List.getElem_map, List.getElem_range]
    exact (Listing.at_of_roster (List.getElem?_eq_getElem hposition')).path
  rw [hpaths]
  exact h.nodup_paths

/-- The wires have different paths, whatever nets they belong to. -/
theorem Labelled.nodup_wirePaths (h : schematic.Labelled library) :
    ((flatten library schematic).netEntries.map (·.1)).Nodup := by
  have hread : (flatten library schematic).netEntries.map (·.1) =
      (schematic.cables library).flatMap fun cable =>
        cable.wires.map (Path.within (Path.ofNames cable.names)) := by
    rw [map_netEntries]
    exact Cable.flatMap_paths (threads_flatten library schematic)
  have hdistinct : Distinct (schematic.sites library) fun site =>
      (wireGroups site.schematic.wires).flatMap (idsAt site.schematic.wires) :=
    distinct_sites h.spelled h.nodup
      (fun site hsite => (perm_idsAt site.schematic.wires).nodup_iff.mpr (h.nodupWires site hsite))
      fun site hsite id hid => by
        obtain ⟨wire, hwire, rfl⟩ :=
          List.mem_map.mp ((perm_idsAt site.schematic.wires).mem_iff.mp hid)
        exact h.spelledWires site hsite wire hwire
  rw [hread]
  refine List.Perm.nodup ((cables_perm ..).flatMap_right _).symm (List.Nodup.of_map Path.text ?_)
  rw [List.flatMap_assoc, List.map_flatMap]
  refine (congrArg List.Nodup (List.flatMap_congr fun site _ => ?_)).mpr hdistinct
  rw [Site.cables, List.flatMap_map, List.map_flatMap, List.map_flatMap]
  refine List.flatMap_congr fun group _ => ?_
  rw [List.map_map]
  rfl

end Schematic

/-! ## Paths identify -/

/-- A flat circuit whose paths stand for its parts and nets, one to one. -/
structure Netlist.Addressed (netlist : Netlist) : Prop where
  climbs : ∀ scope < netlist.scopes.length, ∃ names,
    Climbs netlist.scopes scope names ∧ scopePath netlist.scopes scope = Path.ofNames names
  partPath : Set.InjOn netlist.partPath {index | index < netlist.parts.length}
  netPath : Set.InjOn netlist.netPath {index | index < netlist.nets.length}
  partAt : ∀ index < netlist.parts.length, netlist.partAt? (netlist.partPath index) = some index
  netAt : ∀ index < netlist.nets.length, netlist.netAt? (netlist.netPath index) = some index
  wireAt : ∀ index net, netlist.nets[index]? = some net → ∀ wire ∈ net.wires,
    netlist.netAt? (localPath netlist.scopes net.scope wire) = some index
  parts : ∀ path index, netlist.partAt? path = some index →
    index < netlist.parts.length ∧ netlist.partPath index = path
  nets : ∀ path index, netlist.netAt? path = some index → ∃ net, netlist.nets[index]? = some net ∧
    ∃ wire ∈ net.wires, localPath netlist.scopes net.scope wire = path

/-- The nets of a netlist are the connections of the sites of a schematic: as many of each
kind, each with the wires of its connection, in a scope of the path of its site. -/
def Netlist.Cabled (netlist : Netlist) (library : Library) (schematic : Schematic) : Prop :=
  ∃ lines : List Cable, lines.Perm ((schematic.sites library).flatMap Site.cables) ∧
    List.Forall₂ (Cable.Runs netlist.scopes) lines netlist.wiring

theorem cabled_flatten (library : Library) (schematic : Schematic) :
    (flatten library schematic).Cabled library schematic :=
  ⟨_, cables_perm .., threads_flatten library schematic⟩

/-- No net is without wires. -/
theorem Netlist.Cabled.wires_ne_nil {netlist : Netlist} {net : Net}
    (h : netlist.Cabled library schematic) (hnet : netlist.nets[index]? = some net) :
    net.wires ≠ [] := by
  obtain ⟨lines, hperm, hruns⟩ := h
  have hentry : netlist.wiring[index]? = some (net.scope, net.wires) := by
    rw [wiring, List.getElem?_map, hnet]
    rfl
  obtain ⟨hlt, hget⟩ := List.getElem?_eq_some_iff.mp hentry
  have hlt' : index < lines.length := hruns.length_eq ▸ hlt
  obtain ⟨-, -, hwires⟩ := (List.forall₂_iff_get.mp hruns).2 index hlt' hlt
  obtain ⟨site, -, hcable⟩ := List.mem_flatMap.mp (hperm.mem_iff.mp (List.getElem_mem hlt'))
  obtain ⟨group, hgroup, hcable⟩ := List.mem_map.mp hcable
  rw [List.get_eq_getElem, hget, List.get_eq_getElem, ← hcable] at hwires
  dsimp only at hwires
  exact hwires ▸ idsAt_ne_nil hgroup

namespace Schematic.Labelled

theorem partAt?_iff (h : schematic.Labelled library) :
    (flatten library schematic).partAt? path = some index ↔
      index < (flatten library schematic).parts.length ∧
        (flatten library schematic).partPath index = path :=
  (latest?_eq_some_iff h.nodup_partPaths).trans mem_partEntries

theorem netAt?_iff (h : schematic.Labelled library) :
    (flatten library schematic).netAt? path = some index ↔
      ∃ net, (flatten library schematic).nets[index]? = some net ∧ ∃ wire ∈ net.wires,
        localPath (flatten library schematic).scopes net.scope wire = path :=
  (latest?_eq_some_iff h.nodup_wirePaths).trans mem_netEntries

/-- As each net has a wire, it has a path that finds it. -/
theorem netAt?_netPath (h : schematic.Labelled library)
    (hlt : index < (flatten library schematic).nets.length) :
    (flatten library schematic).netAt? ((flatten library schematic).netPath index) =
      some index := by
  have hnet := List.getElem?_eq_getElem hlt
  exact (latest?_eq_some_iff h.nodup_wirePaths).mpr
    (netPath_mem_netEntries hnet ((cabled_flatten library schematic).wires_ne_nil hnet))

theorem addressed (h : schematic.Labelled library) (hacyclic : library.Acyclic) :
    (flatten library schematic).Addressed where
  climbs scope hscope := by
    have hhoused := (Guarded.flatten_eq hacyclic schematic).2
    obtain ⟨names, hclimbs⟩ := hhoused.climbs hscope
    exact ⟨names, hclimbs, hhoused.scopePath_eq hclimbs⟩
  partPath index hlt other hlt' hpath := by
    have hsame := h.partAt?_iff.mpr ⟨hlt', hpath.symm⟩
    exact Option.some.inj ((h.partAt?_iff.mpr ⟨hlt, rfl⟩).symm.trans hsame)
  netPath index hlt other hlt' hpath := by
    have hsame := h.netAt?_netPath hlt
    rw [hpath, h.netAt?_netPath hlt'] at hsame
    exact (Option.some.inj hsame).symm
  partAt index hlt := h.partAt?_iff.mpr ⟨hlt, rfl⟩
  netAt index hlt := h.netAt?_netPath hlt
  wireAt index net hnet wire hwire := h.netAt?_iff.mpr ⟨net, hnet, wire, hwire, rfl⟩
  parts path index := h.partAt?_iff.mp
  nets path index := h.netAt?_iff.mp

end Schematic.Labelled

/-- Paths stand for the parts and the nets of a flat circuit, if the ids of each schematic
differ and no id contains a separator. -/
theorem flatten_paths_identify (hacyclic : library.Acyclic) (h : schematic.Labelled library) :
    (flatten library schematic).Addressed ∧
      (flatten library schematic).Cabled library schematic :=
  ⟨h.addressed hacyclic, cabled_flatten library schematic⟩

theorem flatten_paths_identify_hierarchy :
    Demo.library.Acyclic ∧ Demo.hierarchy.Labelled Demo.library ∧
      (flatten Demo.library Demo.hierarchy).Addressed ∧
        (flatten Demo.library Demo.hierarchy).Cabled Demo.library Demo.hierarchy := by
  have hacyclic : Demo.library.Acyclic := Library.acyclic_of_rank
    (fun id => if id = "demo/inc" then 1 else 0) (by decide +kernel)
  have hlabelled : Demo.hierarchy.Labelled Demo.library := by decide +kernel
  exact ⟨hacyclic, hlabelled, flatten_paths_identify hacyclic hlabelled⟩

end Breadboard
