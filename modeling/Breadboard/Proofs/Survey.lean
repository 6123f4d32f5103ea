import Breadboard.Proofs.Attach
import Breadboard.Proofs.Inline

/-!
# How a circuit was laid out

Flattening visits the sites of a circuit in order. A `Spot` is a site with what the
visit made of it: its scope, and where its components were placed. Without
diagnostics all of it can be found again in the netlist (`Spot.Laid`), and there is
nothing else in it (`Survey`): each part is a component of a spot, and each net is a
group of wires of one.

What later steps add does not change what was found (`Spot.Laid.grown`), so the survey
of a schematic is put together from those of its components (`survey_layout`).
-/

namespace Breadboard

/-! ## Scopes -/

theorem scopePath_append (scopes more : List Scope) : ∀ {index : Nat}, index < scopes.length →
    scopePath (scopes ++ more) index = scopePath scopes index := by
  intro index
  induction index using Nat.strongRecOn with
  | ind index ih =>
    intro hlt
    rw [scopePath, scopePath, List.getElem?_append_left hlt]
    split
    · next parent name hscope =>
      split
      · next hparent => rw [ih parent hparent (Nat.lt_trans hparent hlt)]
      · rfl
    · rfl

theorem scopePath_addScope {netlist : Netlist} {parent : Nat} (name : String)
    (hlt : parent < netlist.scopes.length) :
    scopePath (netlist.addScope parent name).scopes netlist.scopes.length =
      some (localPath netlist.scopes parent name) := by
  rw [scopePath, Netlist.addScope]
  simp only [List.getElem?_concat_length, hlt, if_true, scopePath_append _ _ hlt]
  rw [localPath]
  cases scopePath netlist.scopes parent <;> rfl

theorem localPath_eq (scopes : List Scope) (scope : Nat) (id : String) :
    localPath scopes scope id = Path.within (scopePath scopes scope) id := rfl

/-! ## Spots -/

/-- A site with the scope and the places that its components got. -/
structure Spot extends Site where
  scope : Nat
  placements : Placements

/-- Where a component of a spot is, and what stands behind its ports. -/
structure Spot.Hosts (spot : Spot) (netlist : Netlist) (library : Library) (spots : List Spot)
    (component : Component) (placed : Placed) : Prop where
  lookup : spot.placements.lookup component.id = some placed
  made : ∃ entry assembly, library.get? component.definition = some entry ∧
    entry.definition.assemble component.args = .ok assembly ∧
    netlist.outline[placed.part]? = some (assembly.toPart component spot.scope)
  plain : library.inside? component = none → placed.boundary = []
  expanded : ∀ inside, library.inside? component = some inside → ∃ child ∈ spots,
    child.names = spot.names ++ [component.id] ∧ child.schematic = inside ∧
      placed.boundary = boundaryParts inside child.placements

/-- A spot as the netlist shows it. -/
structure Spot.Laid (spot : Spot) (netlist : Netlist) (library : Library) (spots : List Spot) :
    Prop where
  inScope : spot.scope < netlist.scopes.length
  path : scopePath netlist.scopes spot.scope = Path.ofNames spot.names
  hosts : ∀ component ∈ spot.schematic.components,
    ∃ placed, spot.Hosts netlist library spots component placed
  known : ∀ id placed, spot.placements.lookup id = some placed →
    ∃ component ∈ spot.schematic.components, component.id = id
  within : Netlist.Within netlist.parts.length spot.placements
  resolves : ∀ wire ∈ spot.schematic.wires, ∀ endpoint ∈ wire.endpoints,
    netlist.attachments spot.placements endpoint ≠ []
  nets : ∀ group ∈ wireGroups spot.schematic.wires, ∃ (index : Nat) (net : Net),
    netlist.nets[index]? = some net ∧
      netlist.Joins spot.schematic.wires spot.scope spot.placements group net

/-- What was added to a netlist are the spots of a list. -/
structure Survey (library : Library) (base next : Netlist) (spots : List Spot) : Prop where
  grown : base.Grown next
  laid : ∀ spot ∈ spots, spot.Laid next library spots
  part : ∀ index, base.parts.length ≤ index → index < next.parts.length →
    ∃ spot ∈ spots, ∃ component ∈ spot.schematic.components, ∃ placed,
      spot.placements.lookup component.id = some placed ∧ placed.part = index
  net : ∀ (index : Nat) (net : Net), base.nets.length ≤ index → next.nets[index]? = some net →
    ∃ spot ∈ spots, ∃ group ∈ wireGroups spot.schematic.wires,
      next.Joins spot.schematic.wires spot.scope spot.placements group net

variable {library : Library} {netlist base next later : Netlist} {spots more : List Spot}
  {spot : Spot} {component : Component} {placed : Placed}

theorem Spot.Hosts.grown (h : spot.Hosts netlist library spots component placed)
    (hgrown : netlist.Grown next) (hspots : spots ⊆ more) :
    spot.Hosts next library more component placed := by
  obtain ⟨entry, assembly, hentry, hassemble, hpart⟩ := h.made
  refine ⟨h.lookup, ⟨entry, assembly, hentry, hassemble, ?_⟩, h.plain, fun inside hinside => ?_⟩
  · rw [hgrown.getElem?_outline, hpart]
    rw [← Netlist.length_outline]
    exact (List.getElem?_eq_some_iff.mp hpart).1
  · obtain ⟨child, hmem, hchild⟩ := h.expanded inside hinside
    exact ⟨child, hspots hmem, hchild⟩

theorem Spot.Laid.grown (h : spot.Laid netlist library spots) (hgrown : netlist.Grown next)
    (hspots : spots ⊆ more) : spot.Laid next library more := by
  obtain ⟨rest, hrest⟩ := hgrown.scopes
  refine ⟨?_, ?_, fun component hmem => ?_, h.known, h.within.mono hgrown.length_parts, ?_, ?_⟩
  · exact Nat.lt_of_lt_of_le h.inScope hgrown.scopes.length_le
  · rw [← hrest, scopePath_append _ _ h.inScope, h.path]
  · obtain ⟨placed, hhosts⟩ := h.hosts component hmem
    exact ⟨placed, hhosts.grown hgrown hspots⟩
  · intro wire hwire endpoint hend
    rw [Netlist.attachments_grown hgrown h.within]
    exact h.resolves wire hwire endpoint hend
  · intro group hgroup
    obtain ⟨index, net, hnet, hjoins⟩ := h.nets group hgroup
    have hlt := (List.getElem?_eq_some_iff.mp hnet).1
    exact ⟨index, net, (hgrown.getElem?_nets hlt).trans hnet, hjoins.grown hgrown h.within⟩

/-! ## Reports stay -/

theorem diagnostics_bindWires (wires : List Wire) (scope : Nat) (placements : Placements)
    (netlist : Netlist) :
    netlist.diagnostics <+: (netlist.bindWires wires scope placements).diagnostics := by
  have hkeep : ∀ (groups : List (List Nat)) (netlist : Netlist), netlist.diagnostics <+:
      (groups.foldl (Netlist.bindGroup wires scope placements) netlist).diagnostics := by
    intro groups
    induction groups with
    | nil => exact fun _ => List.prefix_rfl
    | cons group groups ih => exact fun _ => (Netlist.diagnostics_bindGroup ..).trans (ih _)
  exact hkeep ..

/-- A layout takes no report back. -/
def Layout.Reports (expand : Layout) : Prop :=
  ∀ schematic scope netlist, netlist.diagnostics <+: (expand schematic scope netlist).1.diagnostics

theorem diagnostics_place {expand : Layout} (hexpand : expand.Reports) (scope : Nat)
    (state : Netlist × Placements) (component : Component) :
    state.1.diagnostics <+: (place library expand scope state component).1.diagnostics := by
  obtain ⟨netlist, placements⟩ := state
  have hinside : ∀ inside, netlist.diagnostics <+:
      (Netlist.enter expand scope netlist component inside).1.diagnostics := by
    intro inside
    cases inside with
    | none => exact List.prefix_rfl
    | some inside => exact hexpand _ _ (netlist.addScope scope component.id)
  refine Netlist.place_cases
    (motive := fun state => netlist.diagnostics <+: state.1.diagnostics)
    (fun _ => List.prefix_append ..) (fun entry _ _ _ => ?_)
    fun entry _ _ _ => ?_
  · exact (hinside entry.inside).trans (List.prefix_append ..)
  · exact hinside entry.inside

theorem diagnostics_places {expand : Layout} (hexpand : expand.Reports) (scope : Nat) :
    ∀ (components : List Component) (state : Netlist × Placements), state.1.diagnostics <+:
      (components.foldl (place library expand scope) state).1.diagnostics := by
  intro components
  induction components with
  | nil => exact fun _ => List.prefix_rfl
  | cons component components ih =>
    exact fun state => (diagnostics_place hexpand scope state component).trans (ih _)

theorem reports_layout (library : Library) : ∀ depth, (layout library depth).Reports := by
  intro depth
  induction depth with
  | zero => exact fun _ _ _ => List.prefix_rfl
  | succ depth ih =>
    intro schematic scope netlist
    exact (diagnostics_places ih scope schematic.components (netlist, [])).trans
      (diagnostics_bindWires ..)

/-! ## Placing components -/

/-- A spot whose components are being placed: those of `done` have been, and the spots
inside them are surveyed. -/
structure Stage (library : Library) (base netlist : Netlist) (spot : Spot) (spots : List Spot)
    (done : List Component) : Prop where
  grown : base.Grown netlist
  inScope : spot.scope < base.scopes.length
  path : scopePath base.scopes spot.scope = Path.ofNames spot.names
  laid : ∀ other ∈ spots, other.Laid netlist library spots
  hosts : ∀ component ∈ done, ∃ placed, spot.Hosts netlist library spots component placed
  known : ∀ id placed, spot.placements.lookup id = some placed →
    ∃ component ∈ done, component.id = id
  within : Netlist.Within netlist.parts.length spot.placements
  part : ∀ index, base.parts.length ≤ index → index < netlist.parts.length →
    (∃ other ∈ spots, ∃ component ∈ other.schematic.components, ∃ placed,
      other.placements.lookup component.id = some placed ∧ placed.part = index) ∨
    ∃ component ∈ done, ∃ placed, spot.placements.lookup component.id = some placed ∧
      placed.part = index
  net : ∀ (index : Nat) (net : Net), base.nets.length ≤ index → netlist.nets[index]? = some net →
    ∃ other ∈ spots, ∃ group ∈ wireGroups other.schematic.wires,
      netlist.Joins other.schematic.wires other.scope other.placements group net

namespace Stage

variable {done : List Component}

theorem localPath_eq (h : Stage library base netlist spot spots done) (id : String) :
    localPath netlist.scopes spot.scope id = Path.within (Path.ofNames spot.names) id := by
  obtain ⟨rest, hrest⟩ := h.grown.scopes
  rw [Breadboard.localPath_eq, ← hrest, scopePath_append _ _ h.inScope, h.path]

/-- What a component expands to is surveyed before the component gets its part. -/
theorem expand (h : Stage library base netlist spot spots done)
    (hsurvey : Survey library netlist next more) :
    Stage library base next spot (spots ++ more) done := by
  have hleft : spots ⊆ spots ++ more := List.subset_append_left ..
  refine ⟨h.grown.trans hsurvey.grown, h.inScope, h.path, ?_, ?_, h.known,
    h.within.mono hsurvey.grown.length_parts, ?_, ?_⟩
  · intro other hother
    rcases List.mem_append.mp hother with hother | hother
    · exact (h.laid other hother).grown hsurvey.grown hleft
    · exact (hsurvey.laid other hother).grown (.refl _) (List.subset_append_right ..)
  · intro component hmem
    obtain ⟨placed, hhosts⟩ := h.hosts component hmem
    exact ⟨placed, hhosts.grown hsurvey.grown hleft⟩
  · intro index hle hlt
    by_cases hindex : index < netlist.parts.length
    · exact (h.part index hle hindex).imp_left fun ⟨other, hother, hpart⟩ =>
        ⟨other, hleft hother, hpart⟩
    · obtain ⟨other, hother, hpart⟩ := hsurvey.part index (Nat.not_lt.mp hindex) hlt
      exact Or.inl ⟨other, List.mem_append_right _ hother, hpart⟩
  · intro index net hle hnet
    by_cases hindex : index < netlist.nets.length
    · obtain ⟨other, hother, group, hgroup, hjoins⟩ :=
        h.net index net hle ((hsurvey.grown.getElem?_nets hindex).symm.trans hnet)
      exact ⟨other, hleft hother, group, hgroup,
        hjoins.grown hsurvey.grown (h.laid other hother).within⟩
    · obtain ⟨other, hother, hnet⟩ := hsurvey.net index net (Nat.not_lt.mp hindex) hnet
      exact ⟨other, List.mem_append_right _ hother, hnet⟩

theorem unbound_toPart (assembly : Assembly) (component : Component) (scope : Nat) :
    (assembly.toPart component scope).unbound = assembly.toPart component scope := by
  simp [Part.unbound, Assembly.toPart, PortDecl.unbound]

theorem addPart (h : Stage library base netlist spot spots done) {entry : Library.Entry}
    {assembly : Assembly} {boundary : List (String × Nat)}
    (hfresh : component.id ∉ done.map (·.id))
    (hentry : library.get? component.definition = some entry)
    (hassemble : entry.definition.assemble component.args = .ok assembly)
    (hwithin : ∀ inner ∈ boundary, inner.2 < netlist.parts.length)
    (hplain : library.inside? component = none → boundary = [])
    (hexpanded : ∀ inside, library.inside? component = some inside → ∃ child ∈ spots,
      child.names = spot.names ++ [component.id] ∧ child.schematic = inside ∧
        boundary = boundaryParts inside child.placements) :
    Stage library base (netlist.addPart (assembly.toPart component spot.scope))
      { spot with placements := (component.id, ⟨netlist.parts.length, boundary⟩) :: spot.placements }
      spots (done ++ [component]) := by
  have hgrown := Netlist.Grown.addPart netlist (assembly.toPart component spot.scope)
  have hlength : (netlist.addPart (assembly.toPart component spot.scope)).parts.length =
      netlist.parts.length + 1 := List.length_append
  have hlookup : ∀ {id : String}, id ≠ component.id →
      List.lookup id ((component.id, (⟨netlist.parts.length, boundary⟩ : Placed)) ::
        spot.placements) = spot.placements.lookup id := fun hne => by
    rw [List.lookup_cons, beq_eq_false_iff_ne.mpr hne]
  have hself : List.lookup component.id ((component.id,
      (⟨netlist.parts.length, boundary⟩ : Placed)) :: spot.placements) =
        some ⟨netlist.parts.length, boundary⟩ := List.lookup_cons_self
  have hother : ∀ other ∈ done, other.id ≠ component.id := fun other hmem heq =>
    hfresh (heq ▸ List.mem_map_of_mem hmem)
  refine ⟨h.grown.trans hgrown, h.inScope, h.path, fun other hmem =>
    (h.laid other hmem).grown hgrown (List.Subset.refl _), ?_, ?_, ?_, ?_, ?_⟩
  · intro other hmem
    rcases List.mem_append.mp hmem with hmem | hmem
    · obtain ⟨placed, hhosts⟩ := h.hosts other hmem
      have hhosts := hhosts.grown hgrown (List.Subset.refl _)
      exact ⟨placed, (hlookup (hother other hmem)).trans hhosts.lookup, hhosts.made, hhosts.plain,
        hhosts.expanded⟩
    · obtain rfl := List.mem_singleton.mp hmem
      refine ⟨_, hself, ⟨entry, assembly, hentry, hassemble, ?_⟩, hplain, hexpanded⟩
      rw [Netlist.Grown.outline_addPart, unbound_toPart, ← Netlist.length_outline,
        List.getElem?_concat_length]
  · intro id placed hfound
    by_cases heq : id = component.id
    · exact ⟨component, List.mem_append_right _ (List.mem_singleton_self _), heq.symm⟩
    · obtain ⟨other, hmem, hid⟩ := h.known id placed ((hlookup heq).symm.trans hfound)
      exact ⟨other, List.mem_append_left _ hmem, hid⟩
  · intro id placed hfound
    by_cases heq : id = component.id
    · subst heq
      obtain rfl := Option.some.inj (hself.symm.trans hfound)
      rw [hlength]
      exact ⟨Nat.lt_succ_self _, fun inner hmem => Nat.lt_succ_of_lt (hwithin inner hmem)⟩
    · exact h.within.mono (hlength ▸ Nat.le_succ _) id placed ((hlookup heq).symm.trans hfound)
  · intro index hle hlt
    rw [hlength] at hlt
    by_cases hindex : index < netlist.parts.length
    · refine (h.part index hle hindex).imp_right ?_
      rintro ⟨other, hmem, placed, hfound, hpart⟩
      exact ⟨other, List.mem_append_left _ hmem, placed,
        (hlookup (hother other hmem)).trans hfound, hpart⟩
    · exact Or.inr ⟨component, List.mem_append_right _ (List.mem_singleton_self _), _, hself,
        by dsimp only; omega⟩
  · intro index net hle hnet
    obtain ⟨other, hmem, group, hgroup, hjoins⟩ := h.net index net hle hnet
    exact ⟨other, hmem, group, hgroup, hjoins.grown hgrown (h.laid other hmem).within⟩

end Stage

/-! ## Laying out -/

theorem within_boundaryParts {inside : Schematic} {inner : Placements} {count : Nat}
    (h : Netlist.Within count inner) : ∀ entry ∈ boundaryParts inside inner, entry.2 < count := by
  intro entry hentry
  obtain ⟨component, -, hshown⟩ := List.mem_filterMap.mp (List.mem_reverse.mp hentry)
  obtain ⟨placed, hlookup, rfl⟩ := Option.map_eq_some_iff.mp hshown
  exact (h _ _ hlookup).1

/-- Laying out a schematic without a report can be surveyed: the spots are the sites of
the schematic, with the schematic itself where its components were placed. -/
def Surveys (library : Library) (depth : Nat) : Prop :=
  ∀ schematic names scope netlist, schematic.Unfolds library depth →
    scope < netlist.scopes.length → scopePath netlist.scopes scope = Path.ofNames names →
    (∀ site ∈ sites library depth names schematic, (site.schematic.components.map (·.id)).Nodup) →
    (layout library depth schematic scope netlist).1.diagnostics = [] →
    ∃ spots, Survey library netlist (layout library depth schematic scope netlist).1 spots ∧
      spots.map (·.toSite) = sites library depth names schematic ∧
      Netlist.Within (layout library depth schematic scope netlist).1.parts.length
        (layout library depth schematic scope netlist).2 ∧
      ∃ spot ∈ spots, spot.names = names ∧ spot.schematic = schematic ∧
        spot.placements = (layout library depth schematic scope netlist).2

theorem inside?_eq {entry : Library.Entry}
    (h : library.get? component.definition = some entry) :
    library.inside? component = entry.inside := by
  rw [Library.inside?, h, Option.bind_some]

theorem Survey.of_addScope {parent : Nat} {name : String}
    (h : Survey library (netlist.addScope parent name) next spots) :
    Survey library netlist next spots :=
  ⟨(Netlist.Grown.addScope netlist parent name).trans h.grown, h.laid, h.part, h.net⟩

/-- Binding the wires of a spot completes the survey. -/
theorem Stage.survey (h : Stage library base netlist spot spots spot.schematic.components)
    (hwires : netlist.Wires next spot.schematic.wires spot.scope spot.placements
      (wireGroups spot.schematic.wires)) :
    Survey library base next (spot :: spots) := by
  have hgrown := h.grown.trans hwires.grown
  have hright : spots ⊆ spot :: spots := List.subset_cons_self ..
  have hlength : next.parts.length = netlist.parts.length := by
    rw [← Netlist.length_outline, hwires.outline, Netlist.length_outline]
  refine ⟨hgrown, List.forall_mem_cons.mpr ⟨?_, fun other hmem =>
    (h.laid other hmem).grown hwires.grown hright⟩, ?_, ?_⟩
  · obtain ⟨rest, hrest⟩ := hgrown.scopes
    refine ⟨Nat.lt_of_lt_of_le h.inScope hgrown.scopes.length_le, ?_, fun component hmem => ?_, h.known,
      hlength ▸ h.within, ?_, hwires.exists_net⟩
    · rw [← hrest, scopePath_append _ _ h.inScope, h.path]
    · obtain ⟨placed, hhosts⟩ := h.hosts component hmem
      exact ⟨placed, hhosts.grown hwires.grown hright⟩
    · intro wire hwire endpoint hend
      obtain ⟨group, hgroup, hmem⟩ := Netlist.exists_groupEnd hwire hend
      exact hwires.resolves group hgroup endpoint hmem
  · intro index hle hlt
    rcases h.part index hle (hlength ▸ hlt) with ⟨other, hother, hpart⟩ | hpart
    · exact ⟨other, hright hother, hpart⟩
    · exact ⟨spot, List.mem_cons_self .., hpart⟩
  · intro index net hle hnet
    by_cases hindex : index < netlist.nets.length
    · obtain ⟨other, hother, group, hgroup, hjoins⟩ :=
        h.net index net hle ((hwires.grown.getElem?_nets hindex).symm.trans hnet)
      exact ⟨other, hright hother, group, hgroup,
        hjoins.grown hwires.grown (h.laid other hother).within⟩
    · obtain ⟨group, hgroup, hjoins⟩ := hwires.exists_group index net (Nat.not_lt.mp hindex) hnet
      exact ⟨spot, List.mem_cons_self .., group, hgroup, hjoins⟩

theorem Stage.place {depth : Nat} {done : List Component} (hdepth : Surveys library depth)
    (h : Stage library base netlist spot spots done)
    (hfresh : component.id ∉ done.map (·.id))
    (hunfolds : ∀ inside, library.inside? component = some inside → inside.Unfolds library depth)
    (hnodup : ∀ site ∈ childSites library depth spot.names component,
      (site.schematic.components.map (·.id)).Nodup)
    (hnone : (Breadboard.place library (layout library depth) spot.scope
      (netlist, spot.placements) component).1.diagnostics = []) :
    ∃ more, Stage library base
        (Breadboard.place library (layout library depth) spot.scope
          (netlist, spot.placements) component).1
        { spot with
          placements := (Breadboard.place library (layout library depth) spot.scope
            (netlist, spot.placements) component).2 }
        (spots ++ more) (done ++ [component]) ∧
      more.map (·.toSite) = childSites library depth spot.names component := by
  unfold Breadboard.place at hnone ⊢
  unfold childSites at hnodup ⊢
  dsimp only at hnone ⊢
  cases hentry : library.get? component.definition with
  | none =>
    rw [hentry] at hnone
    exact absurd hnone (by simp [Netlist.report])
  | some entry =>
    have hinside := inside?_eq hentry
    rw [hentry] at hnone
    dsimp only at hnone ⊢
    cases hassemble : entry.definition.assemble component.args with
    | error error =>
      rw [hassemble] at hnone
      exact absurd hnone (by simp [Netlist.report])
    | ok assembly =>
      rw [hassemble] at hnone
      dsimp only at hnone ⊢
      cases hexpand : entry.inside with
      | none =>
        rw [hexpand] at hinside
        refine ⟨[], ?_, by rw [hinside]; rfl⟩
        rw [List.append_nil]
        refine h.addPart hfresh hentry hassemble (fun _ hmem => absurd hmem List.not_mem_nil) (fun _ => rfl)
          fun inside hsome => ?_
        rw [hinside] at hsome
        cases hsome
      | some inside =>
        rw [hexpand] at hnone hinside
        rw [hinside] at hnodup ⊢
        have hscope : spot.scope < netlist.scopes.length :=
          Nat.lt_of_lt_of_le h.inScope h.grown.scopes.length_le
        have hpath : scopePath (netlist.addScope spot.scope component.id).scopes
            netlist.scopes.length = Path.ofNames (spot.names ++ [component.id]) := by
          rw [scopePath_addScope component.id hscope, h.localPath_eq, Path.ofNames_snoc]
        obtain ⟨more, hsurvey, hsites, hwithin, hroot⟩ := hdepth inside
          (spot.names ++ [component.id]) netlist.scopes.length
          (netlist.addScope spot.scope component.id) (hunfolds inside hinside)
          (by simp [Netlist.addScope]) hpath hnodup hnone
        refine ⟨more, ?_, hsites⟩
        refine (h.expand hsurvey.of_addScope).addPart hfresh hentry hassemble
          (within_boundaryParts hwithin) (fun hplain => ?_) fun other hsome => ?_
        · rw [hinside] at hplain
          cases hplain
        · obtain rfl := Option.some.inj (hinside.symm.trans hsome)
          obtain ⟨child, hmem, hnames, hschematic, hplacements⟩ := hroot
          exact ⟨child, List.mem_append_right _ hmem, hnames, hschematic, hplacements ▸ rfl⟩

theorem Stage.places {depth : Nat} (hdepth : Surveys library depth) :
    ∀ {components done : List Component} {netlist : Netlist} {spot : Spot} {spots : List Spot},
      Stage library base netlist spot spots done → ((done ++ components).map (·.id)).Nodup →
      (∀ component ∈ components, ∀ inside, library.inside? component = some inside →
        inside.Unfolds library depth) →
      (∀ component ∈ components, ∀ site ∈ childSites library depth spot.names component,
        (site.schematic.components.map (·.id)).Nodup) →
      (components.foldl (Breadboard.place library (layout library depth) spot.scope)
        (netlist, spot.placements)).1.diagnostics = [] →
      ∃ more, Stage library base
          (components.foldl (Breadboard.place library (layout library depth) spot.scope)
            (netlist, spot.placements)).1
          { spot with
            placements := (components.foldl
              (Breadboard.place library (layout library depth) spot.scope)
              (netlist, spot.placements)).2 }
          (spots ++ more) (done ++ components) ∧
        more.map (·.toSite) = components.flatMap (childSites library depth spot.names) := by
  intro components
  induction components with
  | nil =>
    intro done netlist spot spots h _ _ _ _
    refine ⟨[], ?_, rfl⟩
    rw [List.append_nil, List.append_nil]
    exact h
  | cons component components ih =>
    intro done netlist spot spots h hnodup hunfolds hsites hnone
    have hfirst : (Breadboard.place library (layout library depth) spot.scope
        (netlist, spot.placements) component).1.diagnostics = [] :=
      List.prefix_nil.mp
        (hnone ▸ diagnostics_places (reports_layout library depth) spot.scope components _)
    have hsplit : done ++ component :: components = (done ++ [component]) ++ components := by
      rw [List.append_assoc, List.singleton_append]
    rw [hsplit] at hnodup
    have hfresh : component.id ∉ done.map (·.id) := by
      rw [List.map_append, List.map_append] at hnodup
      have hdone := (List.nodup_append.mp (List.nodup_append.mp hnodup).1).2.2
      exact fun hmem => hdone _ hmem _ (List.mem_singleton_self _) rfl
    obtain ⟨more, hstage, hmore⟩ :=
      h.place hdepth hfresh (hunfolds component (List.mem_cons_self ..))
        (hsites component (List.mem_cons_self ..)) hfirst
    obtain ⟨rest, hstage', hrest⟩ := ih hstage hnodup
      (fun other hother => hunfolds other (List.mem_cons_of_mem _ hother))
      (fun other hother => hsites other (List.mem_cons_of_mem _ hother)) hnone
    refine ⟨more ++ rest, ?_, ?_⟩
    · rw [hsplit, ← List.append_assoc]
      exact hstage'
    · rw [List.map_append, hmore, hrest, List.flatMap_cons]

/-- Nothing has been placed yet. -/
theorem Stage.empty (library : Library) (netlist : Netlist) (schematic : Schematic)
    {names : List String} {scope : Nat} (hscope : scope < netlist.scopes.length)
    (hpath : scopePath netlist.scopes scope = Path.ofNames names) :
    Stage library netlist netlist { names, schematic, scope, placements := [] } [] [] where
  grown := .refl _
  inScope := hscope
  path := hpath
  laid := fun _ h => by simp at h
  hosts := fun _ h => by simp at h
  known := fun id placed h => by simp at h
  within := fun id placed h => by simp at h
  part := fun _ hle hlt => absurd hlt (Nat.not_lt.mpr hle)
  net := fun _ _ hle hnet =>
    absurd (List.getElem?_eq_some_iff.mp hnet).1 (Nat.not_lt.mpr hle)

theorem surveys_layout (library : Library) : ∀ depth, Surveys library depth := by
  intro depth
  induction depth with
  | zero => exact fun _ _ _ _ hunfolds => hunfolds.elim
  | succ depth ih =>
    intro schematic names scope netlist hunfolds hscope hpath hnodup hnone
    have hplaced : (schematic.components.foldl
        (place library (layout library depth) scope) (netlist, [])).1.diagnostics = [] :=
      List.prefix_nil.mp (hnone ▸ diagnostics_bindWires ..)
    obtain ⟨more, hstage, hmore⟩ := (Stage.empty library netlist schematic hscope hpath).places ih
      (hnodup ⟨names, schematic⟩ (List.mem_cons_self ..)) hunfolds
      (fun component hmem site hsite => hnodup site (by
        rw [sites_succ]
        exact List.mem_cons_of_mem _ (List.mem_flatMap.mpr ⟨component, hmem, hsite⟩)))
      hplaced
    have hwires := Netlist.wires_bindWires hnone
    exact ⟨_, hstage.survey hwires, by rw [sites_succ, List.map_cons, ← hmore]; rfl,
      hstage.within.mono hwires.grown.length_parts, _, List.mem_cons_self .., rfl, rfl, rfl⟩

end Breadboard
