import Breadboard.Proofs.Roster

/-!
# Schematics that flatten without a report

Binding the wires of a schematic reports nothing if every end of a wire stands
for a port, and the ports that a group of wires joins have one width
(`Netlist.diagnostics_bindWires_eq`). A net has no width or that one while its
ports are attached, so that no port is turned away.

Whether that is so can be told from the schematics alone (`Schematic.Sensible`):
a circuit all of whose schematics are sensible is laid out without a report
(`diagnostics_layout_eq`).
-/

namespace Breadboard

namespace Netlist

variable {netlist next later : Netlist} {index width scope : Nat} {ref : PortRef} {asSource : Bool}
  {pairs : List (PortRef × Bool)} {placements : Placements} {wires : List Wire}

/-- The ports that are attached and that face the net have this width. -/
def Meets (netlist : Netlist) (pairs : List (PortRef × Bool)) (width : Nat) : Prop :=
  ∀ pair ∈ pairs, ∀ decl, netlist.decl? pair.1 = some decl →
    pair.2 = true ∧ decl.type.output = true ∨ decl.type.input = true → decl.width = width

/-- Nothing has been reported, and the net has no width or this one. -/
structure Quiets (netlist next : Netlist) (index width : Nat) : Prop where
  outline : next.outline = netlist.outline
  diagnostics : next.diagnostics = netlist.diagnostics
  width : ∀ net, next.nets[index]? = some net → net.width = 0 ∨ net.width = width

theorem Meets.congr (h : netlist.Meets pairs width) (houtline : next.outline = netlist.outline) :
    next.Meets pairs width := by
  intro pair hpair decl hdecl
  rw [decl?_congr houtline] at hdecl
  exact h pair hpair decl hdecl

namespace Quiets

theorem trans (h : netlist.Quiets next index width) (h' : next.Quiets later index width) :
    netlist.Quiets later index width :=
  ⟨h'.outline.trans h.outline, h'.diagnostics.trans h.diagnostics, h'.width⟩

theorem refl (h : ∀ net, netlist.nets[index]? = some net → net.width = 0 ∨ net.width = width) :
    netlist.Quiets netlist index width :=
  ⟨rfl, rfl, h⟩

theorem foldl {α : Type} {step : Netlist → α → Netlist} {fits : α → Prop}
    (hstep : ∀ {next item}, netlist.Quiets next index width → fits item →
      next.Quiets (step next item) index width) :
    ∀ {items : List α} {next : Netlist}, netlist.Quiets next index width →
      (∀ item ∈ items, fits item) → netlist.Quiets (items.foldl step next) index width := by
  intro items
  induction items with
  | nil => exact fun h _ => h
  | cons item items ih =>
    intro next h hfits
    exact ih (h.trans (hstep h (hfits item (List.mem_cons_self ..))))
      fun other hother => hfits other (List.mem_cons_of_mem _ hother)

end Quiets

theorem quiets_bind (hwidth : ∀ net, netlist.nets[index]? = some net → net.width = 0 ∨ net.width = width)
    (hmeets : netlist.Meets [(ref, asSource)] width) :
    netlist.Quiets (netlist.bind index ref asSource) index width := by
  unfold bind
  split
  · next port net hport hnet =>
    have hdecl : netlist.decl? ref = some port.toPortDecl := by rw [decl?, hport, Option.map_some]
    dsimp only
    split
    · exact .refl hwidth
    · next hfaces =>
      have hport : port.width = width := by
        refine hmeets _ (List.mem_singleton_self _) _ hdecl ?_
        cases hinput : port.type.input <;> cases asSource <;> cases houtput : port.type.output <;>
          simp_all
      split
      · next hmismatch =>
        rw [hport] at hmismatch
        exact absurd (hwidth net hnet) (not_or.mpr hmismatch)
      · refine ⟨outline_attached netlist index ref (net.attach ref asSource port), rfl,
          fun wide hwide => ?_⟩
        have hlt := (List.getElem?_eq_some_iff.mp hnet).1
        rw [List.getElem?_set_self hlt] at hwide
        obtain rfl := Option.some.inj hwide
        exact Or.inr hport
  · exact .refl hwidth

theorem quiets_bindEnd {wireEnd : String × Endpoint}
    (hwidth : ∀ net, netlist.nets[index]? = some net → net.width = 0 ∨ net.width = width)
    (hsome : netlist.attachments placements wireEnd.2 ≠ [])
    (hmeets : netlist.Meets (netlist.attachments placements wireEnd.2) width) :
    netlist.Quiets (netlist.bindEnd scope placements index wireEnd) index width := by
  rw [attachments] at hsome hmeets
  rw [bindEnd_eq]
  cases hlookup : placements.lookup wireEnd.2.component with
  | none => simp [hlookup] at hsome
  | some placed =>
    rw [hlookup] at hsome hmeets
    dsimp only at hsome hmeets ⊢
    cases hposition : netlist.position? placed.part wireEnd.2.port with
    | none => simp [hposition] at hsome
    | some port =>
      rw [hposition] at hmeets
      dsimp only at hmeets ⊢
      rw [standing] at hmeets
      rw [bindPlaced_eq]
      cases hbehind : netlist.behind? placed wireEnd.2.port with
      | none =>
        rw [hbehind] at hmeets
        exact quiets_bind hwidth hmeets
      | some inner =>
        rw [hbehind] at hmeets
        have houter : netlist.Meets [(⟨placed.part, port⟩, _)] width := fun pair hpair =>
          hmeets pair (List.mem_cons.mpr (Or.inl (List.mem_singleton.mp hpair)))
        have hfirst := quiets_bind hwidth houter
        refine hfirst.trans (quiets_bind hfirst.width ?_)
        refine Meets.congr (fun pair hpair => hmeets pair ?_) hfirst.outline
        exact List.mem_cons_of_mem _ hpair

/-- A group of wires whose ends all stand for ports of one width. -/
structure Joinable (netlist : Netlist) (wires : List Wire) (placements : Placements)
    (group : List Nat) (width : Nat) : Prop where
  resolves : ∀ endpoint, GroupEnd wires group endpoint →
    netlist.attachments placements endpoint ≠ []
  meets : ∀ endpoint, GroupEnd wires group endpoint →
    netlist.Meets (netlist.attachments placements endpoint) width

theorem Joinable.congr {group : List Nat} (h : netlist.Joinable wires placements group width)
    (houtline : next.outline = netlist.outline) : next.Joinable wires placements group width := by
  refine ⟨fun endpoint hend => ?_, fun endpoint hend => ?_⟩
  · rw [attachments_congr houtline]
    exact h.resolves endpoint hend
  · rw [attachments_congr houtline]
    exact (h.meets endpoint hend).congr houtline

theorem diagnostics_bindGroup_eq {group : List Nat}
    (h : netlist.Joinable wires placements group width) :
    (netlist.bindGroup wires scope placements group).diagnostics = netlist.diagnostics := by
  let start : Netlist :=
    { netlist with
      nets := netlist.nets ++ [{ scope, wires := (group.filterMap (wires[·]?)).map (·.id) }] }
  have hwidth : ∀ net, start.nets[netlist.nets.length]? = some net →
      net.width = 0 ∨ net.width = width := by
    intro net hnet
    rw [List.getElem?_concat_length] at hnet
    obtain rfl := Option.some.inj hnet
    exact Or.inl rfl
  have hstep : ∀ {next : Netlist} {wireEnd : String × Endpoint},
      start.Quiets next netlist.nets.length width → GroupEnd wires group wireEnd.2 →
      next.Quiets (bindEnd scope placements netlist.nets.length next wireEnd)
        netlist.nets.length width := by
    intro next wireEnd hnext hend
    have hjoinable : next.Joinable wires placements group width := h.congr hnext.outline
    exact quiets_bindEnd hnext.width (hjoinable.resolves _ hend) (hjoinable.meets _ hend)
  have hfold := Quiets.foldl hstep (Quiets.refl hwidth)
    fun wireEnd (hwireEnd : wireEnd ∈ groupEnds (group.filterMap (wires[·]?))) =>
      groupEnd_iff.mpr ⟨wireEnd, hwireEnd, rfl⟩
  exact hfold.diagnostics

/-- Wires that can be joined group by group are bound without a report. -/
theorem diagnostics_bindWires_eq
    (h : ∀ group ∈ wireGroups wires, ∃ width, netlist.Joinable wires placements group width) :
    (netlist.bindWires wires scope placements).diagnostics = netlist.diagnostics := by
  have hfold : ∀ (groups : List (List Nat)) (next : Netlist), next.outline = netlist.outline →
      (∀ group ∈ groups, ∃ width, netlist.Joinable wires placements group width) →
      (groups.foldl (bindGroup wires scope placements) next).diagnostics = next.diagnostics := by
    intro groups
    induction groups with
    | nil => exact fun _ _ _ => rfl
    | cons group groups ih =>
      intro next houtline hgroups
      obtain ⟨width, hjoinable⟩ := hgroups group (List.mem_cons_self ..)
      refine (ih _ ((outline_bindGroup next group).trans houtline) fun other hother =>
        hgroups other (List.mem_cons_of_mem _ hother)).trans ?_
      exact diagnostics_bindGroup_eq (hjoinable.congr houtline)
  exact hfold _ _ rfl h

end Netlist

/-! ## Schematics -/

/-- The port of a component that an end of a wire names, as it is declared. -/
def Schematic.decl? (library : Library) (schematic : Schematic) (endpoint : Endpoint) :
    Option PortDecl :=
  ((schematic.find? endpoint.component).bind library.assembly?).bind fun assembly =>
    assembly.ports.find? (·.id = endpoint.port)

/-- All components can be built, every end of a wire names a port, and wires that
are one connection end at ports of one width. -/
structure Schematic.Sensible (library : Library) (schematic : Schematic) : Prop where
  nodup : (schematic.components.map (·.id)).Nodup
  builds : ∀ component ∈ schematic.components, ∃ assembly,
    library.assembly? component = some assembly
  exposed : ∀ component ∈ schematic.components, ∀ inside,
    library.inside? component = some inside → ((Library.boundaryPorts inside).map (·.id)).Nodup
  ends : ∀ group ∈ wireGroups schematic.wires, ∃ width, ∀ endpoint,
    Netlist.GroupEnd schematic.wires group endpoint →
      ∃ decl, schematic.decl? library endpoint = some decl ∧ decl.width = width

section

variable {library : Library} {netlist : Netlist} {schematic : Schematic} {spot : Spot}
  {spots : List Spot} {component : Component} {placed : Placed} {assembly : Assembly}
  {decl : PortDecl} {endpoint : Endpoint}

theorem Library.assembly?_eq (h : library.assembly? component = some assembly) :
    ∃ entry, library.get? component.definition = some entry ∧
      entry.definition.assemble component.args = .ok assembly := by
  obtain ⟨entry, hentry, hbuilt⟩ := Option.bind_eq_some_iff.mp h
  refine ⟨entry, hentry, ?_⟩
  cases hassemble : entry.definition.assemble component.args with
  | error error =>
    rw [hassemble] at hbuilt
    cases hbuilt
  | ok built =>
    rw [hassemble] at hbuilt
    exact congrArg Except.ok (Option.some.inj hbuilt)

theorem exists_of_decl? (h : schematic.decl? library endpoint = some decl) :
    ∃ component ∈ schematic.components, component.id = endpoint.component ∧
      ∃ assembly, library.assembly? component = some assembly ∧
        assembly.ports.find? (·.id = endpoint.port) = some decl := by
  obtain ⟨assembly, hassembly, hfind⟩ := Option.bind_eq_some_iff.mp h
  obtain ⟨component, hcomponent, hbuilt⟩ := Option.bind_eq_some_iff.mp hassembly
  exact ⟨component, List.mem_of_find?_eq_some hcomponent,
    by simpa using List.find?_some hcomponent, assembly, hbuilt, hfind⟩

theorem Spot.Hosts.outline (h : spot.Hosts netlist library spots component placed)
    (hassembly : library.assembly? component = some assembly) :
    netlist.outline[placed.part]? = some (assembly.toPart component spot.scope) := by
  obtain ⟨entry, made, hentry, hassemble, houtline⟩ := h.made
  obtain ⟨entry', hentry', hassemble'⟩ := Library.assembly?_eq hassembly
  obtain rfl := Option.some.inj (hentry.symm.trans hentry')
  rw [houtline, Except.ok.inj (hassemble.symm.trans hassemble')]

/-- The position of a port in an assembly, and what is found there. -/
theorem position_of_outline {index scope : Nat} {id : String}
    (houtline : netlist.outline[index]? = some (assembly.toPart component scope))
    (hfind : assembly.ports.find? (·.id = id) = some decl) : ∃ position,
      netlist.position? index id = some position ∧ netlist.decl? ⟨index, position⟩ = some decl := by
  obtain ⟨position, hposition, hport⟩ : ∃ position,
      assembly.ports.findIdx? (·.id = id) = some position ∧ assembly.ports[position]? = some decl := by
    rw [List.find?_eq_bind_findIdx?_getElem?] at hfind
    exact Option.bind_eq_some_iff.mp hfind
  refine ⟨position, ?_, ?_⟩
  · rw [Netlist.position?_eq, houtline, Option.bind_some, Part.port?, Assembly.toPart,
      List.findIdx?_map]
    exact hposition
  · rw [Netlist.decl?_eq, houtline, Option.bind_some, Assembly.toPart, List.getElem?_map, hport]
    rfl

/-- The external pin of a boundary port is as wide as the port it shows. -/
theorem width_external {index scope position : Nat} {external : PortDecl}
    (houtline : netlist.outline[index]? =
      some ((Builtin.boundary.assemble component.args).toPart component scope))
    (hposition : netlist.position? index Boundary.externalPin = some position)
    (hdecl : netlist.decl? ⟨index, position⟩ = some external) :
    external.width = (Boundary.outerDecl component.args component.id).width := by
  let shown : PortDecl := { Boundary.outerDecl component.args "" with id := Boundary.externalPin }
  have hshown : (Builtin.boundary.assemble component.args).ports.find?
      (·.id = Boundary.externalPin) = some shown := rfl
  obtain ⟨other, hother, hdecl'⟩ := position_of_outline houtline hshown
  obtain rfl := Option.some.inj (hposition.symm.trans hother)
  rw [Option.some.inj (hdecl.symm.trans hdecl')]
  rfl

/-- An end at a port of a component that has been placed stands for ports of the
width that is declared for it. -/
theorem Spot.Hosts.meets (h : spot.Hosts netlist library spots component placed)
    (hcomposed : library.Composed) (hlaid : ∀ other ∈ spots, other.Laid netlist library spots)
    (hexposed : ∀ inside, library.inside? component = some inside →
      ((Library.boundaryPorts inside).map (·.id)).Nodup)
    (hassembly : library.assembly? component = some assembly) {id : String}
    (hfind : assembly.ports.find? (·.id = id) = some decl) :
    netlist.attachments spot.placements ⟨component.id, id⟩ ≠ [] ∧
      netlist.Meets (netlist.attachments spot.placements ⟨component.id, id⟩) decl.width := by
  obtain ⟨position, hposition, hdecl⟩ := position_of_outline (h.outline hassembly) hfind
  have hown : ∀ asSource, netlist.Meets [(⟨placed.part, position⟩, asSource)] decl.width := by
    intro asSource pair hpair own hown _
    obtain rfl := List.mem_singleton.mp hpair
    rw [Option.some.inj (hown.symm.trans hdecl)]
  rw [Netlist.attachments, h.lookup]
  dsimp only
  rw [hposition]
  dsimp only
  rw [Netlist.standing]
  cases hbehind : netlist.behind? placed id with
  | none => exact ⟨by simp, hown true⟩
  | some inner =>
    refine ⟨by simp, fun pair hpair own howned hfaces => ?_⟩
    rcases List.mem_cons.mp hpair with rfl | hpair
    · exact hown _ _ (List.mem_singleton_self _) own howned hfaces
    obtain rfl := List.mem_singleton.mp hpair
    -- The port inside belongs to the boundary port that shows this one.
    obtain ⟨part, hpart, hexternal⟩ := Option.bind_eq_some_iff.mp hbehind
    obtain ⟨place, hplace, rfl⟩ := Option.map_eq_some_iff.mp hexternal
    cases hinside : library.inside? component with
    | none =>
      rw [h.plain hinside] at hpart
      cases hpart
    | some inside =>
      obtain ⟨child, hchild, -, rfl, hboundary⟩ := h.expanded inside hinside
      obtain ⟨boundary, hdrawn, placed', hdefinition, hlookup, hshown⟩ :=
        mem_boundaryParts (mem_of_lookup (hboundary ▸ hpart))
      obtain ⟨rfl, rfl⟩ := Prod.mk.inj hshown
      obtain ⟨hosted, hhosts⟩ := (hlaid child hchild).hosts boundary hdrawn
      obtain rfl := Option.some.inj (hlookup.symm.trans hhosts.lookup)
      obtain ⟨entry, made, hentry, hassemble, houtline⟩ := hhosts.made
      obtain ⟨-, rfl⟩ := hcomposed.boundary hdefinition hentry hassemble
      rw [width_external houtline hplace howned]
      obtain ⟨entry, hentry, hassemble⟩ := Library.assembly?_eq hassembly
      obtain ⟨-, rfl⟩ := hcomposed.expanded hinside hentry hassemble
      have hdeclared : Boundary.outerDecl boundary.args boundary.id ∈
          Library.boundaryPorts child.schematic :=
        List.mem_map_of_mem (List.mem_filter.mpr ⟨hdrawn, decide_eq_true hdefinition⟩)
      have hsame := List.inj_on_of_nodup_map (hexposed _ hinside) hdeclared
        (List.mem_of_find?_eq_some hfind) (by simpa [eq_comm] using List.find?_some hfind)
      rw [hsame]

/-- The wires of a sensible schematic can be joined as soon as its components have
been placed. -/
theorem Stage.joinable {base : Netlist} (h : Stage library base netlist spot spots spot.schematic.components)
    (hcomposed : library.Composed) (hsensible : spot.schematic.Sensible library)
    {group : List Nat} (hgroup : group ∈ wireGroups spot.schematic.wires) :
    ∃ width, netlist.Joinable spot.schematic.wires spot.placements group width := by
  obtain ⟨width, hends⟩ := hsensible.ends group hgroup
  have hmeets : ∀ endpoint, Netlist.GroupEnd spot.schematic.wires group endpoint →
      netlist.attachments spot.placements endpoint ≠ [] ∧
        netlist.Meets (netlist.attachments spot.placements endpoint) width := by
    intro endpoint hend
    obtain ⟨decl, hdecl, rfl⟩ := hends endpoint hend
    obtain ⟨component, hdrawn, hid, assembly, hassembly, hfind⟩ := exists_of_decl? hdecl
    obtain ⟨placed, hhosts⟩ := h.hosts component hdrawn
    obtain ⟨name, id⟩ := endpoint
    obtain rfl : component.id = name := hid
    exact hhosts.meets hcomposed h.laid (hsensible.exposed component hdrawn) hassembly hfind
  exact ⟨width, fun endpoint hend => (hmeets endpoint hend).1,
    fun endpoint hend => (hmeets endpoint hend).2⟩

/-! ## Circuits -/

/-- Whether all sites below a place of the hierarchy are laid out without a report. -/
def Cleanly (library : Library) (depth : Nat) : Prop :=
  ∀ (schematic : Schematic) (names : List String) (scope : Nat) (netlist : Netlist),
    schematic.Unfolds library depth → scope < netlist.scopes.length →
    scopePath netlist.scopes scope = Path.ofNames names →
    (∀ site ∈ sites library depth names schematic, site.schematic.Sensible library) →
    netlist.diagnostics = [] → (layout library depth schematic scope netlist).1.diagnostics = []

variable {names : List String} {scope depth : Nat}

theorem Cleanly.enter (h : Cleanly library depth)
    (hunfolds : ∀ inside, library.inside? component = some inside → inside.Unfolds library depth)
    (hsensible : ∀ site ∈ childSites library depth names component,
      site.schematic.Sensible library)
    (hscope : scope < netlist.scopes.length)
    (hpath : scopePath netlist.scopes scope = Path.ofNames names) (hnone : netlist.diagnostics = []) :
    (Netlist.enter (layout library depth) scope netlist component
      (library.inside? component)).1.diagnostics = [] := by
  unfold childSites at hsensible
  cases hinside : library.inside? component with
  | none => exact hnone
  | some inside =>
    rw [hinside] at hsensible
    have hentered : scopePath (netlist.addScope scope component.id).scopes netlist.scopes.length =
        Path.ofNames (names ++ [component.id]) := by
      rw [scopePath_addScope component.id hscope, localPath_eq, hpath, Path.ofNames_snoc]
    exact h inside _ _ _ (hunfolds inside hinside) (by simp [Netlist.addScope]) hentered hsensible
      hnone

theorem Cleanly.place (h : Cleanly library depth) (hassembly : library.assembly? component = some assembly)
    (hunfolds : ∀ inside, library.inside? component = some inside → inside.Unfolds library depth)
    (hsensible : ∀ site ∈ childSites library depth names component,
      site.schematic.Sensible library)
    (hscope : scope < netlist.scopes.length)
    (hpath : scopePath netlist.scopes scope = Path.ofNames names) (hnone : netlist.diagnostics = [])
    (placements : Placements) :
    (Breadboard.place library (layout library depth) scope (netlist, placements)
      component).1.diagnostics = [] := by
  obtain ⟨entry, hentry, hassemble⟩ := Library.assembly?_eq hassembly
  have hentered := h.enter hunfolds hsensible hscope hpath hnone
  rw [inside?_eq hentry] at hentered
  refine Netlist.place_cases (motive := fun placed => placed.1.diagnostics = [])
    (fun hunknown => ?_) (fun other error hother herror => ?_)
    fun other made hother _ => ?_
  · rw [hunknown] at hentry
    cases hentry
  · obtain rfl := Option.some.inj (hentry.symm.trans hother)
    rw [hassemble] at herror
    cases herror
  · obtain rfl := Option.some.inj (hentry.symm.trans hother)
    exact hentered

theorem Cleanly.places (h : Cleanly library depth) : ∀ {components : List Component}
    {state : Netlist × Placements},
    (∀ component ∈ components, ∃ assembly, library.assembly? component = some assembly) →
    (∀ component ∈ components, ∀ inside, library.inside? component = some inside →
      inside.Unfolds library depth) →
    (∀ component ∈ components, ∀ site ∈ childSites library depth names component,
      site.schematic.Sensible library) →
    scope < state.1.scopes.length → scopePath state.1.scopes scope = Path.ofNames names →
    state.1.diagnostics = [] →
    (components.foldl (Breadboard.place library (layout library depth) scope) state).1.diagnostics = [] := by
  intro components
  induction components with
  | nil => exact fun _ _ _ _ _ hnone => hnone
  | cons component components ih =>
    rintro ⟨netlist, placements⟩ hbuilds hunfolds hsensible hscope hpath hnone
    obtain ⟨assembly, hassembly⟩ := hbuilds component (List.mem_cons_self ..)
    obtain ⟨hscope', hpath'⟩ := ((Netlist.filling_layout library depth).place hscope hpath placements
      component).keeps hscope hpath
    exact ih (fun other hother => hbuilds other (List.mem_cons_of_mem _ hother))
      (fun other hother => hunfolds other (List.mem_cons_of_mem _ hother))
      (fun other hother => hsensible other (List.mem_cons_of_mem _ hother)) hscope' hpath'
      (h.place hassembly (hunfolds component (List.mem_cons_self ..))
        (hsensible component (List.mem_cons_self ..)) hscope hpath hnone placements)

theorem cleanly_layout (hcomposed : library.Composed) : ∀ depth, Cleanly library depth := by
  intro depth
  induction depth with
  | zero => exact fun _ _ _ _ hunfolds => hunfolds.elim
  | succ depth ih =>
    intro schematic names scope netlist hunfolds hscope hpath hsensible hnone
    have hroot := hsensible ⟨names, schematic⟩ (List.mem_cons_self ..)
    have hchild : ∀ component ∈ schematic.components, ∀ site ∈ childSites library depth names component,
        site ∈ sites library (depth + 1) names schematic := fun component hmem site hsite => by
      rw [sites_succ]
      exact List.mem_cons_of_mem _ (List.mem_flatMap.mpr ⟨component, hmem, hsite⟩)
    have hscope' : scope < (netlist, ([] : Placements)).1.scopes.length := hscope
    have hplaced := ih.places hroot.builds hunfolds
      (fun component hmem site hsite => hsensible site (hchild component hmem site hsite))
      hscope' hpath hnone
    obtain ⟨more, hstage, -⟩ := (Stage.empty library netlist schematic hscope hpath).places
      (surveys_layout library depth) hroot.nodup hunfolds
      (fun component hmem site hsite => (hsensible site (hchild component hmem site hsite)).nodup)
      hplaced
    refine (Netlist.diagnostics_bindWires_eq fun group hgroup => ?_).trans hplaced
    exact hstage.joinable hcomposed hroot hgroup

end

end Breadboard
