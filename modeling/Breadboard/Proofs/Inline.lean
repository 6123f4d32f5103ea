import Breadboard.Netlist.Flatten
import Breadboard.Proofs.Groups
import Mathlib.Data.List.Induction
import Mathlib.Data.List.Nodup

/-!
# Circuits with their hierarchy removed

A schematic with everything its components expand to is a list of sites, one for each
schematic that is laid out (`sites`). `inlined` puts the components of all sites side
by side, the ids of the components around them in front of their own, and leaves out
what only stands for a hierarchy: expanded components, and boundary ports anywhere but
at the top.

Wires are merged across boundaries. A wire at the pin of a boundary port ends, seen
from outside, at the port of the expanded component (`Site.terminal`), so wires on
the two sides of a boundary have that end in common, and what is connected can be read
off as within one schematic. Every wire of every site stays under its own path; it
ends at all ports of components that are left in its connection.

A site is determined by the ids around it (`site_eq`), and paths written with
separators determine the ids they are made of (`Path.names_eq`), provided that no id
contains one.
-/

namespace Breadboard

namespace Path

/-- The path of `id` in a scope; at the top that is the id alone. -/
def within (around : Option Path) (id : String) : Path :=
  match around with
  | some path => path.join id
  | none => ⟨id⟩

/-- The path of the scope inside nested components, given their ids from the outermost
on; none at the top. -/
def ofNames (names : List String) : Option Path :=
  names.foldl (fun around name => some (within around name)) none

theorem ofNames_snoc (names : List String) (name : String) :
    ofNames (names ++ [name]) = some (within (ofNames names) name) := by
  rw [ofNames, List.foldl_append]
  rfl

variable {first second : Option Path} {id other : String} {names others : List String}

theorem toList_within (around : Option Path) (id : String) : (within around id).text.toList =
    match around with
    | some path => path.text.toList ++ separator :: id.toList
    | none => id.toList := by
  cases around with
  | none => rfl
  | some path => exact toList_join path id

theorem eq_of_within (hid : separator ∉ id.toList) (hother : separator ∉ other.toList)
    (h : (within first id).text = (within second other).text) : first = second ∧ id = other := by
  have hlist := congrArg String.toList h
  rw [toList_within, toList_within] at hlist
  cases first with
  | none =>
    cases second with
    | none => exact ⟨rfl, String.ext hlist⟩
    | some path =>
      dsimp only at hlist
      exact absurd (hlist ▸ List.mem_append_right _ (List.mem_cons_self ..)) hid
  | some path =>
    cases second with
    | none =>
      dsimp only at hlist
      exact absurd (hlist ▸ List.mem_append_right _ (List.mem_cons_self ..)) hother
    | some path' =>
      -- both texts are cut at their last separators
      have hcut : splitLast separator (path.text.toList ++ separator :: id.toList) =
          some (path.text.toList, id.toList) := splitLast_eq_some_iff.mpr ⟨rfl, hid⟩
      have hcut' := splitLast_eq_some_iff.mpr ⟨hlist, hother⟩
      obtain ⟨htext, hname⟩ := Prod.mk.inj (Option.some.inj (hcut.symm.trans hcut'))
      exact ⟨congrArg some (congrArg Path.mk (String.ext htext)), String.ext hname⟩

/-- A path is not the one around it. -/
theorem within_ne (around : Option Path) (id : String) : around ≠ some (within around id) := by
  intro h
  cases around with
  | none => cases h
  | some path =>
    have hlength := congrArg (fun path : Path => path.text.toList.length) (Option.some.inj h)
    simp only [toList_within, List.length_append, List.length_cons] at hlength
    omega

theorem names_eq : ∀ {names others : List String}, (∀ name ∈ names, separator ∉ name.toList) →
    (∀ name ∈ others, separator ∉ name.toList) → ofNames names = ofNames others →
    names = others := by
  intro names
  induction names using List.reverseRecOn with
  | nil =>
    intro others _ _ h
    cases others using List.reverseRecOn with
    | nil => rfl
    | append_singleton others other => rw [ofNames_snoc] at h; cases h
  | append_singleton names name ih =>
    intro others hnames hothers h
    cases others using List.reverseRecOn with
    | nil => rw [ofNames_snoc] at h; cases h
    | append_singleton others other =>
      rw [ofNames_snoc, ofNames_snoc] at h
      obtain ⟨haround, rfl⟩ := eq_of_within (hnames name (by simp)) (hothers other (by simp))
        (congrArg Path.text (Option.some.inj h))
      rw [ih (fun name hname => hnames name (List.mem_append_left _ hname))
        (fun name hname => hothers name (List.mem_append_left _ hname)) haround]

end Path

/-! ## Sites -/

/-- The schematic that a component expands to. -/
def Library.inside? (library : Library) (component : Component) : Option Schematic :=
  (library.get? component.definition).bind (·.inside)

/-- A schematic as it occurs in a circuit, with the ids of the components around it
from the outermost on. -/
structure Site where
  names : List String
  schematic : Schematic

/-- A schematic and all that its components expand to, at most `depth` levels deep. -/
def sites (library : Library) : (depth : Nat) → List String → Schematic → List Site
  | 0, _, _ => []
  | depth + 1, names, schematic =>
    ⟨names, schematic⟩ :: schematic.components.flatMap fun component =>
      match library.inside? component with
      | some inside => sites library depth (names ++ [component.id]) inside
      | none => []

/-- All that components expand to is laid out within `depth` levels. -/
def Schematic.Unfolds (library : Library) : (depth : Nat) → Schematic → Prop
  | 0, _ => False
  | depth + 1, schematic => ∀ component ∈ schematic.components, ∀ inside,
    library.inside? component = some inside → Unfolds library depth inside

/-- The sites of a circuit. -/
def Schematic.sites (library : Library) (schematic : Schematic) : List Site :=
  Breadboard.sites library (library.entries.length + 1) [] schematic

/-- What names can be relied on for: ids differ and contain no separator, and so do the
ids that boundary ports show. -/
structure Schematic.Named (schematic : Schematic) : Prop where
  components : (schematic.components.map (·.id)).Nodup
  wires : (schematic.wires.map (·.id)).Nodup
  exposed : ((Library.boundaryPorts schematic).map (·.id)).Nodup
  component : ∀ component ∈ schematic.components, Path.separator ∉ component.id.toList
  wire : ∀ wire ∈ schematic.wires, Path.separator ∉ wire.id.toList

instance (schematic : Schematic) : Decidable schematic.Named :=
  decidable_of_iff ((schematic.components.map (·.id)).Nodup ∧ (schematic.wires.map (·.id)).Nodup ∧
    ((Library.boundaryPorts schematic).map (·.id)).Nodup ∧
    (∀ component ∈ schematic.components, Path.separator ∉ component.id.toList) ∧
    ∀ wire ∈ schematic.wires, Path.separator ∉ wire.id.toList)
    ⟨fun ⟨h₁, h₂, h₃, h₄, h₅⟩ => ⟨h₁, h₂, h₃, h₄, h₅⟩, fun ⟨h₁, h₂, h₃, h₄, h₅⟩ =>
      ⟨h₁, h₂, h₃, h₄, h₅⟩⟩

/-- Every port of an expanded component is wired. -/
def Schematic.Connected (library : Library) (schematic : Schematic) : Prop :=
  ∀ component ∈ schematic.components, ∀ inside, library.inside? component = some inside →
    ∀ decl ∈ Library.boundaryPorts inside, ∃ wire ∈ schematic.wires,
      (⟨component.id, decl.id⟩ : Endpoint) ∈ wire.endpoints

instance (library : Library) (schematic : Schematic) : Decidable (schematic.Connected library) :=
  inferInstanceAs (Decidable (∀ component ∈ schematic.components,
    ∀ inside ∈ library.inside? component, ∀ decl ∈ Library.boundaryPorts inside,
      ∃ wire ∈ schematic.wires, (⟨component.id, decl.id⟩ : Endpoint) ∈ wire.endpoints))

namespace Library

/-- The schematic of the outer definition has a component of the inner one. -/
def Contains (library : Library) (outer inner : String) : Prop :=
  ∃ entry inside, library.get? outer = some entry ∧ entry.inside = some inside ∧
    ∃ component ∈ inside.components, component.definition = inner

/-- No definition contains itself, at whatever depth. -/
def Acyclic (library : Library) : Prop :=
  ∀ id, ¬ Relation.TransGen library.Contains id id

variable {library : Library}

/-- Where every definition is of a higher rank than what it is made of, none contains
itself. -/
theorem acyclic_of_rank (rank : String → Nat)
    (h : ∀ entry ∈ library.entries, ∀ inside ∈ entry.inside, ∀ component ∈ inside.components,
      rank component.definition < rank entry.definition.id) : library.Acyclic := by
  have hstep : ∀ outer inner, library.Contains outer inner → rank inner < rank outer := by
    rintro outer inner ⟨entry, inside, hentry, hinside, component, hmem, rfl⟩
    have hid : entry.definition.id = outer := by simpa using List.find?_some hentry
    exact hid ▸ h entry (List.mem_of_find?_eq_some hentry) inside hinside component hmem
  have hchain : ∀ outer inner, Relation.TransGen library.Contains outer inner →
      rank inner < rank outer := by
    intro outer inner hchain
    induction hchain with
    | single hcontains => exact hstep _ _ hcontains
    | tail _ hcontains ih => exact Nat.lt_trans (hstep _ _ hcontains) ih
  exact fun id hself => Nat.lt_irrefl _ (hchain id id hself)

/-- Definitions nested in each other are different ones, so that there is a level for
each of them. -/
theorem Acyclic.unfolds_inside (h : library.Acyclic) : ∀ (depth : Nat) (around : List String)
    (schematic : Schematic),
    around.Pairwise (fun inner outer => Relation.TransGen library.Contains outer inner) →
    (∀ id ∈ around, id ∈ library.entries.map (·.definition.id)) →
    (∀ id ∈ around, ∀ component ∈ schematic.components,
      Relation.TransGen library.Contains id component.definition) →
    library.entries.length < depth + around.length → schematic.Unfolds library depth := by
  intro depth
  induction depth with
  | zero =>
    intro around schematic hnested hknown _ hlength
    have hnodup : around.Nodup := hnested.imp fun {inner outer} hinner heq => by
      subst heq
      exact h inner hinner
    have hle := hnodup.length_le_of_subset hknown
    rw [List.length_map] at hle
    omega
  | succ depth ih =>
    intro around schematic hnested hknown hcontains hlength component hmem inside hinside
    obtain ⟨entry, hentry, hexpand⟩ := Option.bind_eq_some_iff.mp hinside
    have hinner : ∀ inner ∈ inside.components,
        library.Contains component.definition inner.definition := fun inner hinner =>
      ⟨entry, inside, hentry, hexpand, inner, hinner, rfl⟩
    refine ih (component.definition :: around) inside
      (List.pairwise_cons.mpr ⟨fun outer houter => hcontains outer houter component hmem, hnested⟩)
      (List.forall_mem_cons.mpr ⟨?_, hknown⟩) (List.forall_mem_cons.mpr ⟨?_, ?_⟩) ?_
    · refine List.mem_map.mpr ⟨entry, List.mem_of_find?_eq_some hentry, ?_⟩
      simpa using List.find?_some hentry
    · exact fun inner hmem' => .single (hinner inner hmem')
    · exact fun outer houter inner hmem' =>
        (hcontains outer houter component hmem).tail (hinner inner hmem')
    · rw [List.length_cons]
      omega

/-- As many levels as flattening provides are enough. -/
theorem Acyclic.unfolds (h : library.Acyclic) (schematic : Schematic) :
    schematic.Unfolds library (library.entries.length + 1) :=
  h.unfolds_inside _ [] schematic .nil (by simp) (by simp) (by simp)

end Library

namespace Schematic

variable {schematic : Schematic} {component other : Component}

theorem find?_eq_of_mem (hnodup : (schematic.components.map (·.id)).Nodup)
    (h : component ∈ schematic.components) : schematic.find? component.id = some component := by
  cases hfind : schematic.find? component.id with
  | none =>
    have hne := List.find?_eq_none.mp hfind component h
    simp at hne
  | some found =>
    have hid : found.id = component.id := by simpa using List.find?_some hfind
    rw [List.inj_on_of_nodup_map hnodup (List.mem_of_find?_eq_some hfind) h hid]

end Schematic

section

variable {library : Library} {schematic inside : Schematic} {site other : Site}
  {component : Component} {depth : Nat} {names rest : List String}

/-- The sites inside a component. -/
def childSites (library : Library) (depth : Nat) (names : List String) (component : Component) :
    List Site :=
  match library.inside? component with
  | some inside => sites library depth (names ++ [component.id]) inside
  | none => []

theorem sites_succ (depth : Nat) (names : List String) (schematic : Schematic) :
    sites library (depth + 1) names schematic =
      ⟨names, schematic⟩ :: schematic.components.flatMap (childSites library depth names) := rfl

theorem mem_sites_succ : site ∈ sites library (depth + 1) names schematic ↔
    site = ⟨names, schematic⟩ ∨ ∃ component ∈ schematic.components, ∃ inside,
      library.inside? component = some inside ∧
        site ∈ sites library depth (names ++ [component.id]) inside := by
  rw [sites, List.mem_cons, List.mem_flatMap]
  refine or_congr_right (exists_congr fun component => and_congr_right fun _ => ?_)
  cases library.inside? component <;> simp

theorem names_of_mem_sites : ∀ {depth : Nat} {names : List String} {schematic : Schematic},
    site ∈ sites library depth names schematic → ∃ rest, site.names = names ++ rest := by
  intro depth
  induction depth with
  | zero => exact fun h => nomatch h
  | succ depth ih =>
    intro names schematic h
    rcases mem_sites_succ.mp h with rfl | ⟨component, -, inside, -, h⟩
    · exact ⟨[], (List.append_nil _).symm⟩
    · obtain ⟨rest, hnames⟩ := ih h
      exact ⟨component.id :: rest, by simp [hnames]⟩

/-- No two sites have the same ids around them. -/
theorem nodup_sites : ∀ {depth : Nat} {names : List String} {schematic : Schematic},
    (∀ site ∈ sites library depth names schematic,
      (site.schematic.components.map (·.id)).Nodup) →
    ((sites library depth names schematic).map (·.names)).Nodup := by
  intro depth
  induction depth with
  | zero => exact fun _ => List.nodup_nil
  | succ depth ih =>
    intro names schematic hnodup
    have hself := hnodup _ (mem_sites_succ.mpr (Or.inl rfl))
    have hbelow : ∀ component ∈ schematic.components,
        ∀ below ∈ childSites library depth names component,
          ∃ rest, below.names = names ++ component.id :: rest := by
      intro component _ below hbelow
      unfold childSites at hbelow
      split at hbelow
      · obtain ⟨rest, hnames⟩ := names_of_mem_sites hbelow
        exact ⟨rest, by rw [hnames, List.append_assoc, List.singleton_append]⟩
      · cases hbelow
    rw [sites_succ, List.map_cons, List.nodup_cons, List.map_flatMap, List.nodup_flatMap]
    refine ⟨fun hmem => ?_, fun component hmem => ?_, ?_⟩
    · obtain ⟨component, hmem, hnames⟩ := List.mem_flatMap.mp hmem
      obtain ⟨below, hsite, hnames⟩ := List.mem_map.mp hnames
      obtain ⟨rest, hrest⟩ := hbelow component hmem below hsite
      have hlength := congrArg List.length (hnames.symm.trans hrest)
      simp at hlength
    · unfold childSites
      cases hinside : library.inside? component with
      | none => exact List.nodup_nil
      | some inside =>
        exact ih fun site hsite => hnodup site
          (mem_sites_succ.mpr (Or.inr ⟨component, hmem, inside, hinside, hsite⟩))
    · refine (List.pairwise_map.mp hself).imp_of_mem fun {first second} hfirst hsecond hne => ?_
      intro shared hmem hmem'
      obtain ⟨below, hsite, rfl⟩ := List.mem_map.mp hmem
      obtain ⟨below', hsite', hsame⟩ := List.mem_map.mp hmem'
      obtain ⟨rest, hrest⟩ := hbelow first hfirst below hsite
      obtain ⟨rest', hrest'⟩ := hbelow second hsecond below' hsite'
      rw [hrest, hrest', List.append_cancel_left_eq, List.cons.injEq] at hsame
      exact hne hsame.1.symm

/-- Every site but the first is what a component of another one expands to. -/
theorem around_of_mem_sites : ∀ {depth : Nat} {names : List String} {schematic : Schematic},
    site ∈ sites library depth names schematic → site = ⟨names, schematic⟩ ∨
      ∃ outer ∈ sites library depth names schematic, ∃ component ∈ outer.schematic.components,
        library.inside? component = some site.schematic ∧
          site.names = outer.names ++ [component.id] := by
  intro depth
  induction depth with
  | zero => exact fun h => nomatch h
  | succ depth ih =>
    intro names schematic h
    rcases mem_sites_succ.mp h with rfl | ⟨component, hmem, inside, hinside, h⟩
    · exact Or.inl rfl
    · refine Or.inr ?_
      rcases ih h with rfl | ⟨outer, houter, found, hfound⟩
      · exact ⟨_, mem_sites_succ.mpr (Or.inl rfl), component, hmem, hinside, rfl⟩
      · exact ⟨outer, mem_sites_succ.mpr (Or.inr ⟨component, hmem, inside, hinside, houter⟩), found,
          hfound⟩

/-- The names around a site are ids of components. -/
theorem separator_of_mem_sites : ∀ {depth : Nat} {names : List String} {schematic : Schematic},
    (∀ site ∈ sites library depth names schematic, ∀ component ∈ site.schematic.components,
      Path.separator ∉ component.id.toList) →
    (∀ name ∈ names, Path.separator ∉ name.toList) →
    site ∈ sites library depth names schematic →
    ∀ name ∈ site.names, Path.separator ∉ name.toList := by
  intro depth
  induction depth with
  | zero => exact fun _ _ h => nomatch h
  | succ depth ih =>
    intro names schematic hfree hnames h
    rcases mem_sites_succ.mp h with rfl | ⟨component, hmem, inside, hinside, h⟩
    · exact hnames
    · refine ih (fun site hsite => hfree site
        (mem_sites_succ.mpr (Or.inr ⟨component, hmem, inside, hinside, hsite⟩))) ?_ h
      intro name hname
      rcases List.mem_append.mp hname with hname | hname
      · exact hnames name hname
      · rw [List.mem_singleton.mp hname]
        exact hfree _ (mem_sites_succ.mpr (Or.inl rfl)) component hmem

end

/-! ## Inlining -/

namespace Site

/-- The path of something at a site. -/
def path (site : Site) (id : String) : Path :=
  Path.within (Path.ofNames site.names) id

/-- Whether a component is there when the hierarchy is removed. -/
def keeps (library : Library) (site : Site) (component : Component) : Bool :=
  (library.inside? component).isNone &&
    (site.names.isEmpty || component.definition ≠ Boundary.definition)

/-- A component under its path. -/
def leaf (site : Site) (component : Component) : Component :=
  { component with id := (site.path component.id).text }

/-- The components that are left of a site. -/
def components (library : Library) (site : Site) : List Component :=
  (site.schematic.components.filter (site.keeps library)).map site.leaf

/-- The pin of a boundary port, seen from outside. -/
def exposed? (site : Site) (endpoint : Endpoint) : Option Endpoint :=
  match Path.ofNames site.names, site.schematic.find? endpoint.component with
  | some around, some component =>
    if component.definition = Boundary.definition ∧ endpoint.port = Boundary.innerPin then
      some ⟨around.text, (Boundary.outerDecl component.args component.id).id⟩
    else none
  | _, _ => none

/-- One end of a wire, the same for wires on both sides of a boundary. -/
def terminal (site : Site) (endpoint : Endpoint) : Endpoint :=
  (site.exposed? endpoint).getD ⟨(site.path endpoint.component).text, endpoint.port⟩

/-- A wire under its path. -/
def segment (site : Site) (wire : Wire) : Wire :=
  ⟨(site.path wire.id).text, wire.endpoints.map site.terminal⟩

/-- The wires of a site. -/
def segments (site : Site) : List Wire :=
  site.schematic.wires.map site.segment

end Site

/-- The ends of all wires that one is connected with. -/
def connection (segments : List Wire) (index : Nat) : List Endpoint :=
  (reach (fun wire => (touching segments).getD wire []) segments.length index).flatMap fun other =>
    segments[other]?.toList.flatMap (·.endpoints)

namespace Schematic

/-- The components of all sites that are left. -/
def leaves (library : Library) (schematic : Schematic) : List Component :=
  (schematic.sites library).flatMap (·.components library)

/-- The wires of all sites. -/
def segments (library : Library) (schematic : Schematic) : List Wire :=
  (schematic.sites library).flatMap (·.segments)

/-- The circuit without hierarchy. -/
def inlined (library : Library) (schematic : Schematic) : Schematic where
  components := schematic.leaves library
  wires := (schematic.segments library).mapIdx fun index segment =>
    ⟨segment.id, (connection (schematic.segments library) index).filter fun endpoint =>
      (schematic.leaves library).any (·.id = endpoint.component)⟩

end Schematic

end Breadboard
