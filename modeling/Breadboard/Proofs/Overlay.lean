import Breadboard.Proofs.Outside
import Breadboard.Proofs.Embedded

/-!
# A circuit with and without an expansion

The schematic that a definition is registered with is laid out wherever the definition
is placed. Here a circuit is laid out twice, with the schematic and without, and all
that is marked as standing outside of it goes in step (`Overlaid`): parts and nets stand
in the same order, and a net lists the same ports as drivers. If the definition is
valid itself, the only trace that its schematic leaves outside is a reader, the outer
side of a boundary port, behind a port of the definition (`Overlaid.listen`).

All this holds as long as nothing is reported (`overlaid_flatten`). A net that has no
width yet may get one from such a reader, so that nets of width 0 are told apart only by
what drives them (`NetOver.narrow`).
-/

namespace Breadboard

/-- The marks of all parts and nets. -/
structure Marking where
  parts : List Bool
  nets : List Bool

/-- What stands outside of the schematic of the definition `id`. -/
def Schematic.marking (library : Library) (id : String) (schematic : Schematic) : Marking :=
  ⟨schematic.partsOutside library id, schematic.netsOutside library id⟩

/-- Where the marked parts and nets stand. -/
noncomputable def Marking.onto (m : Marking) : Embedding :=
  ⟨litAt m.parts, litAt m.nets⟩

/-- Two scopes of the same path. -/
structure SameScope (first second : List Scope) (scope scope' : Nat) : Prop where
  lt : scope < first.length
  lt' : scope' < second.length
  path : scopePath first scope = scopePath second scope'

/-- A part and where it stands in the circuit with the schematic. -/
structure PartOver (m : Marking) (plain nested : Netlist) (placed host : Part) : Prop where
  id : host.id = placed.id
  device : host.device = placed.device
  phases : host.phases = placed.phases
  valid : host.valid = placed.valid
  ports : host.ports = placed.ports.map m.onto.port
  scope : SameScope plain.scopes nested.scopes placed.scope host.scope

/-- A net and where it stands in the circuit with the schematic. -/
structure NetOver (m : Marking) (plain nested : Netlist) (joined host : Net) : Prop where
  sources : host.sources = joined.sources.map m.onto.ref
  targets : ∀ ref, m.onto.ref ref ∈ host.targets ↔ ref ∈ joined.targets
  tristate : host.tristate = joined.tristate
  width : joined.width ≠ 0 → host.width = joined.width
  narrow : joined.width = 0 → ∀ ref ∈ joined.sources, ∀ decl, plain.decl? ref = some decl →
    decl.width = 0
  wires : host.wires = joined.wires
  scope : SameScope plain.scopes nested.scopes joined.scope host.scope

/-- What is marked in the circuit with the schematic is the circuit without it. -/
structure Overlaid (m : Marking) (plain nested : Netlist) : Prop where
  parts : Nat.count (Lit m.parts) nested.parts.length = plain.parts.length
  nets : Nat.count (Lit m.nets) nested.nets.length = plain.nets.length
  part : ∀ {p : Nat} {placed : Part}, plain.parts[p]? = some placed → ∃ host,
    nested.parts[m.onto.part p]? = some host ∧ PartOver m plain nested placed host
  net : ∀ {n : Nat} {joined : Net}, plain.nets[n]? = some joined → ∃ host,
    nested.nets[m.onto.net n]? = some host ∧ NetOver m plain nested joined host
  dark : ∀ {index : Nat} {ref : PortRef}, nested.Lists index ref → ¬ Lit m.nets index →
    ¬ Lit m.parts ref.part
  bound : ∀ {ref : PortRef} {port : Port} {n : Nat}, plain.port? ref = some port →
    port.net = some n → n < plain.nets.length
  listed : plain.Placed
  silent : plain.diagnostics = []

variable {m : Marking} {plain nested plain' nested' : Netlist} {p q n index scope scope' : Nat}
  {ref other : PortRef} {joined host : Net} {asSource : Bool}

theorem SameScope.append {first second : List Scope} (h : SameScope first second scope scope')
    (more more' : List Scope) : SameScope (first ++ more) (second ++ more') scope scope' :=
  ⟨by rw [List.length_append]; exact Nat.lt_add_right _ h.lt,
    by rw [List.length_append]; exact Nat.lt_add_right _ h.lt',
    by rw [scopePath_append _ _ h.lt, scopePath_append _ _ h.lt', h.path]⟩

theorem SameScope.localPath_eq {first second : List Scope} (h : SameScope first second scope scope')
    (id : String) : localPath first scope id = localPath second scope' id := by
  rw [Breadboard.localPath_eq, Breadboard.localPath_eq, h.path]

theorem Marking.ref_injective (m : Marking) : Function.Injective m.onto.ref := by
  rintro ⟨part, port⟩ ⟨part', port'⟩ heq
  obtain ⟨hpart, rfl⟩ := PortRef.mk.inj heq
  exact congrArg (PortRef.mk · _) ((strictMono_litAt m.parts).injective hpart)

theorem Marking.ne_of_dark (h : ¬ Lit m.parts other.part) : m.onto.ref ref ≠ other :=
  fun heq => h (congrArg PortRef.part heq ▸ lit_litAt m.parts ref.part)

theorem getElem?_concat {α : Type} {list : List α} {a b : α}
    (h : (list ++ [a])[index]? = some b) :
    index < list.length ∧ list[index]? = some b ∨ index = list.length ∧ b = a := by
  rw [List.getElem?_append] at h
  split at h
  · next hlt => exact .inl ⟨hlt, h⟩
  · next hge =>
    have hlt := (List.getElem?_eq_some_iff.mp h).1
    rw [List.length_singleton] at hlt
    exact .inr ⟨by omega, List.mem_singleton.mp (List.mem_of_getElem? h)⟩

theorem PartOver.attach {placed host : Part} (h : PartOver m plain nested placed host)
    (port n : Nat) :
    PartOver m plain nested (placed.attach port n) (host.attach port (m.onto.net n)) where
  id := h.id
  device := h.device
  phases := h.phases
  valid := h.valid
  ports := by
    have hport : ∀ found : Port,
        m.onto.port (found.attach n) = (m.onto.port found).attach (m.onto.net n) := fun _ => rfl
    rw [Part.ports_attach, h.ports]
    exact (map_modify hport placed.ports port).symm
  scope := h.scope

theorem NetOver.attached (h : NetOver m plain nested joined host) (index index' : Nat)
    (other other' : PortRef) (wide wide' : Net) :
    NetOver m (plain.attached index other wide) (nested.attached index' other' wide') joined host :=
  { h with
    narrow := fun hzero source hsource decl hdecl => h.narrow hzero source hsource decl
      (by rwa [Netlist.decl?_congr (Netlist.outline_attached ..)] at hdecl) }

/-- A port is attached to both nets. A net without a width has only drivers without one. -/
theorem NetOver.attach {port : Port} (h : NetOver m plain nested joined host)
    (hport : plain.port? ref = some port) (hwidth : host.width = 0 ∨ host.width = port.width) :
    NetOver m plain nested (joined.attach ref asSource port)
      (host.attach (m.onto.ref ref) asSource port) where
  sources := by
    simp only [Net.attach]
    split
    · rw [List.map_append, h.sources]
      rfl
    · exact h.sources
  targets other := by
    rw [Net.mem_targets_attach, Net.mem_targets_attach, h.targets, m.ref_injective.eq_iff]
  tristate := congrArg (· || port.type.tristate) h.tristate
  width _ := rfl
  narrow hzero other hother decl hdecl := by
    rcases Net.mem_sources_attach.mp hother with hother | ⟨rfl, -⟩
    · have hnone : joined.width = 0 := by
        by_contra hne
        exact hne ((h.width hne).symm.trans (hwidth.elim id (·.trans hzero)))
      exact h.narrow hnone other hother decl hdecl
    · rw [Netlist.decl?, hport] at hdecl
      exact Option.some.inj hdecl ▸ hzero
  wires := h.wires
  scope := h.scope

namespace Overlaid

section

variable (h : Overlaid m plain nested)

include h

theorem part_lt_iff : m.onto.part p < nested.parts.length ↔ p < plain.parts.length := by
  rw [← h.parts]
  exact litAt_lt_iff

theorem net_lt_iff : m.onto.net n < nested.nets.length ↔ n < plain.nets.length := by
  rw [← h.nets]
  exact litAt_lt_iff

/-- A marked part comes where the next part of the inner circuit comes. -/
theorem part_next (hlit : Lit m.parts nested.parts.length) :
    m.onto.part plain.parts.length = nested.parts.length := by
  rw [← h.parts]
  exact litAt_count hlit

theorem net_next (hlit : Lit m.nets nested.nets.length) :
    m.onto.net plain.nets.length = nested.nets.length := by
  rw [← h.nets]
  exact litAt_count hlit

theorem part_none (hnone : plain.parts[p]? = none) : nested.parts[m.onto.part p]? = none := by
  rw [List.getElem?_eq_none_iff, ← Nat.not_lt] at hnone ⊢
  exact mt h.part_lt_iff.mp hnone

theorem port? (ref : PortRef) :
    nested.port? (m.onto.ref ref) = (plain.port? ref).map m.onto.port := by
  rw [Netlist.port?, Netlist.port?, Embedding.ref]
  cases hplaced : plain.parts[ref.part]? with
  | none => rw [h.part_none hplaced]; rfl
  | some placed =>
    obtain ⟨host, hhost, hover⟩ := h.part hplaced
    simp [hhost, hover.ports]

theorem position? (p : Nat) (id : String) :
    nested.position? (m.onto.part p) id = plain.position? p id := by
  rw [Netlist.position?, Netlist.position?]
  cases hplaced : plain.parts[p]? with
  | none => rw [h.part_none hplaced]
  | some placed =>
    obtain ⟨host, hhost, hover⟩ := h.part hplaced
    rw [hhost, Option.bind_some, Option.bind_some, Part.port?, Part.port?, hover.ports,
      List.findIdx?_map]
    rfl

theorem any_valid (p : Nat) :
    nested.parts[m.onto.part p]?.any (·.valid) = plain.parts[p]?.any (·.valid) := by
  cases hplaced : plain.parts[p]? with
  | none => rw [h.part_none hplaced]
  | some placed =>
    obtain ⟨host, hhost, hover⟩ := h.part hplaced
    rw [hhost, Option.any_some, Option.any_some, hover.valid]

/-! ## Scopes, parts and nets -/

theorem addScopes (more more' : List Scope) :
    Overlaid m { plain with scopes := plain.scopes ++ more }
      { nested with scopes := nested.scopes ++ more' } where
  parts := h.parts
  nets := h.nets
  part hplaced := by
    obtain ⟨host, hhost, hover⟩ := h.part hplaced
    exact ⟨host, hhost, { hover with scope := hover.scope.append more more' }⟩
  net hjoined := by
    obtain ⟨host, hhost, hover⟩ := h.net hjoined
    exact ⟨host, hhost, { hover with scope := hover.scope.append more more' }⟩
  dark := h.dark
  bound := h.bound
  listed := h.listed
  silent := h.silent

theorem addPart (hlit : Lit m.parts nested.parts.length)
    (hscope : SameScope plain.scopes nested.scopes scope scope') (component : Component)
    (assembly : Assembly) : Overlaid m (plain.addPart (assembly.toPart component scope))
      (nested.addPart (assembly.toPart component scope')) where
  parts := by
    simp only [Netlist.addPart, List.length_append, List.length_singleton, Nat.count_succ,
      if_pos hlit, h.parts]
  nets := h.nets
  part {p placed} hplaced := by
    rcases getElem?_concat hplaced with ⟨hlt, hplaced⟩ | ⟨rfl, rfl⟩
    · obtain ⟨host, hhost, hover⟩ := h.part hplaced
      refine ⟨host, ?_, { hover with }⟩
      exact (List.getElem?_append_left (h.part_lt_iff.mpr hlt)).trans hhost
    · refine ⟨assembly.toPart component scope', ?_, rfl, rfl, rfl, rfl, ?_, hscope⟩
      · rw [h.part_next hlit, Netlist.addPart, List.getElem?_concat_length]
      · simp [Assembly.toPart, Embedding.port, PortDecl.unbound]
  net hjoined := by
    obtain ⟨host, hhost, hover⟩ := h.net hjoined
    refine ⟨host, hhost, { hover with narrow := fun hzero ref href decl hdecl => ?_ }⟩
    refine hover.narrow hzero ref href decl ?_
    have hlt := h.listed _ ref ⟨_, hjoined, .inl href⟩
    rw [← hdecl, Netlist.decl?, Netlist.decl?, Netlist.port?, Netlist.port?, Netlist.addPart]
    dsimp only
    rw [List.getElem?_append_left hlt]
  dark := h.dark
  bound {ref port n} hport hbound := by
    obtain ⟨placed, hplaced, hfound⟩ := Option.bind_eq_some_iff.mp hport
    rcases getElem?_concat hplaced with ⟨-, hplaced⟩ | ⟨-, rfl⟩
    · exact h.bound (Option.bind_eq_some_iff.mpr ⟨placed, hplaced, hfound⟩) hbound
    · obtain ⟨decl, -, rfl⟩ := List.mem_map.mp (List.mem_of_getElem? hfound)
      cases hbound
  listed index ref hlists := by
    have hlt := h.listed index ref hlists
    simp only [Netlist.addPart, List.length_append]
    omega
  silent := h.silent

theorem addNet (hlit : Lit m.nets nested.nets.length)
    (hscope : SameScope plain.scopes nested.scopes scope scope') (wires : List String) :
    Overlaid m { plain with nets := plain.nets ++ [{ scope, wires }] }
      { nested with nets := nested.nets ++ [{ scope := scope', wires }] } where
  parts := h.parts
  nets := by
    simp only [List.length_append, List.length_singleton, Nat.count_succ, if_pos hlit, h.nets]
  part hplaced := by
    obtain ⟨host, hhost, hover⟩ := h.part hplaced
    exact ⟨host, hhost, { hover with }⟩
  net {n joined} hjoined := by
    rcases getElem?_concat hjoined with ⟨hlt, hjoined⟩ | ⟨rfl, rfl⟩
    · obtain ⟨host, hhost, hover⟩ := h.net hjoined
      refine ⟨host, ?_, { hover with }⟩
      exact (List.getElem?_append_left (h.net_lt_iff.mpr hlt)).trans hhost
    · refine ⟨{ scope := scope', wires }, ?_, rfl, by simp, rfl, fun hne => absurd rfl hne,
        by simp, rfl, hscope⟩
      rw [h.net_next hlit, List.getElem?_concat_length]
  dark hlists := h.dark (Netlist.lists_addNet hlists)
  bound hport hbound := by
    rw [List.length_append]
    exact Nat.lt_add_right _ (h.bound hport hbound)
  listed index ref hlists := h.listed index ref (Netlist.lists_addNet hlists)
  silent := h.silent

/-! ## Attaching -/

/-- A port is attached to a net on both sides. -/
theorem attach {port : Port} (hport : plain.port? ref = some port)
    (hjoined : plain.nets[n]? = some joined) (hhost : nested.nets[m.onto.net n]? = some host)
    (hwidth : host.width = 0 ∨ host.width = port.width) :
    Overlaid m (plain.attached n ref (joined.attach ref asSource port))
      (nested.attached (m.onto.net n) (m.onto.ref ref)
        (host.attach (m.onto.ref ref) asSource port)) := by
  have hn := (List.getElem?_eq_some_iff.mp hjoined).1
  have hn' := (List.getElem?_eq_some_iff.mp hhost).1
  refine ⟨?_, ?_, fun {p placed} hfound => ?_, fun {k found} hfound => ?_,
    fun {index other} hlisted hdark => ?_, fun {other port k} hport hbound => ?_,
    fun index other hlisted => ?_, h.silent⟩
  · rw [Netlist.length_parts_attached, Netlist.length_parts_attached, h.parts]
  · rw [Netlist.nets_attached, Netlist.nets_attached, List.length_set, List.length_set, h.nets]
  · rw [Netlist.parts_attached] at hfound
    obtain ⟨before, hbefore, rfl⟩ := Option.map_eq_some_iff.mp hfound
    obtain ⟨host', hhost', hover'⟩ := h.part hbefore
    have hsame : (m.onto.ref ref).part = m.onto.part p ↔ ref.part = p :=
      (strictMono_litAt m.parts).injective.eq_iff
    simp only [Netlist.parts_attached, hhost', hsame, Option.map_some]
    refine ⟨_, rfl, ?_⟩
    split
    · exact { hover'.attach ref.port n with }
    · exact { hover' with }
  · rcases Netlist.nets_attached_cases hn hfound with ⟨rfl, rfl⟩ | ⟨hk, hfound⟩
    · obtain ⟨host', hhost', hover⟩ := h.net hjoined
      obtain rfl := Option.some.inj (hhost.symm.trans hhost')
      exact ⟨_, List.getElem?_set_self hn', (hover.attach hport hwidth).attached ..⟩
    · obtain ⟨found', hfound', hover⟩ := h.net hfound
      have hne : m.onto.net n ≠ m.onto.net k := (strictMono_litAt m.nets).injective.ne hk.symm
      exact ⟨found', (List.getElem?_set_ne hne).trans hfound', hover.attached ..⟩
  · obtain ⟨net, hnet, hmem⟩ := hlisted
    have hne : m.onto.net n ≠ index := fun heq => hdark (heq ▸ lit_litAt m.nets n)
    rw [Netlist.nets_attached, List.getElem?_set_ne hne] at hnet
    exact h.dark ⟨net, hnet, hmem⟩ hdark
  · rw [Netlist.port_attached] at hport
    rw [Netlist.nets_attached, List.length_set]
    obtain ⟨found, hfound, rfl⟩ := Option.map_eq_some_iff.mp hport
    unfold Netlist.joined at hbound
    split at hbound
    · rw [← Option.some.inj hbound]
      exact hn
    · exact h.bound hfound hbound
  · rw [Netlist.length_parts_attached]
    obtain ⟨net, hnet, hmem⟩ := hlisted
    rcases Netlist.nets_attached_cases hn hnet with ⟨rfl, rfl⟩ | ⟨-, hnet⟩
    · rcases Net.listed_of_attach hmem with hmem | rfl
      · exact h.listed index other ⟨joined, hjoined, hmem⟩
      · obtain ⟨placed, hplaced, -⟩ := Netlist.part_of_port hport
        exact (List.getElem?_eq_some_iff.mp hplaced).1
    · exact h.listed index other ⟨net, hnet, hmem⟩

/-- What is attached in the circuit with the schematic can be attached without it: a net
that has a width there has the same here, or none. -/
theorem bind (hn : n < plain.nets.length)
    (hsilent : (nested.bind (m.onto.net n) (m.onto.ref ref) asSource).diagnostics = []) :
    Overlaid m (plain.bind n ref asSource)
      (nested.bind (m.onto.net n) (m.onto.ref ref) asSource) := by
  have hjoined := List.getElem?_eq_getElem hn
  generalize plain.nets[n] = joined at hjoined
  obtain ⟨host, hhost, hover⟩ := h.net hjoined
  cases hport : plain.port? ref with
  | none => simpa only [Netlist.bind, h.port?, hport, Option.map_none] using h
  | some port =>
    simp only [Netlist.bind, h.port?, hport, hhost, hjoined, Option.map_some, Embedding.port]
      at hsilent ⊢
    by_cases hopen : (!(asSource && port.type.output) && !port.type.input) = true
    · simpa only [if_pos hopen] using h
    · simp only [if_neg hopen] at hsilent ⊢
      by_cases hwidth : host.width ≠ 0 ∧ host.width ≠ port.width
      · simp only [if_pos hwidth] at hsilent
        exact absurd hsilent (by simp [Netlist.report])
      · have hwidth' : ¬ (joined.width ≠ 0 ∧ joined.width ≠ port.width) := by
          rintro ⟨hzero, hne⟩
          exact hwidth (hover.width hzero ▸ ⟨hzero, hne⟩)
        simp only [if_neg hwidth, if_neg hwidth']
        exact h.attach hport hjoined hhost (by omega)

/-- The outer side of a boundary port behind a valid component only listens. -/
theorem listen (hdark : ¬ Lit m.parts ref.part)
    (hplain : ∀ decl, nested.decl? ref = some decl → decl.type.tristate = false) :
    Overlaid m plain (nested.bind (m.onto.net n) ref false) := by
  rcases Netlist.bind_cases nested (m.onto.net n) ref false with
    ⟨_, heq⟩ | ⟨port, host, hport, hhost, -, hwidth, heq⟩
  · rw [heq]
    refine { h with part := fun hplaced => ?_, net := fun hjoined => ?_ }
    · obtain ⟨host, hhost, hover⟩ := h.part hplaced
      exact ⟨host, hhost, { hover with }⟩
    · obtain ⟨host, hhost, hover⟩ := h.net hjoined
      exact ⟨host, hhost, { hover with }⟩
  · have hn := h.net_lt_iff.mp (List.getElem?_eq_some_iff.mp hhost).1
    have hthrough : port.type.tristate = false :=
      hplain port.toPortDecl (by rw [Netlist.decl?, hport]; rfl)
    rw [heq]
    refine ⟨?_, ?_, fun {p placed} hplaced => ?_, fun {k joined} hjoined => ?_,
      fun {index other} hlisted hdark' => ?_, h.bound, h.listed, h.silent⟩
    · rw [Netlist.length_parts_attached, h.parts]
    · rw [Netlist.nets_attached, List.length_set, h.nets]
    · obtain ⟨found, hfound, hover⟩ := h.part hplaced
      have hne : ref.part ≠ m.onto.part p := fun heq => hdark (heq ▸ lit_litAt m.parts p)
      exact ⟨found, (Netlist.parts_attached_of_ne _ _ _ _ hne).trans hfound, { hover with }⟩
    · obtain ⟨found, hfound, hover⟩ := h.net hjoined
      by_cases hk : m.onto.net n = m.onto.net k
      · rw [← hk] at hfound ⊢
        obtain rfl := Option.some.inj (hhost.symm.trans hfound)
        refine ⟨_, List.getElem?_set_self (List.getElem?_eq_some_iff.mp hhost).1, hover.sources,
          fun other => ?_, ?_, fun hzero => ?_, hover.narrow, hover.wires, hover.scope⟩
        · rw [Net.mem_targets_attach, or_iff_left fun hsame => Marking.ne_of_dark hdark hsame.1,
            hover.targets]
        · simp only [Net.attach, hthrough, Bool.or_false, hover.tristate]
        · exact (hwidth.resolve_left (hover.width hzero ▸ hzero)).symm.trans (hover.width hzero)
      · exact ⟨found, (List.getElem?_set_ne hk).trans hfound, { hover with }⟩
    · obtain ⟨net, hnet, hmem⟩ := hlisted
      have hne : m.onto.net n ≠ index := fun heq => hdark' (heq ▸ lit_litAt m.nets n)
      rw [Netlist.nets_attached, List.getElem?_set_ne hne] at hnet
      exact h.dark ⟨net, hnet, hmem⟩ hdark'

/-- What is laid out apart, without marks, changes nothing. -/
theorem aside {next : Netlist} (haside : nested.Aside next)
    (hparts : nested.parts.length ≤ next.parts.length)
    (hnets : nested.nets.length ≤ next.nets.length)
    (hdark : ∀ q, nested.parts.length ≤ q → q < next.parts.length → ¬ Lit m.parts q)
    (hdark' : ∀ index, nested.nets.length ≤ index → index < next.nets.length →
      ¬ Lit m.nets index) : Overlaid m plain next := by
  obtain ⟨more, hmore⟩ := haside.scopes
  have hscope : ∀ {scope scope'}, SameScope plain.scopes nested.scopes scope scope' →
      SameScope plain.scopes next.scopes scope scope' := fun hscope => by
    simpa [hmore] using hscope.append [] more
  obtain ⟨parts, hparts⟩ := Nat.exists_eq_add_of_le hparts
  obtain ⟨nets, hnets⟩ := Nat.exists_eq_add_of_le hnets
  refine ⟨?_, ?_, fun {p placed} hplaced => ?_, fun {k joined} hjoined => ?_,
    fun {index other} hlisted hunlit => ?_, h.bound, h.listed, h.silent⟩
  · rw [hparts, count_dark fun q hle hlt => hdark q hle (hparts ▸ hlt), h.parts]
  · rw [hnets, count_dark fun index hle hlt => hdark' index hle (hnets ▸ hlt), h.nets]
  · obtain ⟨host, hhost, hover⟩ := h.part hplaced
    refine ⟨host, ?_, { hover with scope := hscope hover.scope }⟩
    rw [haside.parts _ (List.getElem?_eq_some_iff.mp hhost).1, hhost]
  · obtain ⟨host, hhost, hover⟩ := h.net hjoined
    refine ⟨host, ?_, { hover with scope := hscope hover.scope }⟩
    rw [haside.nets _ (List.getElem?_eq_some_iff.mp hhost).1, hhost]
  · rcases Nat.lt_or_ge index nested.nets.length with hlt | hge
    · refine h.dark ?_ hunlit
      obtain ⟨net, hnet, hmem⟩ := hlisted
      exact ⟨net, (haside.nets index hlt).symm.trans hnet, hmem⟩
    · obtain ⟨hle, hlt⟩ := haside.lists hge hlisted
      exact hdark other.part hle hlt

end

end Overlaid

end Breadboard
