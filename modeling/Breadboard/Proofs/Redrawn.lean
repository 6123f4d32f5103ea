import Breadboard.Proofs.Drawing
import Breadboard.Proofs.Renumbered
import Breadboard.Proofs.Tandem

/-!
# The order of a drawing does not matter

A circuit of built-in components is drawn again in another order. The parts of
both circuits are those of the same components, and their nets those of the same
wires (`Redrawing.exists_embedding`), so that one circuit is the other one
numbered in another way. Run side by side, they show the same at every path
(`start_rearranged`).
-/

namespace Breadboard

/-- The parts that two drawings make of one component. -/
def Redrawn (outer inner : Netlist) (root root' : Spot) (p q : Nat) : Prop :=
  ∃ component placed placed', Located .builtin inner [root'] root' component placed ∧
    Located .builtin outer [root] root component placed' ∧ placed.part = p ∧ placed'.part = q

/-- Two drawings of a circuit: `inner` is drawn from `other`, and `outer`, which is
static, from `schematic`. -/
structure Redrawing (schematic other : Schematic) (outer inner : Netlist) (root root' : Spot)
    (place : Nat → Nat) : Prop where
  drawing : Drawing .builtin schematic outer root
  drawing' : Drawing .builtin other inner root'
  components : schematic.components.Perm other.components
  reorders : Reorders schematic.wires other.wires place
  flat : outer.Flat
  flat' : inner.Flat
  paired : ∀ ref, outer.Paired ref
  paired' : ∀ ref, inner.Paired ref
  wide : ∀ part ∈ outer.parts, ∀ port ∈ part.ports, 1 ≤ port.width

namespace Redrawing

variable {schematic other : Schematic} {outer inner : Netlist} {root root' : Spot}
  {place : Nat → Nat} {p q k : Nat} {ref : PortRef} {group' : List Nat} {e : Embedding}

/-- Parts are sent to those of the same components, and nets to those of the same
wires. -/
structure Follows (schematic other : Schematic) (outer inner : Netlist) (root root' : Spot)
    (place : Nat → Nat) (e : Embedding) : Prop where
  part : ∀ p < inner.parts.length, Redrawn outer inner root root' p (e.part p)
  net : ∀ {k : Nat} {group' : List Nat}, (wireGroups other.wires)[k]? = some group' →
    ∃ group, (wireGroups schematic.wires)[e.net k]? = some group ∧
      Reorders.Matches place group' group
  net_inj : ∀ k < inner.nets.length, ∀ l < inner.nets.length, e.net k = e.net l → k = l
  net_onto : ∀ l < outer.nets.length, ∃ k < inner.nets.length, e.net k = l

variable (h : Redrawing schematic other outer inner root root' place)

include h

theorem exists_twin (hp : p < inner.parts.length) : ∃ q, Redrawn outer inner root root' p q := by
  obtain ⟨spot, component, placed, hlocated, rfl⟩ := h.drawing'.chart.locate hp
  obtain rfl := List.mem_singleton.mp hlocated.listed
  have hmem : component ∈ schematic.components :=
    h.components.mem_iff.mpr (h.drawing'.drawn ▸ hlocated.drawn)
  obtain ⟨placed', hlocated'⟩ := h.drawing.chart.host (List.mem_singleton_self root)
    (h.drawing.drawn.symm ▸ hmem)
  exact ⟨placed'.part, component, placed, placed', hlocated, hlocated', rfl, rfl⟩

theorem exists_source (hq : q < outer.parts.length) :
    ∃ p < inner.parts.length, Redrawn outer inner root root' p q := by
  obtain ⟨spot, component, placed', hlocated', rfl⟩ := h.drawing.chart.locate hq
  obtain rfl := List.mem_singleton.mp hlocated'.listed
  have hmem : component ∈ other.components :=
    h.components.mem_iff.mp (h.drawing.drawn ▸ hlocated'.drawn)
  obtain ⟨placed, hlocated⟩ := h.drawing'.chart.host (List.mem_singleton_self root')
    (h.drawing'.drawn.symm ▸ hmem)
  obtain ⟨_, _, part, -, -, hpart, -⟩ := hlocated.madeOf
  exact ⟨placed.part, (List.getElem?_eq_some_iff.mp hpart).1, component, placed, placed', hlocated,
    hlocated', rfl, rfl⟩

theorem eq_iff {p' q' : Nat} (htwin : Redrawn outer inner root root' p q)
    (htwin' : Redrawn outer inner root root' p' q') : p = p' ↔ q = q' := by
  obtain ⟨component, placed, placed', hlocated, hlocated', rfl, rfl⟩ := htwin
  obtain ⟨component', other, other', hother, hother', rfl, rfl⟩ := htwin'
  constructor
  · intro heq
    obtain ⟨-, rfl⟩ := h.drawing'.chart.eq_of_part hlocated hother heq
    rw [hlocated'.placed_eq hother']
  · intro heq
    obtain ⟨-, rfl⟩ := h.drawing.chart.eq_of_part hlocated' hother' heq
    rw [hlocated.placed_eq hother]

theorem exists_embedding :
    ∃ e, Follows schematic other outer inner root root' place e := by
  have hexists : ∀ p : Nat, ∃ q : Nat, p < inner.parts.length → Redrawn outer inner root root' p q := by
    intro p
    by_cases hp : p < inner.parts.length
    · obtain ⟨q, hq⟩ := h.exists_twin hp
      exact ⟨q, fun _ => hq⟩
    · exact ⟨0, fun hlt => absurd hlt hp⟩
  choose part hpart using hexists
  obtain ⟨net, hnet, hinj, honto⟩ := h.reorders.exists_groups
  refine ⟨⟨part, net⟩, hpart, hnet, ?_, ?_⟩
  · rw [h.drawing'.length]
    exact hinj
  · rw [h.drawing.length, h.drawing'.length]
    exact honto

/-! ## Parts and nets -/

omit h in
theorem madeOf (htwin : Redrawn outer inner root root' p q) : ∃ assembly placed host,
    inner.parts[p]? = some placed ∧ outer.parts[q]? = some host ∧ placed.MadeOf assembly ∧
      host.MadeOf assembly := by
  obtain ⟨component, _, _, hlocated, hlocated', rfl, rfl⟩ := htwin
  obtain ⟨entry, assembly, placed, hentry, hassemble, hplaced, hmade, -⟩ := hlocated.madeOf
  obtain ⟨entry', assembly', host, hentry', hassemble', hhost, hmade', -⟩ := hlocated'.madeOf
  obtain rfl := Option.some.inj (hentry.symm.trans hentry')
  obtain rfl := Except.ok.inj (hassemble.symm.trans hassemble')
  exact ⟨assembly, placed, host, hplaced, hhost, hmade, hmade'⟩

omit h in
theorem decl?_eq (htwin : Redrawn outer inner root root' p q) (port : Nat) :
    outer.decl? ⟨q, port⟩ = inner.decl? ⟨p, port⟩ := by
  obtain ⟨assembly, placed, host, hplaced, hhost, hmade, hmade'⟩ := madeOf htwin
  rw [Netlist.decl?_of_madeOf hhost hmade', Netlist.decl?_of_madeOf hplaced hmade]

omit h in
theorem position?_eq (htwin : Redrawn outer inner root root' p q) (id : String) :
    outer.position? q id = inner.position? p id := by
  obtain ⟨assembly, placed, host, hplaced, hhost, hmade, hmade'⟩ := madeOf htwin
  rw [position?_of_madeOf hhost hmade', position?_of_madeOf hplaced hmade]

/-- An end of a wire stands for ports of twins. -/
theorem attached_iff (htwin : Redrawn outer inner root root' p q) {port : Nat} {asSource : Bool}
    {endpoint : Endpoint} :
    (⟨q, port⟩, asSource) ∈ outer.attachments root.placements endpoint ↔
      (⟨p, port⟩, asSource) ∈ inner.attachments root'.placements endpoint := by
  obtain ⟨component, placed, placed', hlocated, hlocated', rfl, rfl⟩ := id htwin
  have hinside := h.drawing'.plain component (h.drawing'.drawn ▸ hlocated.drawn)
  constructor
  · intro hmem
    obtain ⟨found, hosted, hfound, hend⟩ := h.drawing.chart.component_of_end
      (List.mem_singleton_self root) (List.ne_nil_of_mem hmem)
    have hplain := h.drawing.plain found (h.drawing.drawn ▸ hfound.drawn)
    rw [hend] at hmem ⊢
    obtain ⟨rfl, hpart, hposition⟩ := (hfound.mem_attachments_plain hplain).mp hmem
    obtain ⟨-, rfl⟩ := h.drawing.chart.eq_of_part hlocated' hfound hpart
    rw [← hpart, position?_eq htwin] at hposition
    exact (hlocated.mem_attachments_plain hinside).mpr ⟨rfl, rfl, hposition⟩
  · intro hmem
    obtain ⟨found, hosted, hfound, hend⟩ := h.drawing'.chart.component_of_end
      (List.mem_singleton_self root') (List.ne_nil_of_mem hmem)
    have hplain := h.drawing'.plain found (h.drawing'.drawn ▸ hfound.drawn)
    rw [hend] at hmem ⊢
    obtain ⟨rfl, hpart, hposition⟩ := (hfound.mem_attachments_plain hplain).mp hmem
    obtain ⟨-, rfl⟩ := h.drawing'.chart.eq_of_part hlocated hfound hpart
    rw [← hpart, ← position?_eq htwin] at hposition
    exact (hlocated'.mem_attachments_plain hinside).mpr ⟨rfl, rfl, hposition⟩

variable (hfollows : Follows schematic other outer inner root root' place e)

include hfollows

/-- A net and its image, with the groups of wires that they are. -/
theorem joined (hk : k < inner.nets.length) : ∃ group' group net host,
    inner.nets[k]? = some net ∧ outer.nets[e.net k]? = some host ∧
      inner.Joins other.wires root'.scope root'.placements group' net ∧
      outer.Joins schematic.wires root.scope root.placements group host ∧
      ∀ endpoint, Netlist.GroupEnd other.wires group' endpoint ↔
        Netlist.GroupEnd schematic.wires group endpoint := by
  rw [h.drawing'.length] at hk
  have hgroup' := List.getElem?_eq_getElem hk
  obtain ⟨group, hgroup, hmatches⟩ := hfollows.net hgroup'
  obtain ⟨net, hnet, hjoins⟩ := h.drawing'.joined hgroup'
  obtain ⟨host, hhost, hjoins'⟩ := h.drawing.joined hgroup
  exact ⟨_, group, net, host, hnet, hhost, hjoins, hjoins', fun endpoint =>
    hmatches.groupEnd_iff h.reorders (List.getElem_mem hk)⟩

theorem sources_iff (hk : k < inner.nets.length) (href : ref.part < inner.parts.length) :
    outer.HasSource (e.net k) (e.ref ref) ↔ inner.HasSource k ref := by
  obtain ⟨group', group, net, host, hnet, hhost, hjoins, hjoins', hends⟩ := h.joined hfollows hk
  have htwin := hfollows.part _ href
  simp only [Netlist.HasSource, hnet, hhost, Option.some.injEq, exists_eq_left', hjoins.sources,
    hjoins'.sources, hends, Netlist.Outputs, Embedding.ref, h.attached_iff htwin, decl?_eq htwin]

theorem targets_iff (hk : k < inner.nets.length) (href : ref.part < inner.parts.length) :
    outer.HasTarget (e.net k) (e.ref ref) ↔ inner.HasTarget k ref := by
  obtain ⟨group', group, net, host, hnet, hhost, hjoins, hjoins', hends⟩ := h.joined hfollows hk
  have htwin := hfollows.part _ href
  simp only [Netlist.HasTarget, hnet, hhost, Option.some.injEq, exists_eq_left', hjoins.targets,
    hjoins'.targets, hends, Netlist.Inputs, Embedding.ref, h.attached_iff htwin, decl?_eq htwin]

theorem lists_iff (hk : k < inner.nets.length) (href : ref.part < inner.parts.length) :
    outer.Lists (e.net k) (e.ref ref) ↔ inner.Lists k ref := by
  rw [Netlist.lists_iff, Netlist.lists_iff, h.sources_iff hfollows hk href,
    h.targets_iff hfollows hk href]

theorem part_inj (hp : p < inner.parts.length) (hq : q < inner.parts.length)
    (heq : e.part p = e.part q) : p = q :=
  (h.eq_iff (hfollows.part p hp) (hfollows.part q hq)).mpr heq

theorem part_onto (hq : q < outer.parts.length) : ∃ p < inner.parts.length, e.part p = q := by
  obtain ⟨p, hp, htwin⟩ := h.exists_source hq
  exact ⟨p, hp, (h.eq_iff (hfollows.part p hp) htwin).mp rfl⟩

/-- All that a net of the one circuit lists has its twin in the other. -/
theorem exists_ref {n : Nat} (hlists : outer.Lists n ref) :
    ∃ source, source.part < inner.parts.length ∧ e.ref source = ref := by
  obtain ⟨net, hnet, href⟩ := hlists
  obtain ⟨port, hattached⟩ := h.flat.wired.attached hnet href
  obtain ⟨part, hpart, -⟩ := Netlist.part_of_port hattached.found
  obtain ⟨p, hp, heq⟩ := h.part_onto hfollows (List.getElem?_eq_some_iff.mp hpart).1
  exact ⟨⟨p, ref.port⟩, hp, congrArg (PortRef.mk · ref.port) heq⟩

/-! ## One circuit numbered in two ways -/

theorem net_eq {port host : Port} (href : ref.part < inner.parts.length)
    (hport : inner.port? ref = some port) (hhost : outer.port? (e.ref ref) = some host) :
    host.net = port.net.map e.net := by
  have hiff := (h.paired' ref).net_iff port
  have hiff' := (h.paired (e.ref ref)).net_iff host
  have hlt : ∀ {netlist : Netlist} {n : Nat} {ref : PortRef}, netlist.Lists n ref →
      n < netlist.nets.length := fun ⟨_, hnet, _⟩ => (List.getElem?_eq_some_iff.mp hnet).1
  cases hbound : port.net with
  | some k =>
    have hlists := (hiff k hport).mp hbound
    exact (hiff' _ hhost).mpr ((h.lists_iff hfollows (hlt hlists) href).mpr hlists)
  | none =>
    cases hbound' : host.net with
    | none => rfl
    | some n =>
      have hlists := (hiff' n hhost).mp hbound'
      obtain ⟨k, hk, rfl⟩ := hfollows.net_onto n (hlt hlists)
      rw [(hiff k hport).mpr ((h.lists_iff hfollows hk href).mp hlists)] at hbound
      cases hbound

theorem ports_eq {placed host : Part} (hplaced : inner.parts[p]? = some placed)
    (hhost : outer.parts[e.part p]? = some host) : host.ports = placed.ports.map e.port := by
  have hp := (List.getElem?_eq_some_iff.mp hplaced).1
  refine List.ext_getElem? fun index => ?_
  have hdecl := decl?_eq (hfollows.part p hp) index
  rw [Netlist.decl?, Netlist.decl?, Netlist.port?, Netlist.port?, hplaced, hhost, Option.bind_some,
    Option.bind_some] at hdecl
  rw [List.getElem?_map]
  cases hport : placed.ports[index]? with
  | none =>
    rw [hport] at hdecl
    exact Option.map_eq_none_iff.mp hdecl
  | some port =>
    rw [hport] at hdecl
    obtain ⟨port', hport', hsame⟩ := Option.map_eq_some_iff.mp hdecl
    have hp : (⟨p, index⟩ : PortRef).part < _ := hp
    have hnet := h.net_eq hfollows hp (Netlist.port_of_part hplaced hport)
      (Netlist.port_of_part hhost hport')
    obtain ⟨decl, net⟩ := port
    obtain ⟨decl', net'⟩ := port'
    obtain rfl : decl' = decl := hsame
    obtain rfl : net' = net.map e.net := hnet
    rw [hport']
    rfl

theorem port?_eq (href : ref.part < inner.parts.length) :
    outer.port? (e.ref ref) = (inner.port? ref).map e.port := by
  obtain ⟨_, placed, host, hplaced, hhost, -⟩ := madeOf (hfollows.part _ href)
  rw [Netlist.port?, Netlist.port?, hplaced, Embedding.ref, hhost, Option.bind_some,
    Option.bind_some, h.ports_eq hfollows hplaced hhost, List.getElem?_map]

/-- A port that a net lists and its twin are as wide and as open. -/
theorem attached_twin {net host : Net} (hk : k < inner.nets.length)
    (hnet : inner.nets[k]? = some net) (hhost : outer.nets[e.net k]? = some host)
    (hlists : inner.Lists k ref) : ∃ port, inner.Attached net ref port ∧
      outer.Attached host (e.ref ref) (e.port port) := by
  obtain ⟨_, hfound, href⟩ := id hlists
  obtain rfl := Option.some.inj (hnet.symm.trans hfound)
  obtain ⟨port, hattached⟩ := h.flat'.wired.attached hnet href
  obtain ⟨part, hpart, -⟩ := Netlist.part_of_port hattached.found
  have hlt := (List.getElem?_eq_some_iff.mp hpart).1
  obtain ⟨_, hfound', href'⟩ := (h.lists_iff hfollows hk hlt).mpr hlists
  obtain rfl := Option.some.inj (hhost.symm.trans hfound')
  obtain ⟨port', hattached'⟩ := h.flat.wired.attached hhost href'
  have hsame := hattached'.found
  rw [h.port?_eq hfollows hlt, hattached.found] at hsame
  obtain rfl := Option.some.inj hsame
  exact ⟨port, hattached, hattached'⟩

theorem tristate_eq {net host : Net} (hk : k < inner.nets.length)
    (hnet : inner.nets[k]? = some net) (hhost : outer.nets[e.net k]? = some host)
    (htristate : inner.ListsTristate net ∨ net.tristate = false)
    (htristate' : outer.ListsTristate host ∨ host.tristate = false) :
    host.tristate = net.tristate := by
  have hopen : inner.ListsTristate net → net.tristate = true ∧ host.tristate = true := by
    rintro ⟨ref, port, href, hport, hopen⟩
    obtain ⟨found, hattached, hattached'⟩ := h.attached_twin hfollows hk hnet hhost ⟨net, hnet, href⟩
    obtain rfl := Option.some.inj (hport.symm.trans hattached.found)
    exact ⟨hattached.tristate hopen, hattached'.tristate hopen⟩
  have hopen' : outer.ListsTristate host → net.tristate = true ∧ host.tristate = true := by
    rintro ⟨ref, port, href, hport, hopen⟩
    have hlists : outer.Lists (e.net k) ref := ⟨host, hhost, href⟩
    obtain ⟨source, hsource, rfl⟩ := h.exists_ref hfollows hlists
    obtain ⟨found, hattached, hattached'⟩ := h.attached_twin hfollows hk hnet hhost
      ((h.lists_iff hfollows hk hsource).mp hlists)
    obtain rfl := Option.some.inj (hport.symm.trans hattached'.found)
    exact ⟨hattached.tristate hopen, hattached'.tristate hopen⟩
  rcases htristate with hlists | hclosed
  · rw [(hopen hlists).1, (hopen hlists).2]
  · rcases htristate' with hlists' | hclosed'
    · rw [(hopen' hlists').1, (hopen' hlists').2]
    · rw [hclosed, hclosed']

theorem sources_perm {net host : Net} (hk : k < inner.nets.length)
    (hnet : inner.nets[k]? = some net) (hhost : outer.nets[e.net k]? = some host) :
    host.sources.Perm (net.sources.map e.ref) := by
  have hnodup : ∀ {netlist : Netlist} {joined : Net} {n : Nat}, (∀ ref, netlist.Paired ref) →
      netlist.nets[n]? = some joined → joined.sources.Nodup := fun hpaired hjoined =>
    List.nodup_iff_count_le_one.mpr fun ref =>
      (hpaired ref).once _ (List.mem_of_getElem? hjoined) true
  have hlisted : ∀ ref ∈ net.sources, ref.part < inner.parts.length := by
    intro ref href
    obtain ⟨port, hattached, -⟩ := h.flat'.wired.source hnet href
    obtain ⟨part, hpart, -⟩ := Netlist.part_of_port hattached.found
    exact (List.getElem?_eq_some_iff.mp hpart).1
  have hsource : ∀ {ref : PortRef}, ref.part < inner.parts.length →
      (e.ref ref ∈ host.sources ↔ ref ∈ net.sources) := fun {ref} href => by
    have hiff := h.sources_iff hfollows hk href
    simpa [Netlist.HasSource, hnet, hhost] using hiff
  have hinj : ∀ ref ∈ net.sources, ∀ other ∈ net.sources, e.ref ref = e.ref other → ref = other := by
    rintro ⟨p, i⟩ href ⟨q, j⟩ hother heq
    obtain ⟨hpart, hport⟩ := PortRef.mk.inj heq
    exact congrArg₂ PortRef.mk (h.part_inj hfollows (hlisted _ href) (hlisted _ hother) hpart) hport
  refine (List.perm_ext_iff_of_nodup (hnodup h.paired hhost)
    ((hnodup h.paired' hnet).map_on hinj)).mpr fun ref => ⟨fun href => ?_, fun href => ?_⟩
  · obtain ⟨source, hlt, rfl⟩ := h.exists_ref hfollows ⟨host, hhost, Or.inl href⟩
    exact List.mem_map_of_mem ((hsource hlt).mp href)
  · obtain ⟨source, hmem, rfl⟩ := List.mem_map.mp href
    exact (hsource (hlisted _ hmem)).mpr hmem

theorem places : e.Places inner outer := by
  have hopen : ∀ {netlist : Netlist} {net : Net} {k : Nat}, netlist.Flat →
      netlist.nets[k]? = some net → netlist.ListsTristate net ∨ net.tristate = false := by
    rintro _ net k ⟨library, schematic, -, rfl⟩ hnet
    cases htristate : net.tristate with
    | false => exact Or.inr rfl
    | true =>
      exact Or.inl (Netlist.tristate_flatten library schematic net (List.mem_of_getElem? hnet) htristate)
  refine ⟨fun p hp q hq => h.part_inj hfollows hp hq, hfollows.net_inj, fun {p placed} hplaced => ?_,
    fun {k net} hnet => ?_, fun k ref hlists => ?_⟩
  · have hp := (List.getElem?_eq_some_iff.mp hplaced).1
    obtain ⟨assembly, found, host, hfound, hhost, hmade, hmade'⟩ := madeOf (hfollows.part p hp)
    obtain rfl := Option.some.inj (hplaced.symm.trans hfound)
    exact ⟨host, hhost, hmade'.device.trans hmade.device.symm, hmade'.phases.trans hmade.phases.symm,
      h.ports_eq hfollows hplaced hhost⟩
  · have hk := (List.getElem?_eq_some_iff.mp hnet).1
    obtain ⟨_, _, found, host, hfound, hhost, -⟩ := h.joined hfollows hk
    obtain rfl := Option.some.inj (hnet.symm.trans hfound)
    refine ⟨host, hhost, fun hdriven => ?_, h.tristate_eq hfollows hk hnet hhost
      (hopen h.flat' hnet) (hopen h.flat hhost), h.sources_perm hfollows hk hnet hhost,
      fun ref href => ?_⟩
    · obtain ⟨ref, href⟩ := List.exists_mem_of_ne_nil _ hdriven
      obtain ⟨port, hattached, hattached'⟩ := h.attached_twin hfollows hk hnet hhost
        ⟨net, hnet, Or.inl href⟩
      obtain ⟨part, hpart, hport⟩ := Netlist.part_of_port hattached'.found
      have hwide : 1 ≤ port.width :=
        h.wide part (List.mem_of_getElem? hpart) (e.port port) (List.mem_of_getElem? hport)
      have hwidth := hattached.width
      have hwidth' : port.width = host.width ∨ port.width = 0 := hattached'.width
      omega
    · simpa [Netlist.HasTarget, hnet, hhost] using h.targets_iff hfollows hk href
  · obtain ⟨net, hnet, href⟩ := hlists
    obtain ⟨port, hattached⟩ := h.flat'.wired.attached hnet href
    obtain ⟨part, hpart, -⟩ := Netlist.part_of_port hattached.found
    exact (List.getElem?_eq_some_iff.mp hpart).1

theorem renumbers (hstatic : outer.Static) : e.Renumbers inner outer :=
  ⟨h.places hfollows, fun _ hq => h.part_onto hfollows hq, hfollows.net_onto, h.flat', h.flat,
    hstatic⟩

/-! ## Paths -/

/-- A path leads to parts of the same component. -/
theorem leads (path : Path) : e.Leads inner outer path := by
  have hpath : ∀ {drawn : Schematic} {netlist : Netlist} {spot : Spot},
      Drawing .builtin drawn netlist spot → ∀ id, spot.path id = ⟨id⟩ := by
    intro drawn netlist spot hdrawing id
    rw [Site.path, hdrawing.names]
    rfl
  rw [Embedding.Leads]
  cases hp : inner.partAt? path with
  | some p =>
    obtain ⟨hlt, -⟩ := Netlist.partPath_of_partAt? hp
    obtain ⟨component, placed, placed', hlocated, hlocated', rfl, heq⟩ := hfollows.part p hlt
    obtain ⟨spot, found, hosted, hfound, hpart, rfl⟩ := h.drawing'.chart.exists_located hp
    obtain ⟨rfl, rfl⟩ := h.drawing'.chart.eq_of_part hlocated hfound hpart.symm
    rw [Option.map_some, ← heq, hpath h.drawing', ← hpath h.drawing]
    exact h.drawing.chart.partAt?_eq hlocated'
  | none =>
    cases hq : outer.partAt? path with
    | none => rfl
    | some q =>
      obtain ⟨hlt, -⟩ := Netlist.partPath_of_partAt? hq
      obtain ⟨p, hp', component, placed, placed', hlocated, hlocated', -, rfl⟩ := h.exists_source hlt
      obtain ⟨spot, found, hosted, hfound, hpart, rfl⟩ := h.drawing.chart.exists_located hq
      obtain ⟨rfl, rfl⟩ := h.drawing.chart.eq_of_part hlocated' hfound hpart.symm
      rw [hpath h.drawing, ← hpath h.drawing', h.drawing'.chart.partAt?_eq hlocated] at hp
      cases hp

omit h hfollows in
/-- A wire is found at its id, in the group that it belongs to. -/
theorem mem_netEntries_iff {drawn : Schematic} {netlist : Netlist} {spot : Spot}
    (hdrawing : Drawing .builtin drawn netlist spot) {path : Path} {n : Nat} :
    (path, n) ∈ netlist.netEntries ↔ ∃ group, (wireGroups drawn.wires)[n]? = some group ∧
      ∃ a ∈ group, ∃ wire, drawn.wires[a]? = some wire ∧ path = ⟨wire.id⟩ := by
  have hscope : ∀ {net : Net} {group : List Nat},
      netlist.Joins drawn.wires spot.scope spot.placements group net →
      ∀ id, localPath netlist.scopes net.scope id = ⟨id⟩ := by
    intro net group hjoins id
    rw [localPath_eq, hjoins.scope_eq,
      (hdrawing.chart.laid spot (List.mem_singleton_self spot)).path, hdrawing.names]
    rfl
  have hmem : (path, n) ∈ netlist.netEntries ↔ ∃ net, netlist.nets[n]? = some net ∧
      ∃ id ∈ net.wires, path = localPath netlist.scopes net.scope id := by
    simp only [Netlist.netEntries, List.mem_flatMap, List.mem_map, Prod.mk.injEq, Prod.exists,
      List.mem_zipIdx_iff_getElem?]
    constructor
    · rintro ⟨net, index, hnet, id, hid, rfl, rfl⟩
      exact ⟨net, hnet, id, hid, rfl⟩
    · rintro ⟨net, hnet, id, hid, rfl⟩
      exact ⟨net, n, hnet, id, hid, rfl, rfl⟩
  have hids : ∀ {net : Net} {group : List Nat},
      netlist.Joins drawn.wires spot.scope spot.placements group net → ∀ id, id ∈ net.wires ↔
        ∃ a ∈ group, ∃ wire, drawn.wires[a]? = some wire ∧ wire.id = id := by
    intro net group hjoins id
    rw [hjoins.ids]
    constructor
    · intro hid
      obtain ⟨wire, hwire, rfl⟩ := List.mem_map.mp hid
      obtain ⟨a, ha, hfound⟩ := List.mem_filterMap.mp hwire
      exact ⟨a, ha, wire, hfound, rfl⟩
    · rintro ⟨a, ha, wire, hwire, rfl⟩
      exact List.mem_map_of_mem (List.mem_filterMap.mpr ⟨a, ha, hwire⟩)
  rw [hmem]
  constructor
  · rintro ⟨net, hnet, id, hid, rfl⟩
    have hlt := (List.getElem?_eq_some_iff.mp hnet).1
    rw [hdrawing.length] at hlt
    obtain ⟨found, hfound, hjoins⟩ := hdrawing.joined (List.getElem?_eq_getElem hlt)
    obtain rfl := Option.some.inj (hnet.symm.trans hfound)
    obtain ⟨a, ha, wire, hwire, rfl⟩ := (hids hjoins id).mp hid
    exact ⟨_, List.getElem?_eq_getElem hlt, a, ha, wire, hwire, hscope hjoins wire.id⟩
  · rintro ⟨group, hgroup, a, ha, wire, hwire, rfl⟩
    obtain ⟨net, hnet, hjoins⟩ := hdrawing.joined hgroup
    exact ⟨net, hnet, wire.id, (hids hjoins wire.id).mpr ⟨a, ha, wire, hwire, rfl⟩,
      (hscope hjoins wire.id).symm⟩

theorem entry_iff {path : Path} (hk : k < inner.nets.length) :
    (path, e.net k) ∈ outer.netEntries ↔ (path, k) ∈ inner.netEntries := by
  rw [h.drawing'.length] at hk
  have hgroup' := List.getElem?_eq_getElem hk
  obtain ⟨group, hgroup, hmatches⟩ := hfollows.net hgroup'
  rw [mem_netEntries_iff h.drawing, mem_netEntries_iff h.drawing', hgroup, hgroup']
  simp only [Option.some.injEq, exists_eq_left']
  constructor
  · rintro ⟨a, ha, wire, hwire, rfl⟩
    obtain ⟨b, hb, rfl⟩ := hmatches.back a ha
    have hlt := lt_of_mem_wireGroups (List.getElem_mem hk) hb
    obtain ⟨found, hfound, hsame⟩ := h.reorders.wire (List.getElem?_eq_getElem hlt)
    obtain rfl := Option.some.inj (hwire.symm.trans hfound)
    exact ⟨b, hb, _, List.getElem?_eq_getElem hlt, by rw [hsame.id]⟩
  · rintro ⟨b, hb, wire', hwire', rfl⟩
    obtain ⟨wire, hwire, hsame⟩ := h.reorders.wire hwire'
    exact ⟨place b, hmatches.mem b hb, wire, hwire, by rw [hsame.id]⟩

omit hfollows in
theorem lt_of_netAt? {path : Path} (hk : inner.netAt? path = some k) : k < inner.nets.length := by
  obtain ⟨group, hgroup, -⟩ := (mem_netEntries_iff h.drawing').mp (mem_of_latest? hk)
  rw [h.drawing'.length]
  exact (List.getElem?_eq_some_iff.mp hgroup).1

/-- As no two wires have the same id, a path leads to nets of the same wire. -/
theorem netAt?_eq (hwires : (schematic.wires.map (·.id)).Nodup) (path : Path) :
    outer.netAt? path = (inner.netAt? path).map e.net := by
  have hlt : ∀ {n : Nat}, (path, n) ∈ outer.netEntries → n < outer.nets.length := by
    intro n hmem
    obtain ⟨group, hgroup, -⟩ := (mem_netEntries_iff h.drawing).mp hmem
    rw [h.drawing.length]
    exact (List.getElem?_eq_some_iff.mp hgroup).1
  have hone : ∀ {n m : Nat}, (path, n) ∈ outer.netEntries → (path, m) ∈ outer.netEntries →
      n = m := by
    intro n m hn hm
    obtain ⟨group, hgroup, a, ha, near, hnear, rfl⟩ := (mem_netEntries_iff h.drawing).mp hn
    obtain ⟨group', hgroup', b, hb, far, hfar, hid⟩ := (mem_netEntries_iff h.drawing).mp hm
    have hids : (schematic.wires.map (·.id))[a]? = (schematic.wires.map (·.id))[b]? := by
      rw [List.getElem?_map, List.getElem?_map, hnear, hfar, Option.map_some, Option.map_some,
        Path.mk.inj hid]
    have hlt : a < (schematic.wires.map (·.id)).length := by
      rw [List.length_map]
      exact (List.getElem?_eq_some_iff.mp hnear).1
    obtain rfl := (List.getElem?_inj hlt hwires).mp hids
    exact group_eq_of_linked hgroup hgroup' ha hb (.refl a)
  cases hfound : inner.netAt? path with
  | some k =>
    have hmem := mem_of_latest? hfound
    have hmem' := (h.entry_iff hfollows (h.lt_of_netAt? hfound)).mpr hmem
    obtain ⟨found, hfound'⟩ := exists_latest? hmem'
    rw [Option.map_some, ← hone (mem_of_latest? hfound') hmem']
    exact hfound'
  | none =>
    cases hfound' : outer.netAt? path with
    | none => rfl
    | some n =>
      have hmem' := mem_of_latest? hfound'
      obtain ⟨k, hk, rfl⟩ := hfollows.net_onto n (hlt hmem')
      obtain ⟨found, hsome⟩ := exists_latest? ((h.entry_iff hfollows hk).mp hmem')
      have hnone : latest? inner.netEntries path = none := hfound
      rw [hnone] at hsome
      cases hsome

end Redrawing

/-! ## Circuits of built-in components -/

theorem Library.expands_builtin : ∀ entry ∈ Library.builtin.entries, entry.inside.isNone = true := by
  decide

theorem Library.inside?_builtin (component : Component) :
    Library.builtin.inside? component = none := by
  cases hentry : Library.builtin.get? component.definition with
  | none => rw [Library.inside?, hentry, Option.bind_none]
  | some entry =>
    rw [inside?_eq hentry]
    exact Option.isNone_iff_eq_none.mp (Library.expands_builtin entry (Library.mem_of_get? hentry).1)

theorem Library.sealed_builtin : Library.builtin.Sealed := by
  intro entry hentry inside hinside
  have hnone := Library.expands_builtin entry hentry
  rw [hinside] at hnone
  cases hnone

/-- A circuit that can be run can be run under other numbers. -/
theorem Embedding.Renumbers.fault? {e : Embedding} {inner outer : Netlist}
    (h : e.Renumbers inner outer) (hfault : outer.fault? = none) : inner.fault? = none := by
  rw [Netlist.fault?_eq_none_iff] at hfault ⊢
  intro placed hplaced
  obtain ⟨p, hp⟩ := List.getElem?_of_mem hplaced
  obtain ⟨host, hhost, hdevice, -⟩ := h.part hp
  exact hdevice ▸ hfault host (List.mem_of_getElem? hhost)

/-- Both numberings of a circuit go on holding the same. -/
theorem Embedding.Renumbers.kept {e : Embedding} {inner outer : Netlist}
    (h : e.Renumbers inner outer) : e.Kept inner outer fun small big =>
      e.Extends inner small big ∧ State.Sound inner small ∧ State.Sound outer big := by
  have hfinal : ∀ {netlist : Netlist} {state : State}, netlist.Flat → State.Sound netlist state →
      State.Sound netlist (netlist.final state) := fun {netlist state} hflat hsound => by
    rw [Netlist.final_eq]
    exact Netlist.sound_after hflat.wired hsound _
  have hlatched : ∀ {netlist : Netlist} {state : State}, netlist.Flat → State.Sound netlist state →
      State.Sound netlist (netlist.latched state) := fun {netlist state} hflat hsound => by
    have hfoldl := State.Sound.foldl_perform hflat.wired.native
      ((compile netlist).latchSteps.map fun step => .phase step.1 step.2) hsound
    rwa [List.foldl_map] at hfoldl
  refine ⟨h.toPlaces, fun hboth => hboth.1, ⟨h.fresh, (State.sound_fresh _).1, (State.sound_fresh _).1⟩,
    fun ⟨hstate, hsound, hsound'⟩ => ?_, fun ⟨hstate, hsound, hsound'⟩ => ?_,
    fun hard ⟨hstate, hsound, hsound'⟩ => ?_,
    fun {small big p placed width initial} hplaced hdevice value ⟨hstate, hsound, hsound'⟩ => ?_⟩
  · exact ⟨h.final hsound' hstate, hfinal h.flat hsound, hfinal h.flat' hsound'⟩
  · exact ⟨h.latched hsound' hstate, hlatched h.flat hsound, hlatched h.flat' hsound'⟩
  · exact ⟨h.cleared hstate hard, (State.sound_reset hsound hard).1, (State.sound_reset hsound' hard).1⟩
  · have hp := (List.getElem?_eq_some_iff.mp hplaced).1
    obtain ⟨host, hhost, hsame, -⟩ := h.part hplaced
    have hfits : ∀ {netlist : Netlist} {index : Nat} {owner : Part},
        netlist.parts[index]? = some owner → owner.device = .input width initial →
        ∀ other, netlist.parts[index]? = some other → other.device.Fits (.input value) := by
      intro netlist index owner howner hkind other hother
      rw [← Option.some.inj (howner.symm.trans hother), hkind]
      trivial
    refine ⟨?_, (State.sound_setMemory hsound (hfits hplaced hdevice)).1,
      (State.sound_setMemory hsound' (hfits hhost (hsame.trans hdevice))).1⟩
    rw [← hstate.part_eq hp]
    exact h.setPart hstate hp _

section

variable {schematic other : Schematic} {first : Simulation}

theorem exists_redrawing (hnodup : (schematic.components.map (·.id)).Nodup)
    (hnone : (flatten .builtin schematic).diagnostics = [])
    (hwide : ∀ part ∈ (flatten .builtin schematic).parts, ∀ port ∈ part.ports, 1 ≤ port.width)
    (hrearranged : schematic.Rearranged other) : ∃ root root' place,
    Redrawing schematic other (flatten .builtin schematic) (flatten .builtin other) root root' place := by
  have hplain : ∀ drawn : Schematic, ∀ component ∈ drawn.components,
      Library.builtin.inside? component = none := fun _ component _ => Library.inside?_builtin component
  have hsensible := sensible_of_flatten Library.composed_builtin (hplain schematic) hnodup hnone hwide
  obtain ⟨root, hdrawing⟩ :=
    exists_drawing Library.composed_builtin (hplain schematic) hsensible
  obtain ⟨root', hdrawing'⟩ :=
    exists_drawing Library.composed_builtin (hplain other) (hrearranged.sensible hsensible)
  obtain ⟨place, hreorders⟩ := hrearranged.exists_reorders
  have hpaired : ∀ (drawn : Schematic) ref, (flatten .builtin drawn).Paired ref :=
    Library.sealed_builtin.paired_flatten
  exact ⟨root, root', place, hdrawing, hdrawing', hrearranged.components, hreorders,
    ⟨_, _, Library.native_builtin, rfl⟩, ⟨_, _, Library.native_builtin, rfl⟩, hpaired schematic,
    hpaired other, hwide⟩

/-- A static circuit of built-in components behaves as drawn, in whatever order its
components, its wires and the ends of its wires are drawn. -/
theorem rearranging_changes_nothing (hstart : Simulation.start .builtin schematic = .ok first)
    (hcomponents : (schematic.components.map (·.id)).Nodup)
    (hwires : (schematic.wires.map (·.id)).Nodup) (hstatic : first.netlist.Static)
    (hnone : first.diagnostics = [])
    (hwide : ∀ part ∈ first.netlist.parts, ∀ port ∈ part.ports, 1 ≤ port.width)
    (hrearranged : schematic.Rearranged other) :
    ∃ second, Simulation.start .builtin other = .ok second ∧
      ∀ commands : List Simulation.Command,
        let first := commands.foldl Simulation.obey first
        let second := commands.foldl Simulation.obey second
        (∀ path, first.shownAt? path = second.shownAt? path) ∧
          (∀ path, first.AgreeAt second path) ∧ first.isHalted = second.isHalted := by
  obtain ⟨hfault, rfl⟩ := Simulation.start_eq_ok_iff.mp hstart
  have hnetlist : (Simulation.ofNetlist (flatten .builtin schematic)).netlist =
      flatten .builtin schematic := Simulation.netlist_settle _
  rw [Simulation.diagnostics, List.append_eq_nil_iff] at hnone
  rw [hnetlist] at hstatic hwide hnone
  obtain ⟨root, root', place, hredrawing⟩ :=
    exists_redrawing hcomponents hnone.1 hwide hrearranged
  obtain ⟨e, hfollows⟩ := hredrawing.exists_embedding
  have hrenumbers := hredrawing.renumbers hfollows hstatic
  have hkept := hrenumbers.kept
  refine ⟨_, Simulation.start_builtin (hrenumbers.fault? hfault), fun commands => ?_⟩
  have hleads := hredrawing.leads hfollows
  have htandem := (Simulation.Tandem.ofNetlist hkept).run hkept
    fun path value (_ : .set path value ∈ commands) => hleads ⟨path⟩
  refine ⟨fun path => (htandem.shownAt?_eq hkept (hredrawing.netAt?_eq hfollows hwires ⟨path⟩) ?_).symm,
    fun path => (htandem.agreeAt hkept (hleads ⟨path⟩)).symm, (htandem.isHalted hkept).symm⟩
  exact fun k hk => hredrawing.lt_of_netAt? hk

end

/-- A register takes over an input at the clock edge, and a probe shows it. -/
def sampledInput : Schematic where
  components :=
    [⟨"x", Builtin.input.id, .obj [("width", .int 8)]⟩,
      ⟨"one", Builtin.constant.id, .obj [("value", .int 1)]⟩,
      ⟨"r", Builtin.register.id, .obj [("width", .int 8)]⟩,
      ⟨"p", Builtin.probe.id, .obj [("width", .int 8)]⟩]
  wires :=
    [⟨"a", [⟨"x", "out"⟩, ⟨"r", "d"⟩]⟩, ⟨"b", [⟨"one", "out"⟩, ⟨"r", "en"⟩]⟩,
      ⟨"c", [⟨"r", "q"⟩, ⟨"p", "in"⟩]⟩]

/-- The same circuit, drawn from the probe to the input. -/
def sampledInputRedrawn : Schematic where
  components := sampledInput.components.reverse
  wires := sampledInput.wires.reverse.map fun wire => ⟨wire.id, wire.endpoints.reverse⟩

theorem rearranged_sampledInput : sampledInput.Rearranged sampledInputRedrawn where
  components := (List.reverse_perm _).symm
  wires := by
    refine ⟨_, (List.reverse_perm _).symm, List.forall₂_map_right_iff.mpr ?_⟩
    exact List.forall₂_same.mpr fun wire _ => ⟨rfl, (List.reverse_perm _).symm⟩

/-- A clock edge takes a value to the register of either drawing. -/
theorem redrawn_sampledInput_shows :
    ∃ second, Simulation.start .builtin sampledInputRedrawn = .ok second ∧
      (([.set "x" 5, .settle, .step].foldl Simulation.obey second).shownAt? "c") =
        some ⟨5, 1⟩ := by
  obtain ⟨second, hsecond, hagree⟩ := rearranging_changes_nothing
    (@Simulation.start_builtin sampledInput (by decide +kernel)) (by decide)
    (by decide) (by decide +kernel) (by decide +kernel) (by decide +kernel) rearranged_sampledInput
  refine ⟨second, hsecond, ?_⟩
  rw [← (hagree [.set "x" 5, .settle, .step]).1 "c"]
  decide +kernel

end Breadboard
