import Breadboard.Proofs.Growth
import Breadboard.Proofs.Wired

/-!
# Flat netlists are wired

Every step by which a netlist grows keeps it wired (`Wired.step`), so that every
flat netlist of built-in components is (`wired_flatten`). The step with an
argument in it is the attaching of a port. The net takes over the width of the
first port that is attached, and ports which are attached as targets only never
face both ways.
-/

namespace Breadboard

theorem Builtin.id_ne_externalPin {builtin : Builtin} (h : builtin ≠ .boundary) (args : Json) :
    ∀ decl ∈ (builtin.assemble args).ports, decl.id ≠ Boundary.externalPin := by
  cases builtin with
  | boundary => exact absurd rfl h
  | adder =>
    cases hin : args.flag "carryIn" false <;> cases hout : args.flag "carryOut" false <;>
      simp [assemble, ports, hin, hout, Boundary.externalPin]
  | _ => simp [assemble, ports, Boundary.externalPin]

/-- Only boundary ports and parts without behaviour have a port of that id. -/
theorem Part.Built.wary {part : Part} {port : Port} (h : part.Built) (hport : port ∈ part.ports)
    (hid : port.id = Boundary.externalPin) : part.device.wary = true := by
  obtain ⟨definition, args, assembly, hnative, hassemble, hmade⟩ := h
  have hdecl : port.toPortDecl ∈ assembly.ports := by
    rw [← hmade.ports]
    exact List.mem_map_of_mem hport
  rw [hmade.device]
  rcases hnative with ⟨builtin, rfl⟩ | ⟨id, schematic, rfl⟩
  · obtain rfl := Except.ok.inj hassemble
    by_cases hboundary : builtin = .boundary
    · subst hboundary
      rfl
    · exact absurd hid (Builtin.id_ne_externalPin hboundary args _ hdecl)
  · obtain rfl := Except.ok.inj hassemble
    rfl

/-- The external pin of a boundary port faces one way. -/
theorem Part.Built.external {part : Part} {port : Port} (h : part.Built) (hport : port ∈ part.ports)
    (hid : port.id = Boundary.externalPin) : port.type.bidirectional = false := by
  obtain ⟨definition, args, assembly, hnative, hassemble, hmade⟩ := h
  have hdecl : port.toPortDecl ∈ assembly.ports := by
    rw [← hmade.ports]
    exact List.mem_map_of_mem hport
  rcases hnative with ⟨builtin, rfl⟩ | ⟨id, schematic, rfl⟩
  · obtain rfl := Except.ok.inj hassemble
    by_cases hboundary : builtin = .boundary
    · subst hboundary
      rcases List.mem_append.mp hdecl with hdecl | hdecl
      · have hname := congrArg PortDecl.id (List.mem_singleton.mp hdecl)
        have hne : Boundary.innerPin ≠ Boundary.externalPin := by decide
        exact absurd (hname.symm.trans hid) hne
      · have htype := congrArg PortDecl.type (List.mem_singleton.mp hdecl)
        exact (congrArg PortType.bidirectional htype).trans
          (Boundary.bidirectional_outerDecl args "")
    · exact absurd hid (Builtin.id_ne_externalPin hboundary args _ hdecl)
  · obtain rfl := Except.ok.inj hassemble
    exact Part.bidirectional_boundaryPorts _ hdecl

namespace Netlist

variable {library : Library} {netlist next : Netlist} {index : Nat} {ref : PortRef} {port : Port}
  {net : Net} {part : Part} {asSource : Bool}

/-! ## Steps -/

theorem port_addPart (h : netlist.port? ref = some port) (part : Part) :
    (netlist.addPart part).port? ref = some port := by
  obtain ⟨found, hfound, hport⟩ := part_of_port h
  refine port_of_part ?_ hport
  rw [addPart, List.getElem?_append_left (List.getElem?_eq_some_iff.mp hfound).1]
  exact hfound

theorem port_addPart_cases (h : (netlist.addPart part).port? ref = some port) :
    netlist.port? ref = some port ∨
      ref.part = netlist.parts.length ∧ part.ports[ref.port]? = some port := by
  obtain ⟨found, hfound, hport⟩ := part_of_port h
  rw [addPart] at hfound
  rcases Nat.lt_or_ge ref.part netlist.parts.length with hlt | hge
  · rw [List.getElem?_append_left hlt] at hfound
    exact Or.inl (port_of_part hfound hport)
  · rw [List.getElem?_append_right hge, List.getElem?_singleton] at hfound
    obtain ⟨hzero, heq⟩ := Option.ite_none_right_eq_some.mp hfound
    obtain rfl := Option.some.inj heq
    exact Or.inr ⟨by omega, hport⟩

/-- Wiring is a matter of parts and nets. -/
theorem Wired.congr (h : netlist.Wired) (hparts : next.parts = netlist.parts)
    (hnets : next.nets = netlist.nets) : next.Wired := by
  have hport : ∀ ref, next.port? ref = netlist.port? ref := fun ref => by rw [port?, hparts, port?]
  refine ⟨?_, ?_, ?_, ?_⟩
  · rw [hparts]
    exact h.regular
  · intro index net ref hnet href
    obtain ⟨port, ⟨hfound, hbound, htristate, hwidth⟩, houtput⟩ := h.source (hnets ▸ hnet) href
    exact ⟨port, ⟨(hport ref).trans hfound, hbound, htristate, hwidth⟩, houtput⟩
  · intro index net ref hnet href
    obtain ⟨port, ⟨hfound, hbound, htristate, hwidth⟩, hinput⟩ := h.target (hnets ▸ hnet) href
    exact ⟨port, ⟨(hport ref).trans hfound, hbound, htristate, hwidth⟩, hinput⟩
  · intro ref port index hfound hbound
    rw [hnets, hparts]
    exact h.known ((hport ref).symm.trans hfound) hbound

theorem Attached.addPart {port : Port} (h : netlist.Attached net ref port) (part : Part) :
    (netlist.addPart part).Attached net ref port :=
  ⟨port_addPart h.found part, h.bound, h.tristate, h.width⟩

theorem Wired.addPart (h : netlist.Wired) (hregular : part.Regular)
    (hunbound : ∀ port ∈ part.ports, port.net = none) : (netlist.addPart part).Wired := by
  refine ⟨?_, ?_, ?_, ?_⟩
  · intro other hother
    rcases List.mem_append.mp hother with hother | hother
    · exact h.regular other hother
    · rw [List.mem_singleton.mp hother]
      exact hregular
  · intro index net ref hnet href
    obtain ⟨port, hattached, houtput⟩ := h.source hnet href
    exact ⟨port, hattached.addPart part, houtput⟩
  · intro index net ref hnet href
    obtain ⟨port, hattached, hinput⟩ := h.target hnet href
    exact ⟨port, hattached.addPart part, hinput⟩
  · intro ref port index hport hbound
    rcases port_addPart_cases hport with hport | ⟨-, hport⟩
    · obtain ⟨net, hnet, htarget, hsource, hboth⟩ := h.known hport hbound
      obtain ⟨owner, howner, -⟩ := part_of_port hport
      refine ⟨net, hnet, htarget, hsource, fun houtput hvalid => hboth houtput fun found hfound => ?_⟩
      refine hvalid found ?_
      rw [Netlist.addPart, List.getElem?_append_left (List.getElem?_eq_some_iff.mp howner).1]
      exact hfound
    · rw [hunbound port (List.mem_of_getElem? hport)] at hbound
      cases hbound

theorem Wired.addNet (h : netlist.Wired) (scope : Nat) (wires : List String) :
    ({ netlist with nets := netlist.nets ++ [{ scope, wires }] } : Netlist).Wired := by
  have hcases : ∀ {index : Nat} {net : Net},
      (netlist.nets ++ [({ scope, wires } : Net)])[index]? = some net →
        netlist.nets[index]? = some net ∨ net = { scope, wires } := by
    intro index net hnet
    rw [List.getElem?_append] at hnet
    split at hnet
    · exact Or.inl hnet
    · exact Or.inr (List.mem_singleton.mp (List.mem_of_getElem? hnet))
  refine ⟨h.regular, ?_, ?_, ?_⟩
  · intro index net ref hnet href
    rcases hcases hnet with hnet | rfl
    · obtain ⟨port, ⟨hfound, hbound, htristate, hwidth⟩, houtput⟩ := h.source hnet href
      exact ⟨port, ⟨hfound, hbound, htristate, hwidth⟩, houtput⟩
    · cases href
  · intro index net ref hnet href
    rcases hcases hnet with hnet | rfl
    · obtain ⟨port, ⟨hfound, hbound, htristate, hwidth⟩, hinput⟩ := h.target hnet href
      exact ⟨port, ⟨hfound, hbound, htristate, hwidth⟩, hinput⟩
    · cases href
  · intro ref port index hport hbound
    obtain ⟨net, hnet, hrest⟩ := h.known hport hbound
    refine ⟨net, ?_, hrest⟩
    rw [List.getElem?_append_left (List.getElem?_eq_some_iff.mp hnet).1]
    exact hnet

/-! ## Attaching a port -/

@[simp] theorem type_joined (index : Nat) (ref other : PortRef) (port : Port) :
    (joined index ref other port).type = port.type := by
  unfold joined
  split <;> rfl

@[simp] theorem width_joined (index : Nat) (ref other : PortRef) (port : Port) :
    (joined index ref other port).width = port.width := by
  unfold joined
  split <;> rfl

theorem bound_joined (index : Nat) (ref other : PortRef) (port : Port)
    (h : port.bound = true ∨ other = ref) : (joined index ref other port).bound = true := by
  unfold joined
  split
  · rfl
  · next hne => exact h.resolve_right hne

/-- A net that a port is attached to keeps what it lists. -/
theorem Attached.bind {wide : Net} {other : PortRef} (h : netlist.Attached net other port)
    (hport : ∀ other, next.port? other = (netlist.port? other).map (joined index ref other))
    (htristate : net.tristate = true → wide.tristate = true)
    (hwidth : net.width = 0 ∨ net.width = wide.width) :
    next.Attached wide other (joined index ref other port) := by
  refine ⟨?_, bound_joined _ _ _ _ (Or.inl h.bound), fun hport => ?_, ?_⟩
  · rw [hport, h.found]
    rfl
  · exact htristate (h.tristate (by simpa using hport))
  · rw [width_joined]
    rcases h.width with heq | hzero
    · rcases hwidth with hnone | hsome
      · exact Or.inr (heq.trans hnone)
      · exact Or.inl (heq.trans hsome)
    · exact Or.inr hzero

/-- A port that is attached is attached to the net as it is then. -/
theorem attached_self (index : Nat) (net : Net) (asSource : Bool)
    (hport : netlist.port? ref = some port) :
    (netlist.attached index ref (net.attach ref asSource port)).Attached
      (net.attach ref asSource port) ref (joined index ref ref port) := by
  refine ⟨?_, bound_joined _ _ _ _ (Or.inr rfl), fun htristate => ?_, Or.inl (by simp [Net.attach])⟩
  · rw [port_attached, hport]
    rfl
  · simpa [Net.attach] using Or.inr (by simpa using htristate)

/-- What a net lists stays attached when a port is attached to it. -/
theorem Attached.attach {other : PortRef} {found : Port} (h : netlist.Attached net other found)
    (hwidth : net.width = 0 ∨ net.width = port.width) :
    (netlist.attached index ref (net.attach ref asSource port)).Attached
      (net.attach ref asSource port) other (joined index ref other found) :=
  h.bind (fun _ => port_attached ..) (fun htristate => by simp [Net.attach, htristate]) hwidth

/-- A net is the one that a port is attached to, or as it was. -/
theorem nets_attached_cases {other : Nat} {found wide : Net} (hlt : index < netlist.nets.length)
    (h : (netlist.attached index ref wide).nets[other]? = some found) :
    other = index ∧ found = wide ∨ other ≠ index ∧ netlist.nets[other]? = some found := by
  rw [nets_attached] at h
  by_cases hsame : index = other
  · subst hsame
    rw [List.getElem?_set_self hlt] at h
    exact Or.inl ⟨rfl, (Option.some.inj h).symm⟩
  · rw [List.getElem?_set_ne hsame] at h
    exact Or.inr ⟨Ne.symm hsame, h⟩

/-- A port of a valid part that can drive is attached as a source. -/
theorem Admits.source (hadmits : netlist.Admits ref asSource)
    (hbuilt : ∀ part ∈ netlist.parts, part.Built) (hport : netlist.port? ref = some port)
    (huse : (asSource && port.type.output) = true ∨ port.type.input = true)
    (houtput : port.type.output = true)
    (hvalid : ∀ part, netlist.parts[ref.part]? = some part → part.valid = true) :
    asSource = true := by
  obtain ⟨part, hpart, hmem⟩ := part_of_port hport
  rcases hadmits with has | hinvalid | hexternal
  · exact has
  · have := (hinvalid part hpart).symm.trans (hvalid part hpart)
    cases this
  · have hone := (hbuilt part (List.mem_of_getElem? hpart)).external
      (List.mem_of_getElem? hmem) (hexternal port hport)
    have hinput : port.type.input = false := by
      simpa [PortType.bidirectional, houtput] using hone
    exact (Bool.and_eq_true_iff.mp (huse.resolve_right (by simp [hinput]))).1

theorem Wired.bind (h : netlist.Wired) (hbuilt : ∀ part ∈ netlist.parts, part.Built)
    (hregular : ∀ part ∈ (netlist.bind index ref asSource).parts, part.Regular)
    (hadmits : netlist.Admits ref asSource) : (netlist.bind index ref asSource).Wired := by
  rcases bind_cases netlist index ref asSource with ⟨diagnostics, heq⟩ |
    ⟨port, net, hport, hnet, huse, hwidth, heq⟩
  · rw [heq]
    exact h.congr rfl rfl
  rw [heq] at hregular ⊢
  have hlt := (List.getElem?_eq_some_iff.mp hnet).1
  have hself := attached_self index net asSource hport
  refine ⟨hregular, ?_, ?_, ?_⟩
  · intro other found source hother hsource
    rcases nets_attached_cases hlt hother with ⟨rfl, rfl⟩ | ⟨-, hother⟩
    · rcases Net.mem_sources_attach.mp hsource with hmem | ⟨rfl, hdrives⟩
      · obtain ⟨before, hattached, houtput⟩ := h.source hnet hmem
        exact ⟨_, hattached.attach hwidth, by simpa using houtput⟩
      · exact ⟨_, hself, by simpa using (Bool.and_eq_true_iff.mp hdrives).2⟩
    · obtain ⟨before, hattached, houtput⟩ := h.source hother hsource
      exact ⟨_, hattached.bind (fun _ => port_attached ..) id (Or.inr rfl), by simpa using houtput⟩
  · intro other found target hother htarget
    rcases nets_attached_cases hlt hother with ⟨rfl, rfl⟩ | ⟨-, hother⟩
    · rcases Net.mem_targets_attach.mp htarget with hmem | ⟨rfl, hinput⟩
      · obtain ⟨before, hattached, hinput⟩ := h.target hnet hmem
        exact ⟨_, hattached.attach hwidth, by simpa using hinput⟩
      · exact ⟨_, hself, by simpa using hinput⟩
    · obtain ⟨before, hattached, hinput⟩ := h.target hother htarget
      exact ⟨_, hattached.bind (fun _ => port_attached ..) id (Or.inr rfl), by simpa using hinput⟩
  · intro other after place hafter hbound
    rw [port_attached] at hafter
    obtain ⟨before, hbefore, rfl⟩ := Option.map_eq_some_iff.mp hafter
    have hvalid : (∀ part, (netlist.attached index ref (net.attach ref asSource port)).parts[
        other.part]? = some part → part.valid = true) →
          ∀ part, netlist.parts[other.part]? = some part → part.valid = true := by
      intro hall part hpart
      have hvalid := hall _ (by rw [parts_attached, hpart, Option.map_some])
      split at hvalid <;> exact hvalid
    rw [type_joined]
    by_cases hsame : other = ref
    · subst hsame
      obtain rfl := Option.some.inj (hport.symm.trans hbefore)
      obtain rfl : index = place := by
        rw [joined, if_pos rfl] at hbound
        exact Option.some.inj hbound
      refine ⟨_, List.getElem?_set_self hlt, fun hinput => ?_, fun hinput => ?_,
        fun houtput hall => ?_⟩
      · exact Net.mem_targets_attach.mpr (Or.inr ⟨rfl, hinput⟩)
      · exact Net.mem_sources_attach.mpr (Or.inr ⟨rfl, huse.resolve_right (by simp [hinput])⟩)
      · have has := hadmits.source hbuilt hport huse houtput (hvalid hall)
        exact Net.mem_sources_attach.mpr (Or.inr ⟨rfl, by rw [has, houtput, Bool.true_and]⟩)
    · rw [joined, if_neg hsame] at hbound
      obtain ⟨found, hfound, htarget, hsource, hboth⟩ := h.known hbefore hbound
      by_cases hindex : place = index
      · subst hindex
        obtain rfl := Option.some.inj (hnet.symm.trans hfound)
        exact ⟨_, List.getElem?_set_self hlt,
          fun hinput => Net.targets_subset_attach (htarget hinput),
          fun hinput => Net.sources_subset_attach (hsource hinput),
          fun houtput hall => Net.sources_subset_attach (hboth houtput (hvalid hall))⟩
      · exact ⟨found, (List.getElem?_set_ne (Ne.symm hindex)).trans hfound, htarget, hsource,
          fun houtput hall => hboth houtput (hvalid hall)⟩

/-! ## Growing -/

theorem built_bind (index : Nat) (ref : PortRef) (asSource : Bool)
    (hbuilt : ∀ part ∈ netlist.parts, part.Built) :
    ∀ part ∈ (netlist.bind index ref asSource).parts, part.Built := by
  rcases bind_cases netlist index ref asSource with ⟨_, heq⟩ | ⟨port, net, -, -, -, -, heq⟩
  · rw [heq]
    exact hbuilt
  · rw [heq]
    intro part hpart
    obtain ⟨other, hother⟩ := List.mem_iff_getElem?.mp hpart
    rw [parts_attached] at hother
    obtain ⟨before, hbefore, rfl⟩ := Option.map_eq_some_iff.mp hother
    obtain ⟨definition, args, assembly, hnative, hassemble, hports, hphases, hdevice, hvalid⟩ :=
      hbuilt before (List.mem_of_getElem? hbefore)
    refine ⟨definition, args, assembly, hnative, hassemble, ?_⟩
    split
    · exact ⟨(Part.map_ports_attach (fun _ => rfl) ..).trans hports, hphases, hdevice, hvalid⟩
    · exact ⟨hports, hphases, hdevice, hvalid⟩

theorem wired_extend (hnative : library.Native) (hstep : Extend library netlist next)
    (hbuilt : ∀ part ∈ netlist.parts, part.Built) (h : netlist.Wired) :
    (∀ part ∈ next.parts, part.Built) ∧ next.Wired := by
  cases hstep with
  | diagnostics diagnostics => exact ⟨hbuilt, h.congr rfl rfl⟩
  | scope parent name => exact ⟨hbuilt, h.congr rfl rfl⟩
  | part part hmade hunbound =>
    have hpart := hmade.built hnative
    refine ⟨fun other hother => ?_, h.addPart hpart.regular hunbound⟩
    rcases List.mem_append.mp hother with hother | hother
    · exact hbuilt other hother
    · rw [List.mem_singleton.mp hother]
      exact hpart
  | net scope wires => exact ⟨hbuilt, h.addNet scope wires⟩
  | bind index ref asSource hadmits =>
    have hparts := built_bind index ref asSource hbuilt
    exact ⟨hparts, h.bind hbuilt (fun part hpart => (hparts part hpart).regular) hadmits⟩

theorem wired_grows (hnative : library.Native) (hgrows : Grows library netlist next)
    (hbuilt : ∀ part ∈ netlist.parts, part.Built) (h : netlist.Wired) :
    (∀ part ∈ next.parts, part.Built) ∧ next.Wired := by
  induction hgrows with
  | refl => exact ⟨hbuilt, h⟩
  | tail _ hstep ih => exact wired_extend hnative hstep ih.1 ih.2

theorem sound_flatten (hnative : library.Native) (schematic : Schematic) :
    (∀ part ∈ (flatten library schematic).parts, part.Built) ∧
      (flatten library schematic).Wired := by
  refine wired_grows hnative (grows_flatten library schematic) ?_ ⟨?_, ?_, ?_, ?_⟩
  · exact fun part hpart => absurd hpart List.not_mem_nil
  · exact fun part hpart => absurd hpart List.not_mem_nil
  · intro index net ref hnet
    cases hnet
  · intro index net ref hnet
    cases hnet
  · intro ref port index hport
    cases hport

theorem built_flatten (hnative : library.Native) (schematic : Schematic) :
    ∀ part ∈ (flatten library schematic).parts, part.Built :=
  (sound_flatten hnative schematic).1

/-- A flat netlist of built-in components is wired. -/
theorem wired_flatten (hnative : library.Native) (schematic : Schematic) :
    (flatten library schematic).Wired :=
  (sound_flatten hnative schematic).2

/-! ## Tri-state nets -/

/-- The net lists a tri-state port. -/
def ListsTristate (netlist : Netlist) (net : Net) : Prop :=
  ∃ ref port, (ref ∈ net.sources ∨ ref ∈ net.targets) ∧ netlist.port? ref = some port ∧
    port.type.tristate = true

theorem ListsTristate.mono {wide : Net} (h : netlist.ListsTristate net)
    (hports : ∀ ref port, netlist.port? ref = some port →
      ∃ port', next.port? ref = some port' ∧ port'.type = port.type)
    (hsources : net.sources ⊆ wide.sources) (htargets : net.targets ⊆ wide.targets) :
    next.ListsTristate wide := by
  obtain ⟨ref, port, hlists, hport, htristate⟩ := h
  obtain ⟨port', hport', htype⟩ := hports ref port hport
  exact ⟨ref, port', hlists.imp (hsources ·) (htargets ·), hport', htype ▸ htristate⟩

/-- A net is tri-state only because of the ports that it lists. -/
theorem tristate_extend (hstep : Extend library netlist next)
    (h : ∀ net ∈ netlist.nets, net.tristate = true → netlist.ListsTristate net) :
    ∀ net ∈ next.nets, net.tristate = true → next.ListsTristate net := by
  cases hstep with
  | diagnostics | scope => exact h
  | part part _ _ =>
    exact fun net hnet htristate => (h net hnet htristate).mono
      (fun ref port hport => ⟨port, port_addPart hport part, rfl⟩) (List.Subset.refl _)
      (List.Subset.refl _)
  | net scope wires =>
    intro net hnet htristate
    rcases List.mem_append.mp hnet with hnet | hnet
    · exact h net hnet htristate
    · rw [List.mem_singleton.mp hnet] at htristate
      cases htristate
  | bind index ref asSource _ =>
    rcases bind_cases netlist index ref asSource with ⟨diagnostics, heq⟩ |
      ⟨port, net, hport, hnet, huse, -, heq⟩
    · rw [heq]
      exact h
    have hports : ∀ other found, netlist.port? other = some found → ∃ port',
        (netlist.bind index ref asSource).port? other = some port' ∧ port'.type = found.type := by
      intro other found hfound
      refine ⟨joined index ref other found, ?_, type_joined ..⟩
      rw [heq, port_attached, hfound]
      rfl
    intro wide hwide htristate
    rw [heq] at hwide
    rcases List.mem_or_eq_of_mem_set hwide with hwide | rfl
    · exact (h wide hwide htristate).mono hports (List.Subset.refl _) (List.Subset.refl _)
    rcases Bool.or_eq_true_iff.mp htristate with hbefore | hself
    · exact (h net (List.mem_of_getElem? hnet) hbefore).mono hports Net.sources_subset_attach
        Net.targets_subset_attach
    · obtain ⟨port', hport', htype⟩ := hports ref port hport
      exact ⟨ref, port', huse.imp (fun hdrives => Net.mem_sources_attach.mpr (Or.inr ⟨rfl, hdrives⟩))
        (fun hreads => Net.mem_targets_attach.mpr (Or.inr ⟨rfl, hreads⟩)), hport', htype ▸ hself⟩

theorem tristate_flatten (library : Library) (schematic : Schematic) :
    ∀ net ∈ (flatten library schematic).nets, net.tristate = true →
      (flatten library schematic).ListsTristate net := by
  generalize flatten library schematic = next, grows_flatten library schematic = hgrows
  induction hgrows with
  | refl => exact fun net hnet => nomatch hnet
  | tail _ hstep ih => exact tristate_extend hstep ih

end Netlist

end Breadboard
