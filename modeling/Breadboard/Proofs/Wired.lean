import Breadboard.Proofs.Built
import Breadboard.Proofs.Graph

/-!
# Netlists as they are wired

`Netlist.Wired` collects what the binding of ports to nets guarantees: a net
lists ports of the right direction, a port knows a net exactly if that net lists
it, and widths and tri-state flags agree. Settling relies on nothing else about
where a netlist comes from.

A port may still be listed by two nets, of which it knows the later one.
`Netlist.Single` excludes that.
-/

namespace Breadboard

namespace Netlist

/-- The net lists the port. -/
def Lists (netlist : Netlist) (index : Nat) (ref : PortRef) : Prop :=
  ∃ net, netlist.nets[index]? = some net ∧ (ref ∈ net.sources ∨ ref ∈ net.targets)

/-- A port as a net lists it. -/
structure Attached (netlist : Netlist) (net : Net) (ref : PortRef) (port : Port) : Prop where
  found : netlist.port? ref = some port
  bound : port.bound = true
  tristate : port.type.tristate = true → net.tristate = true
  width : port.width = net.width ∨ port.width = 0

structure Wired (netlist : Netlist) : Prop where
  regular : ∀ part ∈ netlist.parts, part.Regular
  source : ∀ {index : Nat} {net : Net} {ref : PortRef}, netlist.nets[index]? = some net →
    ref ∈ net.sources → ∃ port, netlist.Attached net ref port ∧ port.type.output = true
  target : ∀ {index : Nat} {net : Net} {ref : PortRef}, netlist.nets[index]? = some net →
    ref ∈ net.targets → ∃ port, netlist.Attached net ref port ∧ port.type.input = true
  known : ∀ {ref : PortRef} {port : Port} {index : Nat}, netlist.port? ref = some port →
    port.net = some index → ∃ net, netlist.nets[index]? = some net ∧
      (port.type.input = true → ref ∈ net.targets) ∧
      (port.type.input = false → ref ∈ net.sources) ∧
      (port.type.output = true → (∀ part, netlist.parts[ref.part]? = some part →
        part.valid = true) → ref ∈ net.sources)

/-- No port is listed by two nets. -/
def Single (netlist : Netlist) : Prop :=
  ∀ first second ref, netlist.Lists first ref → netlist.Lists second ref → first = second

variable {netlist : Netlist} {index other position : Nat} {net : Net} {ref : PortRef}
  {port : Port} {placed : Part} {phase : Phase}

theorem part_of_port (h : netlist.port? ref = some port) :
    ∃ part, netlist.parts[ref.part]? = some part ∧ part.ports[ref.port]? = some port :=
  Option.bind_eq_some_iff.mp h

theorem port_of_part (hpart : netlist.parts[ref.part]? = some placed)
    (hport : placed.ports[ref.port]? = some port) : netlist.port? ref = some port :=
  Option.bind_eq_some_iff.mpr ⟨placed, hpart, hport⟩

theorem phase_of_part (hpart : netlist.parts[index]? = some placed)
    (hphase : placed.phases[position]? = some phase) (hlatch : phase.latch = false) :
    netlist.Ordinary index position phase :=
  ⟨Option.bind_eq_some_iff.mpr ⟨placed, hpart, hphase⟩, hlatch⟩

theorem part_of_phase (h : netlist.Ordinary index position phase) :
    ∃ part, netlist.parts[index]? = some part ∧ part.phases[position]? = some phase :=
  Option.bind_eq_some_iff.mp h.1

namespace Wired

theorem regularAt (h : netlist.Wired) (hpart : netlist.parts[index]? = some placed) : placed.Regular :=
  h.regular placed (List.mem_of_getElem? hpart)

theorem native (h : netlist.Wired) : ∀ part ∈ netlist.parts, part.device.Native :=
  fun part hpart => (h.regular part hpart).native

theorem attached (h : netlist.Wired) (hnet : netlist.nets[index]? = some net)
    (href : ref ∈ net.sources ∨ ref ∈ net.targets) : ∃ port, netlist.Attached net ref port := by
  rcases href with href | href
  · obtain ⟨port, hport, -⟩ := h.source hnet href
    exact ⟨port, hport⟩
  · obtain ⟨port, hport, -⟩ := h.target hnet href
    exact ⟨port, hport⟩

theorem lists_of_bound (h : netlist.Wired) (hport : netlist.port? ref = some port)
    (hbound : port.net = some index) : netlist.Lists index ref := by
  obtain ⟨net, hnet, htarget, hsource, -⟩ := h.known hport hbound
  refine ⟨net, hnet, ?_⟩
  cases hinput : port.type.input with
  | true => exact Or.inr (htarget hinput)
  | false => exact Or.inl (hsource hinput)

/-- Without a second net, the net that lists a port is the one the port knows. -/
theorem net_eq (h : netlist.Wired) (hsingle : netlist.Single) (hlists : netlist.Lists index ref)
    (hport : netlist.port? ref = some port) : port.net = some index := by
  obtain ⟨net, hnet, href⟩ := hlists
  obtain ⟨found, hattached⟩ := h.attached hnet href
  obtain rfl := Option.some.inj (hattached.found.symm.trans hport)
  obtain ⟨other, hother⟩ := Option.isSome_iff_exists.mp hattached.bound
  rw [hother, hsingle other index ref (h.lists_of_bound hport hother) ⟨net, hnet, href⟩]

/-- A source that knows its net is driven by the last phase of its part. -/
theorem writes (h : netlist.Wired) (hnet : netlist.nets[index]? = some net)
    (href : ref ∈ net.sources) (hport : netlist.port? ref = some port)
    (hbound : port.net = some index) (hpart : netlist.parts[ref.part]? = some placed) :
    netlist.Writes ref.part placed.device.last ref.port index := by
  obtain ⟨found, hattached, houtput⟩ := h.source hnet href
  obtain rfl := Option.some.inj (hattached.found.symm.trans hport)
  obtain ⟨phase, hphase, hlatch⟩ := (h.regularAt hpart).exists_last
  obtain ⟨owner, howner, hplace⟩ := part_of_port hport
  obtain rfl := Option.some.inj (howner.symm.trans hpart)
  refine ⟨phase, phase_of_part hpart hphase hlatch,
    (h.regularAt hpart).written hphase hplace houtput, ?_⟩
  refine Option.filter_eq_some_iff.mpr ⟨?_, ?_⟩
  · exact Option.bind_eq_some_iff.mpr ⟨found, hport, hbound⟩
  · simp [hnet, href]

/-- An input that a phase reads is a target of the net it knows. -/
theorem readNet (h : netlist.Wired) (hport : netlist.port? ref = some port)
    (hinput : port.type.input = true) (hbound : port.net = some index) :
    netlist.readNet? ref = some index := by
  obtain ⟨net, hnet, htarget, -⟩ := h.known hport hbound
  refine Option.filter_eq_some_iff.mpr ⟨?_, ?_⟩
  · exact Option.bind_eq_some_iff.mpr ⟨port, hport, hbound⟩
  · simp [hnet, htarget hinput]

end Wired

end Netlist

end Breadboard
