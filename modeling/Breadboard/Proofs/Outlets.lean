import Breadboard.Proofs.SharedBus
import Breadboard.Proofs.Spoken

/-!
# What a driver puts on a bus

The output of a driver of a bus is the output of its buffer or, if it is wrapped, the
outer pin of the boundary port that lets the output out (`Netlist.Outlet`). When a
circuit is settled, an outlet drives exactly while the enable line of its driver is not
zero, and then shows what its data line holds (`Outlet.drives`): every boundary port on
the way in hands a line on as it is, and the one on the way out drives what it is told
and lets go when it is told nothing.
-/

namespace Breadboard

namespace Netlist

variable {netlist : Netlist} {before after : State} {index inner outer data enable width : Nat}
  {ref : PortRef} {port : Port} {placed : Part} {net : Net} {boundary : Component}

/-- A net of this width without tri-state drivers. -/
def Line (netlist : Netlist) (index width : Nat) : Prop :=
  ∃ net, netlist.nets[index]? = some net ∧ net.tristate = false ∧ net.width = width

/-- An inbound boundary port hands a line on to one that nothing else drives. -/
structure Inlet (netlist : Netlist) (boundary : Component) (width outer inner : Nat) : Prop where
  outside : netlist.Line outer width
  inside : netlist.Line inner width
  passes : ∃ part placed net, netlist.parts[part]? = some placed ∧
    placed.MadeOf (Builtin.boundary.assemble boundary.args) ∧
    netlist.HasTarget outer ⟨part, 1⟩ ∧ netlist.nets[inner]? = some net ∧
    net.sources = [⟨part, 0⟩]

/-- The pin lets out what a buffer makes of a data and an enable line. -/
inductive Outlet (netlist : Netlist) : Nat → Nat → PortRef → Prop where
  | buffer {part data enable : Nat} {placed : Part} {args : Json} :
      netlist.parts[part]? = some placed → placed.MadeOf (Builtin.buffer.assemble args) →
      netlist.HasTarget data ⟨part, 1⟩ → netlist.HasTarget enable ⟨part, 0⟩ →
      Outlet netlist data enable ⟨part, 2⟩
  | wrapped {data data' enable enable' bus part : Nat} {ref : PortRef} {placed : Part} {net : Net} :
      Outlet netlist data' enable' ref → netlist.Inlet dataPort 8 data data' →
      netlist.Inlet enablePort 1 enable enable' → netlist.parts[part]? = some placed →
      placed.MadeOf (Builtin.boundary.assemble outPort.args) →
      netlist.nets[bus]? = some net → net.tristate = true → net.width = 8 →
      net.sources = [ref] → netlist.HasTarget bus ⟨part, 0⟩ → Outlet netlist data enable ⟨part, 1⟩

/-! ## Settled circuits -/

/-- A plain output drives just while it is enabled. -/
theorem isDriving_of_decl {decl : PortDecl} (hdecl : netlist.decl? ref = some decl)
    (houtput : decl.type.output = true) (hinput : decl.type.input = false) (state : State) :
    Net.isDriving netlist state ref = (state.pin ref).enabled := by
  obtain ⟨port, hport, rfl⟩ := Option.map_eq_some_iff.mp hdecl
  rw [Net.isDriving, hport, Option.getD_some, Pin.drives]
  simp [houtput, hinput, PortType.bidirectional]

theorem exists_port_of_madeOf {part : Nat} {assembly : Assembly} {decl : PortDecl}
    (hpart : netlist.parts[part]? = some placed) (hmade : placed.MadeOf assembly) (position : Nat)
    (hdecl : assembly.ports[position]? = some decl) :
    ∃ port, netlist.port? ⟨part, position⟩ = some port ∧ port.toPortDecl = decl :=
  Option.map_eq_some_iff.mp ((decl?_of_madeOf hpart hmade position).trans hdecl)

namespace Settled

variable (h : netlist.Settled before after) (hwired : netlist.Wired)
  (hsound : State.Sound netlist after)

include h

/-- What the last phase of its part does to a pin has been done. -/
theorem edit_last (hwired : netlist.Wired) (hsound : State.Sound netlist after) (ref : PortRef)
    (hpart : netlist.parts[ref.part]? = some placed) (hport : netlist.port? ref = some port) :
    ((placed.device.effect placed.ports placed.device.last (after.part ref.part)).edit ref.port).apply
      (after.pin ref) = after.pin ref := by
  obtain ⟨phase, hphase, hlatch⟩ := (hwired.regularAt hpart).exists_last
  rw [← State.effect_eq hpart, ← State.pin_phase hwired hsound hport]
  exact h.again (phase_of_part hpart hphase hlatch) ref

theorem value_target (hline : netlist.Line index width) (htarget : netlist.HasTarget index ref) :
    (after.pin ref).value = (after.net index).value ∧ (after.pin ref).resolved = true := by
  obtain ⟨net, hnet, hplain, -⟩ := hline
  obtain ⟨found, hfound, hmem⟩ := htarget
  obtain rfl := Option.some.inj (hnet.symm.trans hfound)
  exact (h.plain hnet hplain).2.2 ref hmem

/-- The value of a line fits it. -/
theorem trim_line (hline : netlist.Line index width) :
    trim width (after.net index).value = (after.net index).value := by
  obtain ⟨net, hnet, hplain, rfl⟩ := hline
  obtain ⟨hone, hother, -⟩ := h.plain hnet hplain
  by_cases hlength : net.sources.length = 1
  · obtain ⟨source, hsource⟩ := List.length_eq_one_iff.mp hlength
    rw [hone source hsource, trim_trim]
  · rw [hother hlength, Builtin.trim_zero]

/-- A line that an inbound boundary port hands on is the same inside. -/
theorem value_inlet (hwired : netlist.Wired) (hsound : State.Sound netlist after)
    (hinbound : boundary.args.text "dir" "in" ≠ "out")
    (hplain : boundary.args.flag "tristate" false = false)
    (hinlet : netlist.Inlet boundary width outer inner) :
    (after.net inner).value = (after.net outer).value := by
  obtain ⟨houter, ⟨net, hnet, hclosed, rfl⟩, part, placed, found, hpart, hmade, htarget, hfound,
    hsources⟩ := hinlet
  obtain rfl := Option.some.inj (hnet.symm.trans hfound)
  obtain ⟨hvalue, hresolved⟩ := h.value_target houter htarget
  obtain ⟨port, hport, -⟩ := exists_port_of_madeOf hpart hmade 0 rfl
  obtain ⟨_, hlisting, hmem⟩ := id htarget
  obtain ⟨near, hattached, -⟩ := hwired.target hlisting hmem
  obtain ⟨found, hfound, hnear⟩ := part_of_port hattached.found
  obtain rfl := Option.some.inj (hpart.symm.trans hfound)
  have hdone := h.edit_last hwired hsound ⟨part, 0⟩ hpart hport
  have hdevice : placed.device = .boundary true false (trim (boundary.args.width "width" 1)
      (boundary.args.word "value" 0)) := by
    rw [hmade.device]
    simp [Builtin.assemble, Boundary.outerDecl, hinbound, hplain]
  have hpassed : Device.passed true (trim (boundary.args.width "width" 1)
      (boundary.args.word "value" 0)) (placed.ports.getD 1 default).bound
      ((after.part part).pin 1) = some (after.net outer).value := by
    rw [List.getD_eq_getElem?_getD, hnear, Option.getD_some, Device.passed, if_pos hattached.bound]
    rw [State.pin] at hvalue hresolved
    rw [if_pos hresolved, hvalue]
  rw [hdevice, Device.effect_boundary] at hdone
  simp only [if_true, hpassed, Effect.edit_put] at hdone
  have hshown : (after.pin ⟨part, 0⟩).value = (after.net outer).value := by
    rw [← hdone]
    rfl
  rw [(h.plain hnet hclosed).1 _ hsources, hshown, h.trim_line houter]

end Settled

/-- What an outlet does once the circuit has settled: it drives just while the enable
line is not zero, and then shows what the data line holds. -/
structure Driven (netlist : Netlist) (after : State) (data enable : Nat) (ref : PortRef) : Prop where
  driving : Net.isDriving netlist after ref = decide ((after.net enable).value ≠ 0)
  value : (after.net enable).value ≠ 0 → (after.pin ref).value = (after.net data).value

/-- A pin that is told the data while the enable line is not zero, and to let go
otherwise. -/
theorem driven_of_drive {decl : PortDecl} (hdecl : netlist.decl? ref = some decl)
    (houtput : decl.type.output = true) (hinput : decl.type.input = false)
    (hdone : (Edit.drive false (if (after.net enable).value = 0 then none
      else some (after.net data).value)).apply (after.pin ref) = after.pin ref) :
    netlist.Driven after data enable ref := by
  by_cases hzero : (after.net enable).value = 0
  · rw [if_pos hzero] at hdone
    refine ⟨?_, fun hne => absurd hzero hne⟩
    rw [isDriving_of_decl hdecl houtput hinput, ← hdone]
    simp [Edit.apply, Pin.drive, hzero]
  · rw [if_neg hzero] at hdone
    refine ⟨?_, fun _ => ?_⟩
    · rw [isDriving_of_decl hdecl houtput hinput, ← hdone]
      simp [Edit.apply, Pin.drive, hzero]
    · rw [← hdone]
      rfl

theorem Settled.driven_of_sources (h : netlist.Settled before after)
    (hdriven : netlist.Driven after data enable ref) (hline : netlist.Line data 8)
    {bus : Nat} {target : PortRef} (hnet : netlist.nets[bus]? = some net)
    (htristate : net.tristate = true) (hwidth : net.width = 8) (hsources : net.sources = [ref])
    (htarget : target ∈ net.targets) :
    (if (after.pin target).resolved then some (after.pin target).value else none) =
      if (after.net enable).value = 0 then none else some (after.net data).value := by
  have hdriving : net.driving netlist after =
      if (after.net enable).value = 0 then [] else [ref] := by
    rw [Net.driving, hsources, List.filter_singleton, hdriven.driving]
    by_cases hzero : (after.net enable).value = 0 <;> simp [hzero]
  by_cases hzero : (after.net enable).value = 0
  · rw [if_pos hzero] at hdriving
    have hopen := (h.undriven hnet htristate (by simp [hdriving])).2 target htarget
    rw [if_pos hzero, hopen]
    rfl
  · rw [if_neg hzero] at hdriving
    obtain ⟨hvalue, hresolved⟩ := (h.driven hnet htristate hdriving).2 target htarget
    rw [if_neg hzero, if_pos hresolved, hvalue, hdriven.value hzero, hwidth, h.trim_line hline]

/-- Every outlet of a settled circuit does so, however deep its buffer is wrapped. -/
theorem Outlet.driven (houtlet : netlist.Outlet data enable ref)
    (h : netlist.Settled before after) (hwired : netlist.Wired)
    (hsound : State.Sound netlist after) (hdata : netlist.Line data 8)
    (henable : netlist.Line enable 1) : netlist.Driven after data enable ref := by
  induction houtlet with
  | @buffer part data enable placed args hpart hmade hin hen =>
    obtain ⟨port, hport, -⟩ := exists_port_of_madeOf hpart hmade 2 rfl
    have hdone := h.edit_last hwired hsound ⟨part, 2⟩ hpart hport
    rw [hmade.device] at hdone
    refine driven_of_drive (decl?_of_madeOf hpart hmade 2) rfl rfl ?_
    rw [← (h.value_target hdata hin).1, ← (h.value_target henable hen).1]
    exact hdone
  | @wrapped data data' enable enable' bus part ref placed net _ hin hen hpart hmade hnet htristate
      hwidth hsources htarget ih =>
    have hinner := ih hin.inside hen.inside
    obtain ⟨_, hlisting, hmem⟩ := htarget
    obtain rfl := Option.some.inj (hnet.symm.trans hlisting)
    have hshown := h.driven_of_sources hinner hin.inside hnet htristate hwidth hsources hmem
    rw [h.value_inlet hwired hsound (by decide) rfl hin,
      h.value_inlet hwired hsound (by decide) rfl hen] at hshown
    obtain ⟨port, hport, hdecl⟩ := exists_port_of_madeOf hpart hmade 1 rfl
    have hdone := h.edit_last hwired hsound ⟨part, 1⟩ hpart hport
    refine driven_of_drive (decl?_of_madeOf hpart hmade 1) rfl rfl ?_
    rw [← hshown]
    -- the boundary port drives what its near pin holds, if that is resolved
    obtain ⟨near, hattached, -⟩ := hwired.target hnet hmem
    obtain ⟨found, hfound, hnear⟩ := part_of_port hattached.found
    obtain rfl := Option.some.inj (hpart.symm.trans hfound)
    obtain ⟨found, hfound, hfar⟩ := part_of_port hport
    obtain rfl := Option.some.inj (hpart.symm.trans hfound)
    have hboth : (placed.ports.getD 1 default).type.bidirectional = false := by
      rw [List.getD_eq_getElem?_getD, hfar, Option.getD_some, hdecl]
      rfl
    have hbound : (placed.ports.getD 0 default).bound = true := by
      rw [List.getD_eq_getElem?_getD, hnear, Option.getD_some, hattached.bound]
    rw [hmade.device] at hdone
    change (Edit.drive (placed.ports.getD 1 default).type.bidirectional
      (Device.passed false _ (placed.ports.getD 0 default).bound (after.pin ⟨part, 0⟩))).apply _ = _
      at hdone
    rwa [hboth, hbound] at hdone

end Netlist

end Breadboard
