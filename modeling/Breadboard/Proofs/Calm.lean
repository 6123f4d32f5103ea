import Breadboard.Proofs.Seams
import Breadboard.Proofs.Stable
import Breadboard.Proofs.Spoken
import Mathlib.Data.List.GetD
import Mathlib.Data.List.Induction

/-!
# Settling a static circuit of plain nets

In a static circuit without tri-state nets (`Netlist.Plain`) a settle can be read off
the nets: a net shows what its only source shows, or 0 (`value_of_source`,
`value_of_unsourced`), a pin that a net reads shows the value of that net, and any other
pin shows what its part told it last, or what it showed before (`look_plain`). What
parts remember stays, but for probes; and the circuit halts just if a part stops it.
-/

namespace Breadboard

theorem Effect.isHalted_status (effect : Effect) (status : Status) :
    (effect.status status).isHalted = (status.isHalted || effect.stop.isSome) := by
  obtain ⟨edit, memory, stop⟩ := effect
  cases status <;> cases stop <;> rfl

theorem Effect.status_eq_halted {effect : Effect} {status : Status} {reason : String}
    (h : effect.status status = .halted reason) :
    status = .halted reason ∨ effect.stop = some reason := by
  obtain ⟨edit, memory, stop⟩ := effect
  cases status with
  | halted other => exact Or.inl h
  | running =>
    cases stop with
    | none => cases h
    | some other => exact Or.inr (congrArg some (Status.halted.inj h))

namespace Device

/-- Only a halt stops the circuit. -/
theorem halt_of_stop {device : Device} {ports : List Port} {position : Nat} {held : PartState}
    (hstop : (device.effect ports position held).stop.isSome = true) :
    ∃ reason, device = .halt reason := by
  obtain ⟨pins, memory⟩ := held
  cases device with
  | halt reason => exact ⟨reason, rfl⟩
  | boundary inbound tristate value =>
    simp only [effect] at hstop
    generalize passed _ _ _ _ = shown at hstop
    cases tristate <;> cases shown <;> cases hstop
  | adder width carryIn carryOut =>
    simp only [effect] at hstop
    cases carryOut <;> cases hstop
  | _ =>
    cases memory <;> simp only [effect] at hstop <;> first
      | cases hstop
      | (split at hstop <;> first | cases hstop | (split at hstop <;> cases hstop))

end Device

namespace Netlist

/-- A static circuit of plain nets, each with one driver at most. -/
structure Plain (netlist : Netlist) : Prop where
  flat : netlist.Flat
  static : netlist.Static
  plain : ∀ net ∈ netlist.nets, net.tristate = false
  lone : ∀ net ∈ netlist.nets, net.sources.length ≤ 1
  width : ∀ part ∈ netlist.parts, ∀ port ∈ part.ports, port.width ≠ 0

variable {netlist : Netlist} {state : State} {ref : PortRef} {port : Port} {placed : Part}
  {index part position : Nat} {net : Net} {phase : Phase} {left right : List Task}

theorem hasTarget_iff : netlist.HasTarget index ref ↔
    ref ∈ (netlist.nets.getD index default).targets :=
  mem_targets_getD.symm

theorem untold_iff : netlist.Untold ref ↔ ∀ index, ¬ netlist.HasTarget index ref :=
  forall_congr' fun _ => not_congr hasTarget_iff.symm

theorem bound_iff (hwired : netlist.Wired) (hport : netlist.port? ref = some port) :
    port.bound = true ↔ ∃ index, netlist.Lists index ref := by
  constructor
  · intro hbound
    obtain ⟨index, hindex⟩ := Option.isSome_iff_exists.mp hbound
    exact ⟨index, hwired.lists_of_bound hport hindex⟩
  · rintro ⟨index, net, hnet, href⟩
    obtain ⟨found, hattached⟩ := hwired.attached hnet href
    obtain rfl := Option.some.inj (hattached.found.symm.trans hport)
    exact hattached.bound

/-- What a phase reads is told by the net that it is wired to. -/
theorem hasTarget_of_read (hwired : netlist.Wired) (hpart : netlist.parts[part]? = some placed)
    (hphase : placed.phases[position]? = some phase) (hlatch : phase.latch = false) {pin : Nat}
    (hread : pin ∈ phase.reads) (hplace : placed.ports[pin]? = some port)
    (hbound : port.bound = true) : ∃ index, netlist.HasTarget index ⟨part, pin⟩ := by
  obtain ⟨index, hindex⟩ := Option.isSome_iff_exists.mp hbound
  have hport : netlist.port? ⟨part, pin⟩ = some port := port_of_part hpart hplace
  obtain ⟨net, hnet, htarget, -⟩ := hwired.known hport hindex
  have hinput := ((hwired.regularAt hpart).reads hphase hlatch hread hplace).1
  exact ⟨index, net, hnet, htarget hinput⟩

/-- The status at the end of a settle comes from the one at its beginning by what the phases
do in the end, since nothing that a phase has seen changes afterwards. -/
theorem status_induction (hwired : netlist.Wired) (hstatic : netlist.Static)
    (h : State.Sound netlist state) {motive : List Task → Status → Prop}
    (nil : motive [] state.status)
    (net : ∀ left index status, motive left status → motive (left ++ [.net index]) status)
    (phase : ∀ left part position phase status, netlist.Ordinary part position phase →
      motive left status → motive (left ++ [.phase part position])
        (((netlist.final state).effect netlist part position).status status)) :
    motive (netlist.trace state) (netlist.final state).status := by
  have hprefix : ∀ left right, netlist.trace state = left ++ right →
      motive left (netlist.after state left).status := by
    intro left
    induction left using List.reverseRecOn with
    | nil => exact fun _ _ => nil
    | append_singleton left last ih =>
      intro right htrace
      rw [List.append_assoc, List.singleton_append] at htrace
      have hbefore := ih _ htrace
      cases last with
      | net index =>
        rw [after_snoc, State.perform, State.status_resolve]
        exact net left index _ hbefore
      | phase part position =>
        obtain ⟨found, hphase⟩ := ordinary_of_split htrace
        obtain ⟨placed, hpart, -⟩ := part_of_phase hphase
        rw [status_after_phase hwired, effect_static hwired hstatic h htrace hpart]
        exact phase left part position found _ hphase hbefore
  rw [final_eq]
  exact hprefix _ [] (List.append_nil _).symm

/-- Nothing but a part stops the circuit. -/
theorem isHalted_final (hwired : netlist.Wired) (hstatic : netlist.Static)
    (h : State.Sound netlist state) : (netlist.final state).status.isHalted = true ↔
      state.status.isHalted = true ∨ ∃ part position phase,
        netlist.Ordinary part position phase ∧
          ((netlist.final state).effect netlist part position).stop.isSome = true := by
  refine Iff.trans (status_induction hwired hstatic h
    (motive := fun left status => status.isHalted = true ↔ state.status.isHalted = true ∨
      ∃ part position, .phase part position ∈ left ∧
        ((netlist.final state).effect netlist part position).stop.isSome = true)
    ?_ ?_ ?_) (or_congr_right ⟨?_, ?_⟩)
  · refine ⟨Or.inl, fun hhalted => hhalted.elim id ?_⟩
    rintro ⟨_, _, hmem, -⟩
    exact absurd hmem List.not_mem_nil
  · intro left index status hbefore
    rw [hbefore]
    simp
  · intro left part position _ status _ hbefore
    rw [Effect.isHalted_status, Bool.or_eq_true, hbefore]
    simp only [List.mem_append, List.mem_singleton, Task.phase.injEq]
    constructor
    · rintro ((hhalted | ⟨other, position', hmem, hstop⟩) | hstop)
      · exact Or.inl hhalted
      · exact Or.inr ⟨other, position', Or.inl hmem, hstop⟩
      · exact Or.inr ⟨part, position, Or.inr ⟨rfl, rfl⟩, hstop⟩
    · rintro (hhalted | ⟨other, position', hmem | ⟨rfl, rfl⟩, hstop⟩)
      · exact Or.inl (Or.inl hhalted)
      · exact Or.inl (Or.inr ⟨other, position', hmem, hstop⟩)
      · exact Or.inr hstop
  · rintro ⟨part, position, hmem, hstop⟩
    obtain ⟨phase, hphase⟩ := ordinary_of_mem_trace hmem
    exact ⟨part, position, phase, hphase, hstop⟩
  · rintro ⟨part, position, phase, hphase, hstop⟩
    obtain ⟨left, right, htrace⟩ := exists_split_phase hphase state
    exact ⟨part, position, htrace ▸ List.mem_append_right _ (List.mem_cons_self ..), hstop⟩

/-- The reason of a halt is that of a part which stops the circuit. -/
theorem exists_stop (hwired : netlist.Wired) (hstatic : netlist.Static)
    (h : State.Sound netlist state) (hrunning : state.status = .running) {reason : String}
    (hhalted : (netlist.final state).status = .halted reason) : ∃ part position phase,
      netlist.Ordinary part position phase ∧
        ((netlist.final state).effect netlist part position).stop = some reason := by
  revert hhalted
  refine status_induction hwired hstatic h
    (motive := fun _ status => status = .halted reason → ∃ part position phase,
      netlist.Ordinary part position phase ∧
        ((netlist.final state).effect netlist part position).stop = some reason)
    (fun hhalted => nomatch hrunning.symm.trans hhalted) (fun _ _ _ hbefore => hbefore) ?_
  intro left part position phase status hphase hbefore hhalted
  rcases Effect.status_eq_halted hhalted with hhalted | hstop
  · exact hbefore hhalted
  · exact ⟨part, position, phase, hphase, hstop⟩

namespace Plain

variable (h : netlist.Plain)

include h

/-- The port that drives a net. -/
theorem source (hsource : netlist.HasSource index ref) :
    ∃ net port placed, netlist.nets[index]? = some net ∧ net.sources = [ref] ∧
      netlist.port? ref = some port ∧ port.type.output = true ∧ port.type.tristate = false ∧
      net.width = port.width ∧ netlist.parts[ref.part]? = some placed ∧
      placed.ports[ref.port]? = some port := by
  obtain ⟨net, hnet, href⟩ := hsource
  have hmem := List.mem_of_getElem? hnet
  obtain ⟨port, hattached, houtput⟩ := h.flat.wired.source hnet href
  obtain ⟨placed, hpart, hplace⟩ := part_of_port hattached.found
  refine ⟨net, port, placed, hnet, ?_, hattached.found, houtput, ?_, ?_, hpart, hplace⟩
  · obtain ⟨only, hone⟩ := List.length_eq_one_iff.mp
      (Nat.le_antisymm (h.lone net hmem) (List.length_pos_of_mem href))
    rw [hone] at href ⊢
    rw [List.mem_singleton.mp href]
  · refine Bool.eq_false_iff.mpr fun htristate => ?_
    have hnone := h.plain net hmem
    rw [hattached.tristate htristate] at hnone
    cases hnone
  · exact (hattached.width.resolve_right
      (h.width placed (List.mem_of_getElem? hpart) port (List.mem_of_getElem? hplace))).symm

theorem untold_of_source (hsource : netlist.HasSource index ref) : netlist.Untold ref := by
  obtain ⟨net, port, placed, -, -, hport, houtput, hplain, -⟩ := h.source hsource
  exact fun other => not_target_of_plain h.flat.wired hport houtput hplain

/-- No side of a bridge is wired. -/
theorem not_bridge (hsource : netlist.HasSource index ref)
    (hpart : netlist.parts[ref.part]? = some placed) : placed.device ≠ .bridge := by
  intro hbridge
  obtain ⟨net, port, owner, -, -, hport, houtput, hplain, -, howner, hplace⟩ := h.source hsource
  obtain rfl := Option.some.inj (howner.symm.trans hpart)
  obtain ⟨-, width, hports⟩ := (h.flat.wired.regularAt hpart).bridge hbridge
  have hdecl : (owner.ports.map (·.toPortDecl))[ref.port]? = some port.toPortDecl := by
    rw [List.getElem?_map, hplace]
    rfl
  -- every output of a bridge is tri-state
  have hall : ∀ decl ∈ owner.ports.map (·.toPortDecl), decl.type.output = true →
      decl.type.tristate = true := by
    rw [hports]
    simp [PortType.ctrlIn, PortType.dataBus]
  rw [hall _ (List.mem_of_getElem? hdecl) houtput] at hplain
  cases hplain

theorem phase_before (hsource : netlist.HasSource index ref)
    (htrace : netlist.trace state = left ++ .net index :: right)
    (hpart : netlist.parts[ref.part]? = some placed) :
    .phase ref.part placed.device.last ∈ left := by
  obtain ⟨net, port, owner, hnet, hsources, hport, houtput, -⟩ := h.source hsource
  have hdriven := drivenBefore_static h.flat.wired h.static hnet
    (hsources ▸ List.mem_singleton_self ref) state
  rwa [drivenBefore_eq h.flat.wired htrace hport hpart houtput, decide_eq_true_eq] at hdriven

theorem net_before (htrace : netlist.trace state = left ++ .phase part position :: right)
    (hphase : netlist.Ordinary part position phase) (hanyOf : phase.anyOf = []) {pin : Nat}
    (hread : pin ∈ phase.reads) (htarget : netlist.HasTarget index ⟨part, pin⟩) :
    .net index ∈ left := by
  obtain ⟨net, hnet, href⟩ := id htarget
  obtain ⟨port, hattached, -⟩ := h.flat.wired.target hnet href
  exact net_mem_left h.flat.wired h.static.loops h.static.crossing htrace hphase hread hanyOf
    hattached.found (h.flat.wired.net_eq h.static.single htarget.lists hattached.found)

variable (hsound : State.Sound netlist state)

include hsound

/-! ## Values -/

theorem value_of_source (hsource : netlist.HasSource index ref)
    (hport : netlist.port? ref = some port) :
    ((netlist.final state).net index).value =
      trim port.width ((netlist.final state).look ref).1 := by
  obtain ⟨net, found, -, hnet, hsources, hfound, -, -, hwidth, -⟩ := h.source hsource
  obtain rfl := Option.some.inj (hfound.symm.trans hport)
  rw [net_static h.flat h.static hsound hnet,
    verdict_plain hnet (h.plain net (List.mem_of_getElem? hnet)), hsources, ← hwidth]
  rfl

theorem value_of_unsourced (hnone : ∀ ref, ¬ netlist.HasSource index ref) :
    ((netlist.final state).net index).value = 0 := by
  cases hnet : netlist.nets[index]? with
  | none =>
    rw [State.net, List.getD_eq_default]
    · rfl
    · rw [(sound_final h.flat.wired hsound).nets]
      exact List.getElem?_eq_none_iff.mp hnet
  | some net =>
    have hsources : net.sources = [] :=
      List.eq_nil_iff_forall_not_mem.mpr fun ref href => hnone ref ⟨net, hnet, href⟩
    rw [net_static h.flat h.static hsound hnet,
      verdict_plain hnet (h.plain net (List.mem_of_getElem? hnet)), hsources]
    rfl

/-- A net shows no more than its width. -/
theorem trim_value (hnet : netlist.nets[index]? = some net) :
    trim net.width ((netlist.final state).net index).value =
      ((netlist.final state).net index).value := by
  rw [net_static h.flat h.static hsound hnet,
    verdict_plain hnet (h.plain net (List.mem_of_getElem? hnet))]
  split
  · exact trim_trim ..
  · exact Builtin.trim_zero _

theorem look_of_target (htarget : netlist.HasTarget index ref) :
    (netlist.final state).look ref = (((netlist.final state).net index).value, true) := by
  obtain ⟨net, hnet, href⟩ := htarget
  obtain ⟨word, hword⟩ : ∃ word, ((netlist.final state).verdict netlist index).1 = some word := by
    rw [verdict_plain hnet (h.plain net (List.mem_of_getElem? hnet))]
    split <;> exact ⟨_, rfl⟩
  obtain ⟨held, hlook⟩ := target_static h.flat h.static hsound hnet href
  rw [hlook, net_static h.flat h.static hsound hnet, hword]
  rfl

/-- A pin that no net tells anything shows what its part told it, or what it showed
before. -/
theorem look_plain (hport : netlist.port? ref = some port) (huntold : netlist.Untold ref) :
    (netlist.final state).look ref =
      ((netlist.lastEdit (netlist.final state) ref).told.getD (state.look ref).1,
        (state.look ref).2) := by
  have hwired := h.flat.wired
  obtain ⟨placed, hpart, -⟩ := part_of_port hport
  obtain ⟨left, right, htrace⟩ := exists_split_last hwired hpart state
  have hsplit : netlist.trace state = (left ++ [.phase ref.part placed.device.last]) ++ right := by
    rw [htrace, List.append_assoc, List.singleton_append]
  have hpin := pin_final hwired hsound hsplit hport hpart
    (List.mem_append_right _ (List.mem_singleton_self _)) fun index _ => huntold index
  have hearly := look_early hwired hsound
    (fun part position htask => ordinary_of_mem_left htrace htask) hport hpart
    (not_mem_split htrace).1 fun index _ => huntold index
  rw [State.look, ← hpin, pin_after_phase hwired hsound hport, if_pos rfl,
    effect_static hwired h.static hsound htrace hpart, ← lastEdit_eq hpart, Edit.value_apply,
    Edit.resolved_apply, ← hearly]
  rfl

/-- A part that never says anything leaves 0 on its net. -/
theorem value_of_mute (hblank : State.Blank netlist state) (hsource : netlist.HasSource index ref)
    (hpart : netlist.parts[ref.part]? = some placed)
    (hmute : placed.device.Mute placed.ports ref.port) :
    ((netlist.final state).net index).value = 0 := by
  obtain ⟨-, port, -, -, -, hport, -⟩ := h.source hsource
  have huntold := h.untold_of_source hsource
  rw [h.value_of_source hsound hsource hport, h.look_plain hsound hport huntold,
    lastEdit_eq hpart, State.effect_eq hpart, hmute, Option.getD_none, State.look,
    hblank.value hport hpart huntold hmute]
  exact Builtin.trim_zero _

end Plain

end Netlist

end Breadboard
