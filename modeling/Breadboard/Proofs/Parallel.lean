import Breadboard.Proofs.Mirror
import Breadboard.Proofs.Synchronous

/-!
# Running with and without seams

A simulation of a circuit with seams and one of the circuit without them run in
parallel (`Simulation.Parallel`): their states hold the same, and merged nets show the
same value. Settling, the clock edge, a cycle, a reset and setting an input on both
sides keep it so, and so does starting.
-/

namespace Breadboard

/-! ## The clock edge -/

/-- Only registers and memories see the clock edge, in their second phase. -/
theorem Builtin.position_of_latch {builtin : Builtin} {args : Json} {position : Nat} {phase : Phase}
    (hphase : (builtin.assemble args).phases[position]? = some phase)
    (hlatch : phase.latch = true) :
    position = 1 ∧ (builtin.assemble args).device.stores = true := by
  cases builtin with
  | register | ram =>
    rcases position with _ | _ | position
    · obtain rfl := Option.some.inj hphase
      cases hlatch
    · exact ⟨rfl, rfl⟩
    · cases hphase
  | boundary =>
    rcases position with _ | position
    · cases hinput : (Boundary.outerDecl args "").type.input <;>
        simp_all [assemble] <;> subst hphase <;> cases hlatch
    · cases hphase
  | _ =>
    rcases position with _ | _ | position <;> simp_all [assemble] <;> subst hphase <;> cases hlatch

theorem Part.Built.position_of_latch {part : Part} {position : Nat} {phase : Phase}
    (h : part.Built) (hphase : part.phases[position]? = some phase) (hlatch : phase.latch = true) :
    position = 1 ∧ part.device.stores = true := by
  rcases h.cases with ⟨builtin, args, hmade⟩ | ⟨-, hnone⟩
  · rw [hmade.phases] at hphase
    rw [hmade.device]
    exact Builtin.position_of_latch hphase hlatch
  · rw [hnone phase (List.mem_of_getElem? hphase)] at hlatch
    cases hlatch

namespace Netlist

/-- The clock edge. -/
def latched (netlist : Netlist) (state : State) : State :=
  (compile netlist).latchSteps.foldl
    (fun state (part, phase) => state.runPhase netlist part phase) state

variable {netlist : Netlist} {state : State} {part position : Nat} {phase : Phase}

theorem status_latch (hflat : netlist.Flat) (hphase : netlist.phase? part position = some phase)
    (hlatch : phase.latch = true) :
    (state.perform netlist (.phase part position)).status = state.status := by
  obtain ⟨placed, hpart, hfound⟩ := Option.bind_eq_some_iff.mp hphase
  have hstores :=
    ((hflat.built placed (List.mem_of_getElem? hpart)).position_of_latch hfound hlatch).2
  have hstop : (state.effect netlist part position).stop = none := by
    rw [← Option.not_isSome_iff_eq_none, State.effect_eq hpart]
    intro hstop
    obtain ⟨reason, hhalt⟩ := Device.halt_of_stop hstop
    rw [hhalt] at hstores
    cases hstores
  rw [State.perform, State.runPhase_eq _ _ (State.native_getD hflat.wired.native part)]
  generalize state.effect netlist part position = effect at hstop
  obtain ⟨edit, memory, stop⟩ := effect
  obtain rfl : stop = none := hstop
  show Effect.status _ state.status = state.status
  cases state.status <;> rfl

/-- What a number of latch phases leave: pins, nets and status stay, and each part
remembers what its own phase makes of it. -/
structure Latched (netlist : Netlist) (steps : List (Nat × Nat)) (before after : State) : Prop where
  pin : ∀ ref, after.pin ref = before.pin ref
  nets : after.nets = before.nets
  status : after.status = before.status
  memory : ∀ part, (after.part part).memory =
    if (part, 1) ∈ steps then (before.effect netlist part 1).memory else (before.part part).memory

theorem latched_foldl (hflat : netlist.Flat) (steps : List (Nat × Nat)) (hnodup : steps.Nodup)
    (hsteps : ∀ step ∈ steps, ∃ phase,
      netlist.phase? step.1 step.2 = some phase ∧ phase.latch = true) :
    ∀ {state : State}, State.Sound netlist state → netlist.Latched steps state
      (steps.foldl (fun state (part, phase) => state.runPhase netlist part phase) state) := by
  have hwired := hflat.wired
  induction steps with
  | nil =>
    intro state _
    exact ⟨fun _ => rfl, rfl, rfl, fun _ => (if_neg List.not_mem_nil).symm⟩
  | cons step steps ih =>
    intro state h
    obtain ⟨part, position⟩ := step
    obtain ⟨phase, hphase, hlatch⟩ := hsteps _ (List.mem_cons_self ..)
    obtain ⟨placed, hpart, hfound⟩ := Option.bind_eq_some_iff.mp hphase
    obtain ⟨rfl, -⟩ :=
      (hflat.built placed (List.mem_of_getElem? hpart)).position_of_latch hfound hlatch
    rw [List.nodup_cons] at hnodup
    have hafter : State.Sound netlist (state.perform netlist (.phase part 1)) :=
      h.perform hwired.native
    obtain ⟨hpin, hnets, hstatus, hmemory⟩ := ih hnodup.2
      (fun other hother => hsteps other (List.mem_cons_of_mem _ hother))
      hafter
    refine ⟨fun ref => (hpin ref).trans (pin_latch hflat h hphase hlatch ref), hnets,
      hstatus.trans (status_latch hflat hphase hlatch), fun other => (hmemory other).trans ?_⟩
    by_cases hother : other = part
    · subst hother
      have hlt : other < state.parts.length := by
        rw [h.parts]
        exact (List.getElem?_eq_some_iff.mp hpart).1
      rw [if_neg hnodup.1, if_pos (List.mem_cons_self ..), State.perform,
        State.part_runPhase (State.native_getD hwired.native other) hlt, if_pos rfl]
      rfl
    · have hmem : (other, 1) ∈ (part, 1) :: steps ↔ (other, 1) ∈ steps := by
        simp [hother]
      have hkeep : (state.perform netlist (.phase part 1)).part other = state.part other :=
        State.part_phase hwired hother
      simp only [hmem, State.effect, hkeep]

theorem latched_latched (hflat : netlist.Flat) (h : State.Sound netlist state) :
    netlist.Latched (compile netlist).latchSteps state (netlist.latched state) :=
  latched_foldl hflat _ netlist.nodup_latchSteps (fun _ hstep => mem_latchSteps.mp hstep) h

/-! ## Two states that hold the same -/

variable {nested flat : Netlist} {seam : Nat → Prop} {same merged : Nat → Nat → Prop}
  {first second first' second' : State}

theorem Echoes.matches (h : nested.Echoes same first second) (hfirst : first'.Matches first)
    (hsecond : second'.Matches second) : nested.Echoes same first' second' := by
  refine ⟨fun hsame hpart hbridge => ?_, fun hsame hpart hbridge k => ?_, ?_⟩
  · rw [hfirst.memory, hsecond.memory]
    exact h.memory hsame hpart hbridge
  · rw [State.look, State.look, hfirst.value, hfirst.resolved, hsecond.value, hsecond.resolved]
    exact h.look hsame hpart hbridge k
  · rw [hfirst.status, hsecond.status]
    exact h.halted

/-- All pins have been cleared, and the parts remember the same. -/
theorem Echoes.of_cleared
    (hmemory : ∀ {p q : Nat} {placed : Part}, same p q → nested.parts[p]? = some placed →
      placed.device ≠ .bridge → (first.part p).memory = (second.part q).memory)
    (hcleared : ∀ part ∈ first.parts, ∀ pin ∈ part.pins, pin.value = 0 ∧ pin.resolved = true)
    (hcleared' : ∀ part ∈ second.parts, ∀ pin ∈ part.pins, pin.value = 0 ∧ pin.resolved = true)
    (hstatus : first.status = second.status) : nested.Echoes same first second := by
  refine ⟨hmemory, fun {p q _} _ _ _ k => ?_,
    congrArg Status.isHalted hstatus⟩
  obtain ⟨hvalue, hresolved⟩ := State.value_pin_of_cleared hcleared ⟨p, k⟩
  obtain ⟨hvalue', hresolved'⟩ := State.value_pin_of_cleared hcleared' ⟨q, k⟩
  rw [State.look, State.look, hvalue, hresolved, hvalue', hresolved']

theorem Echoes.latched (h : nested.Echoes same first second) (hseams : nested.Seams flat seam same merged)
    (hflat : nested.Flat) (hflat' : flat.Flat) (hsound : State.Sound nested first)
    (hsound' : State.Sound flat second) :
    nested.Echoes same (nested.latched first) (flat.latched second) := by
  obtain ⟨hpin, -, hstatus, hmemory⟩ := latched_latched hflat hsound
  obtain ⟨hpin', -, hstatus', hmemory'⟩ := latched_latched hflat' hsound'
  refine ⟨fun {p q placed} hsame hpart hbridge => ?_, fun hsame hpart hbridge k => ?_, ?_⟩
  · obtain ⟨placed', hpart', -, hphases, -⟩ := hseams.twin hsame hpart
    have hmem : (p, 1) ∈ (compile nested).latchSteps ↔ (q, 1) ∈ (compile flat).latchSteps := by
      rw [mem_latchSteps, mem_latchSteps]
      simp only [phase?, hpart, hpart', Option.bind_some, hphases]
    rw [hmemory, hmemory']
    by_cases hlatches : (p, 1) ∈ (compile nested).latchSteps
    · obtain ⟨phase, hphase, -⟩ := mem_latchSteps.mp hlatches
      rw [phase?, hpart, Option.bind_some] at hphase
      rw [if_pos hlatches, if_pos (hmem.mp hlatches), hseams.effect_congr hflat.wired hflat'.wired
        hsame hpart hbridge hphase
        (congrArg (placed.device.recalled 1) (h.memory hsame hpart hbridge))
        fun k _ => h.look hsame hpart hbridge k]
    · rw [if_neg hlatches, if_neg fun hmem' => hlatches (hmem.mpr hmem')]
      exact h.memory hsame hpart hbridge
  · rw [State.look, State.look, hpin, hpin']
    exact h.look hsame hpart hbridge k
  · rw [hstatus, hstatus']
    exact h.halted

end Netlist

/-! ## States that have been reset -/

/-- A part that has nothing to remember holds nothing. -/
def State.Idle (netlist : Netlist) (state : State) : Prop :=
  ∀ part placed, netlist.parts[part]? = some placed → placed.device.remembers = false →
    (state.part part).memory = .none

namespace State

variable {netlist : Netlist} {state other : State} {hard : Bool}

theorem Idle.of_memory (h : Idle netlist state) (hmemory : ∀ {part : Nat} {placed : Part},
    netlist.parts[part]? = some placed → placed.device.remembers = false →
    (other.part part).memory = (state.part part).memory) : Idle netlist other :=
  fun _ _ hpart hforgets => (hmemory hpart hforgets).trans (h _ _ hpart hforgets)

theorem idle_fresh (hwired : netlist.Wired) : Idle netlist (.fresh netlist) := by
  intro part placed hpart hforgets
  have hnative := hwired.native placed (List.mem_of_getElem? hpart)
  have hmemory : ((State.fresh netlist).part part).memory = placed.device.fresh := by
    simp [State.fresh, State.part, List.getD_eq_getElem?_getD, hpart]
  rw [hmemory]
  generalize placed.device = device at hforgets hnative
  cases device with
  | scripted => exact hnative.elim
  | input | probe | register | ram | bridge => cases hforgets
  | _ => rfl

theorem Idle.final (hwired : netlist.Wired) (hsound : Sound netlist state)
    (h : Idle netlist state) : Idle netlist (netlist.final state) := by
  refine h.of_memory fun hpart hforgets => Netlist.memory_kept hwired hsound hpart ?_ ?_ <;>
    (intro hdevice; rw [hdevice] at hforgets; cases hforgets)

theorem Idle.latched (hflat : netlist.Flat) (hsound : Sound netlist state)
    (h : Idle netlist state) : Idle netlist (netlist.latched state) := by
  refine h.of_memory fun {part placed} hpart hforgets => ?_
  rw [(Netlist.latched_latched hflat hsound).memory, if_neg]
  intro hlatches
  obtain ⟨phase, hphase, hlatch⟩ := Netlist.mem_latchSteps.mp hlatches
  rw [Netlist.phase?, hpart, Option.bind_some] at hphase
  have hstores :=
    ((hflat.built placed (List.mem_of_getElem? hpart)).position_of_latch hphase hlatch).2
  rw [placed.device.remembers_of_stores hstores] at hforgets
  cases hforgets

theorem Idle.cleared (hsound : Sound netlist state) (h : Idle netlist state) :
    Idle netlist (state.cleared netlist hard) := by
  refine h.of_memory fun {part placed} hpart hforgets => ?_
  have hnone := h part placed hpart hforgets
  rw [part_cleared hsound hard hpart]
  dsimp only
  rw [hnone]
  generalize placed.device = device at hforgets
  cases device with
  | input | probe | register | ram | bridge => cases hforgets
  | _ => rfl

theorem pins_cleared : ∀ part ∈ (state.cleared netlist hard).parts, ∀ pin ∈ part.pins,
    pin.value = 0 ∧ pin.resolved = true := by
  intro part hpart pin hpin
  obtain ⟨⟨placed, held⟩, -, rfl⟩ := List.mem_map.mp hpart
  obtain ⟨before, -, rfl⟩ := List.mem_map.mp hpin
  exact ⟨rfl, rfl⟩

theorem value_net_cleared (index : Nat) :
    ((state.cleared netlist hard).net index).value = 0 := by
  simp only [cleared, net, List.getD_eq_getElem?_getD, List.getElem?_map]
  cases state.nets[index]? <;> rfl

end State

namespace Simulation

/-- Two simulations that show the same, of a circuit with seams and of the circuit
without them. -/
structure Parallel (nested flat : Netlist) (seam : Nat → Prop) (same merged : Nat → Nat → Prop)
    (first second : Simulation) : Prop where
  seams : nested.Seams flat seam same merged
  plain : nested.Plain
  plain' : flat.Plain
  netlist : first.netlist = nested
  netlist' : second.netlist = flat
  coherent : first.Coherent
  coherent' : second.Coherent
  blank : State.Blank nested first.state
  idle : State.Idle nested first.state
  echoes : nested.Echoes same first.state second.state
  value : ∀ {n m : Nat}, merged n m → (first.state.net n).value = (second.state.net m).value

theorem memory_setMemory {simulation : Simulation} (h : simulation.Coherent) {index : Nat}
    {placed : Part} (hpart : simulation.netlist.parts[index]? = some placed) (memory : Memory)
    (other : Nat) : ((simulation.setMemory index memory).state.part other).memory =
      if other = index then memory else (simulation.state.part other).memory := by
  have hlt : index < simulation.state.parts.length := by
    rw [h.sound.parts]
    exact (List.getElem?_eq_some_iff.mp hpart).1
  rw [Simulation.setMemory]
  by_cases hother : other = index
  · subst hother
    rw [if_pos rfl, State.part_setPart_self _ _ hlt]
  · rw [if_neg hother, State.part_setPart_of_ne _ _ (Ne.symm hother)]

namespace Parallel

variable {nested flat : Netlist} {seam : Nat → Prop} {same merged : Nat → Nat → Prop}
  {first second : Simulation}

theorem mirror (h : Parallel nested flat seam same merged first second) :
    nested.Mirror flat seam same merged first.state second.state :=
  ⟨h.seams, h.plain, h.plain', h.netlist ▸ h.coherent.sound, h.netlist' ▸ h.coherent'.sound,
    h.blank, h.echoes⟩

theorem settle (h : Parallel nested flat seam same merged first second) :
    Parallel nested flat seam same merged first.settle second.settle := by
  have hmirror := h.mirror
  have hmatches := h.coherent.tracked_settle.agrees
  have hmatches' := h.coherent'.tracked_settle.agrees
  have hblank := h.coherent.kept_settle State.kept_blank (h.netlist.symm ▸ h.blank)
  rw [netlist_settle, h.netlist] at hblank
  rw [h.netlist] at hmatches
  rw [h.netlist'] at hmatches'
  refine ⟨h.seams, h.plain, h.plain', (netlist_settle _).trans h.netlist,
    (netlist_settle _).trans h.netlist', h.coherent.settle, h.coherent'.settle, hblank,
    (h.idle.final h.plain.flat.wired hmirror.sound).of_memory fun _ _ => hmatches.memory _,
    hmirror.echoes_final.matches hmatches hmatches', fun hmerged => ?_⟩
  rw [hmatches.net, hmatches'.net]
  exact hmirror.value_eq hmerged

theorem latch (h : Parallel nested flat seam same merged first second) :
    Parallel nested flat seam same merged first.latch second.latch := by
  have hfirst : first.latch.state = nested.latched first.state := by
    simp only [Simulation.latch, h.coherent.schedule, h.netlist, Netlist.latched]
  have hsecond : second.latch.state = flat.latched second.state := by
    simp only [Simulation.latch, h.coherent'.schedule, h.netlist', Netlist.latched]
  have hblank := h.coherent.kept_latch State.kept_blank (h.netlist.symm ▸ h.blank)
  refine ⟨h.seams, h.plain, h.plain', h.netlist, h.netlist', h.coherent.latch, h.coherent'.latch,
    h.netlist ▸ hblank, ?_, ?_, fun hmerged => ?_⟩
  · rw [hfirst]
    exact h.idle.latched h.plain.flat h.mirror.sound
  · rw [hfirst, hsecond]
    exact h.echoes.latched h.seams h.plain.flat h.plain'.flat h.mirror.sound h.mirror.sound'
  · have hnets := (Netlist.latched_latched h.plain.flat h.mirror.sound).nets
    have hnets' := (Netlist.latched_latched h.plain'.flat h.mirror.sound').nets
    rw [hfirst, hsecond, State.net, State.net, hnets, hnets']
    exact h.value hmerged

theorem isHalted (h : Parallel nested flat seam same merged first second) :
    first.isHalted = second.isHalted :=
  h.echoes.halted

theorem step (h : Parallel nested flat seam same merged first second) :
    Parallel nested flat seam same merged first.step second.step := by
  rw [Simulation.step, Simulation.step, ← h.isHalted]
  dsimp only
  rw [← h.latch.isHalted]
  split
  · exact h
  · split
    · exact h.latch
    · exact h.latch.settle

theorem cleared (h : Parallel nested flat seam same merged first second) (hard : Bool) :
    Parallel nested flat seam same merged
      { first with state := first.state.cleared first.netlist hard }
      { second with state := second.state.cleared second.netlist hard } := by
  obtain ⟨hsound, hloose⟩ := State.sound_reset h.coherent.sound hard
  obtain ⟨hsound', hloose'⟩ := State.sound_reset h.coherent'.sound hard
  refine ⟨h.seams, h.plain, h.plain', h.netlist, h.netlist', ⟨h.coherent.flat, h.coherent.schedule,
    hsound, hloose⟩, ⟨h.coherent'.flat, h.coherent'.schedule, hsound', hloose'⟩,
    h.netlist ▸ State.kept_blank.cleared hsound State.pins_cleared, ?_,
    .of_cleared (fun {p q placed} hsame hpart hbridge => ?_) State.pins_cleared State.pins_cleared
      rfl, fun _ => ?_⟩
  · rw [h.netlist]
    exact h.idle.cleared h.mirror.sound
  · obtain ⟨placed', hpart', hdevice, -⟩ := h.seams.twin hsame hpart
    dsimp only
    rw [h.netlist, h.netlist', State.part_cleared h.mirror.sound hard hpart,
      State.part_cleared h.mirror.sound' hard hpart', hdevice]
    exact congrArg (placed.device.reset hard) (h.echoes.memory hsame hpart hbridge)
  · rw [State.value_net_cleared, State.value_net_cleared]

theorem reset (h : Parallel nested flat seam same merged first second) (hard : Bool) :
    Parallel nested flat seam same merged (first.reset hard) (second.reset hard) :=
  (h.cleared hard).settle

/-- Two circuits that have not run yet. -/
theorem ofNetlist (hseams : nested.Seams flat seam same merged) (hplain : nested.Plain)
    (hplain' : flat.Plain) :
    Parallel nested flat seam same merged (ofNetlist nested) (ofNetlist flat) := by
  have hsound := State.sound_fresh nested
  have hsound' := State.sound_fresh flat
  have hfresh : ∀ netlist : Netlist, ∀ {part placed}, netlist.parts[part]? = some placed →
      ((State.fresh netlist).part part).memory = placed.device.fresh := by
    intro netlist part placed hpart
    simp [State.fresh, State.part, List.getD_eq_getElem?_getD, hpart]
  have hvalue : ∀ (netlist : Netlist) (index : Nat),
      ((State.fresh netlist).net index).value = 0 := by
    intro netlist index
    simp only [State.fresh, State.net, List.getD_eq_getElem?_getD, List.getElem?_map]
    cases netlist.nets[index]? <;> rfl
  have hstart : Parallel nested flat seam same merged
      { netlist := nested, schedule := compile nested, state := .fresh nested }
      { netlist := flat, schedule := compile flat, state := .fresh flat } := by
    refine ⟨hseams, hplain, hplain', rfl, rfl, ⟨hplain.flat, rfl, hsound.1, hsound.2⟩,
      ⟨hplain'.flat, rfl, hsound'.1, hsound'.2⟩,
      State.kept_blank.cleared hsound.1 (cleared_fresh nested), State.idle_fresh hplain.flat.wired,
      .of_cleared (fun {p q placed} hsame hpart _ => ?_) (cleared_fresh nested)
        (cleared_fresh flat) rfl, fun _ => (hvalue _ _).trans (hvalue _ _).symm⟩
    obtain ⟨placed', hpart', hdevice, -⟩ := hseams.twin hsame hpart
    exact (hfresh nested hpart).trans ((hfresh flat hpart').trans (congrArg _ hdevice)).symm
  exact hstart.settle

/-- The same is put into both parts that are one. -/
theorem setMemory (h : Parallel nested flat seam same merged first second) {p q : Nat}
    {placed : Part} {memory : Memory} (hsame : same p q)
    (hone : ∀ p' q', same p' q' → (p = p' ↔ q = q')) (hpart : nested.parts[p]? = some placed)
    (hremembers : placed.device.remembers = true) (hfits : placed.device.Fits memory) :
    Parallel nested flat seam same merged (first.setMemory p memory)
      (second.setMemory q memory) := by
  obtain ⟨placed', hpart', hdevice, -⟩ := h.seams.twin hsame hpart
  have hfound : first.netlist.parts[p]? = some placed := h.netlist.symm ▸ hpart
  have hfound' : second.netlist.parts[q]? = some placed' := h.netlist'.symm ▸ hpart'
  have hmemory := memory_setMemory h.coherent hfound memory
  have hmemory' := memory_setMemory h.coherent' hfound' memory
  have hput : ∀ owner, first.netlist.parts[p]? = some owner → owner.device.Fits memory :=
    fun owner howner => Option.some.inj (hfound.symm.trans howner) ▸ hfits
  have hput' : ∀ owner, second.netlist.parts[q]? = some owner → owner.device.Fits memory :=
    fun owner howner => Option.some.inj (hfound'.symm.trans howner) ▸ hdevice ▸ hfits
  have hblank := h.coherent.kept_setMemory State.kept_blank p memory (h.netlist.symm ▸ h.blank)
  refine ⟨h.seams, h.plain, h.plain', h.netlist, h.netlist', h.coherent.setMemory hput,
    h.coherent'.setMemory hput', h.netlist ▸ hblank, fun p' owner howner hforgets => ?_,
    ⟨fun {p' q' _} hsame' howner hbridge => ?_, fun hsame' howner hbridge k => ?_,
      h.echoes.halted⟩, h.value⟩
  · rw [hmemory, if_neg]
    · exact h.idle p' owner howner hforgets
    · rintro rfl
      rw [← Option.some.inj (hpart.symm.trans howner), hremembers] at hforgets
      cases hforgets
  · rw [hmemory, hmemory']
    have hiff := hone p' q' hsame'
    by_cases hp : p' = p
    · rw [if_pos hp, if_pos (hiff.mp hp.symm).symm]
    · rw [if_neg hp, if_neg fun hq => hp (hiff.mpr hq.symm).symm]
      exact h.echoes.memory hsame' howner hbridge
  · have hpin := (State.sound_setMemory h.coherent.sound hput).2
    have hpin' := (State.sound_setMemory h.coherent'.sound hput').2
    rw [Simulation.setMemory, Simulation.setMemory, State.look, State.look, hpin, hpin']
    exact h.echoes.look hsame' howner hbridge k

end Parallel

/-! ## Looking things up -/

/-- What is found at a path in both circuits is the same, or was merged. A path that
only the circuit with seams knows leads to a part with nothing to remember. -/
structure Directory (nested flat : Netlist) (same merged : Nat → Nat → Prop) : Prop where
  one : ∀ {p q p' q' : Nat}, same p q → same p' q' → (p = p' ↔ q = q')
  part : ∀ path, (∃ p q, nested.partAt? path = some p ∧ flat.partAt? path = some q ∧ same p q) ∨
    flat.partAt? path = none ∧ ∀ p, nested.partAt? path = some p →
      ∃ placed, nested.parts[p]? = some placed ∧ placed.device.remembers = false
  net : ∀ path, (∃ n m, nested.netAt? path = some n ∧ flat.netAt? path = some m ∧ merged n m) ∨
    nested.netAt? path = none ∧ flat.netAt? path = none
  known : ∀ n < nested.nets.length, ∃ m, flat.netAt? (nested.netPath n) = some m ∧ merged n m

/-- What can be done to a simulation. -/
inductive Command where
  | set (path : String) (value : Word)
  | settle
  | latch
  | step
  | reset (hard : Bool)
  deriving DecidableEq, Repr

/-- Setting something that is not an input does nothing. -/
def obey (simulation : Simulation) : Command → Simulation
  | .set path value => (simulation.setInput path value).toOption.getD simulation
  | .settle => simulation.settle
  | .latch => simulation.latch
  | .step => simulation.step
  | .reset hard => simulation.reset hard

namespace Parallel

variable {nested flat : Netlist} {seam : Nat → Prop} {same merged : Nat → Nat → Prop}
  {first second : Simulation}

theorem set (h : Parallel nested flat seam same merged first second)
    (hdirectory : Directory nested flat same merged) (path : String) (value : Word) :
    Parallel nested flat seam same merged (first.obey (.set path value))
      (second.obey (.set path value)) := by
  have heq := h.coherent.setInput_eq path value
  have heq' := h.coherent'.setInput_eq path value
  rw [stimulate, h.netlist] at heq
  rw [stimulate, h.netlist'] at heq'
  rw [obey, obey, heq, heq']
  rcases hdirectory.part ⟨path⟩ with ⟨p, q, hp, hq, hsame⟩ | ⟨hq, hp⟩
  · obtain ⟨_, placed, _, hpart, -⟩ := h.seams.part hsame
    obtain ⟨placed', hpart', hdevice, -⟩ := h.seams.twin hsame hpart
    rw [hp, hq]
    dsimp only
    rw [device_getD hpart, device_getD hpart', hdevice]
    cases hkind : placed.device with
    | input width initial =>
      exact h.setMemory hsame (fun p' q' hsame' => hdirectory.one hsame hsame') hpart
        (by rw [hkind]; rfl) (by rw [hkind]; trivial)
    | _ => exact h
  · rw [hq]
    cases hfound : nested.partAt? ⟨path⟩ with
    | none => exact h
    | some p =>
      obtain ⟨placed, hpart, hforgets⟩ := hp p hfound
      dsimp only
      rw [device_getD hpart]
      cases hkind : placed.device with
      | input width initial =>
        rw [hkind] at hforgets
        cases hforgets
      | _ => exact h

theorem obey (h : Parallel nested flat seam same merged first second)
    (hdirectory : Directory nested flat same merged) (command : Command) :
    Parallel nested flat seam same merged (first.obey command) (second.obey command) := by
  cases command with
  | set path value => exact h.set hdirectory path value
  | settle => exact h.settle
  | latch => exact h.latch
  | step => exact h.step
  | reset hard => exact h.reset hard

/-- Simulations of both circuits stay in parallel whatever is done to both. -/
theorem run (hdirectory : Directory nested flat same merged) (commands : List Command) :
    ∀ {first second : Simulation}, Parallel nested flat seam same merged first second →
      Parallel nested flat seam same merged (commands.foldl Simulation.obey first)
        (commands.foldl Simulation.obey second) := by
  induction commands with
  | nil => exact fun h => h
  | cons command commands ih => exact fun h => ih (h.obey hdirectory command)

/-! ## What can be seen -/

theorem peek_eq (h : Parallel nested flat seam same merged first second)
    (hdirectory : Directory nested flat same merged) (path : String) :
    first.peek path = second.peek path := by
  rw [peek, peek, netAt, netAt, h.netlist, h.netlist']
  rcases hdirectory.net ⟨path⟩ with ⟨n, m, hn, hm, hmerged⟩ | ⟨hn, hm⟩
  · rw [hn, hm]
    exact congrArg Except.ok (h.value hmerged)
  · rw [hn, hm]
    rfl

/-- Every net shows what is to be seen under its path without seams. -/
theorem peek_netPath (h : Parallel nested flat seam same merged first second)
    (hdirectory : Directory nested flat same merged) {n : Nat} (hn : n < nested.nets.length) :
    second.peek (nested.netPath n).text = .ok (first.state.net n).value := by
  obtain ⟨m, hm, hmerged⟩ := hdirectory.known n hn
  rw [peek, netAt, h.netlist', hm]
  exact congrArg Except.ok (h.value hmerged).symm

/-- What a part with memory of some kind holds. -/
theorem partOf_eq (h : Parallel nested flat seam same merged first second)
    (hdirectory : Directory nested flat same merged) (path : String) (kind : PartKind) {α : Type}
    (read : Memory → Option α) (hnone : read .none = none)
    (hbridge : ∀ enabled forward, read (.bridge enabled forward) = none) :
    ((·.2) <$> first.partOf path kind read).toOption =
      ((·.2) <$> second.partOf path kind read).toOption := by
  rw [partOf, partOf, partAt, partAt, h.netlist, h.netlist']
  rcases hdirectory.part ⟨path⟩ with ⟨p, q, hp, hq, hsame⟩ | ⟨hq, hp⟩
  · obtain ⟨_, placed, placed', hpart, hpart', hmade, hmade'⟩ := h.seams.part hsame
    have hread : read (first.state.part p).memory = read (second.state.part q).memory := by
      by_cases hdevice : placed.device = .bridge
      · have hdevice' := hmade'.device.trans (hmade.device.symm.trans hdevice)
        obtain ⟨_, _, hmemory⟩ := Netlist.bridge_memory hpart hdevice h.mirror.sound
        obtain ⟨_, _, hmemory'⟩ := Netlist.bridge_memory hpart' hdevice' h.mirror.sound'
        rw [hmemory, hmemory', hbridge, hbridge]
      · rw [h.echoes.memory hsame hpart hdevice]
    rw [hp, hq]
    simp only [bind, Except.bind, hread]
    cases read (second.state.part q).memory <;> rfl
  · rw [hq]
    cases hfound : nested.partAt? ⟨path⟩ with
    | none => rfl
    | some p =>
      obtain ⟨placed, hpart, hforgets⟩ := hp p hfound
      simp only [bind, Except.bind, h.idle p placed hpart hforgets, hnone]
      rfl

theorem probe_eq (h : Parallel nested flat seam same merged first second)
    (hdirectory : Directory nested flat same merged) (path : String) :
    (first.probeValue path).toOption = (second.probeValue path).toOption :=
  h.partOf_eq hdirectory path .probe _ rfl fun _ _ => rfl

theorem register_eq (h : Parallel nested flat seam same merged first second)
    (hdirectory : Directory nested flat same merged) (path : String) :
    (first.registerValue path).toOption = (second.registerValue path).toOption :=
  h.partOf_eq hdirectory path .register _ rfl fun _ _ => rfl

theorem ram_eq (h : Parallel nested flat seam same merged first second)
    (hdirectory : Directory nested flat same merged) (path : String) :
    (first.ramCells path).toOption = (second.ramCells path).toOption :=
  h.partOf_eq hdirectory path .ram _ rfl fun _ _ => rfl

end Parallel

end Simulation

end Breadboard
