import Breadboard.Proofs.Calm

/-!
# Exchanging tasks

In a static circuit two tasks of which neither feeds the other can change
places: whichever runs first, parts and nets hold the same behind both, and
the circuit has stopped or not (`perform_perform`). A settle runs its tasks in
an order in which every task stands behind those that feed it (`Heeds`). Two
such orders differ by exchanges of this kind only, so they all lead to the
same state (`level_foldl`), and which of them the schedule picks does not
matter (`level_final`).

Only the reason of a halt depends on the order: of two parts that stop the
circuit the first one is named.
-/

namespace Breadboard

/-! ## Lists that differ by exchanges -/

/-- Two orders of the same items lead to related results if every pair that
they order differently can be exchanged. The first item of one order is moved
behind all items that the other order puts in front of it. -/
theorem foldl_of_exchange {σ α : Type} {step : σ → α → σ} {Valid : σ → Prop} {Near : σ → σ → Prop}
    (hrefl : ∀ s, Near s s) (htrans : ∀ {s t u}, Near s t → Near t u → Near s u)
    (hvalid : ∀ {s} a, Valid s → Valid (step s a))
    (hstep : ∀ {s t} a, Valid s → Valid t → Near s t → Near (step s a) (step t a)) :
    ∀ {first second : List α}, first.Perm second → first.Nodup →
      (∀ {s a b}, Valid s → Before first a b → Before second b a →
        Near (step (step s a) b) (step (step s b) a)) →
      ∀ {s}, Valid s → Near (first.foldl step s) (second.foldl step s) := by
  have hfoldl : ∀ (items : List α) {s t}, Valid s → Valid t → Near s t →
      Near (items.foldl step s) (items.foldl step t) := by
    intro items
    induction items with
    | nil => exact fun _ _ h => h
    | cons a rest ih => exact fun hs ht h => ih (hvalid a hs) (hvalid a ht) (hstep a hs ht h)
  have hvalid_foldl : ∀ (items : List α) {s}, Valid s → Valid (items.foldl step s) := by
    intro items
    induction items with
    | nil => exact fun h => h
    | cons a rest ih => exact fun h => ih (hvalid a h)
  have hfront : ∀ (a : α) (left : List α) {s}, Valid s →
      (∀ {t b}, Valid t → b ∈ left → Near (step (step t a) b) (step (step t b) a)) →
      Near (left.foldl step (step s a)) (step (left.foldl step s) a) := by
    intro a left
    induction left with
    | nil => exact fun _ _ => hrefl _
    | cons b left ih =>
      intro s hs hswap
      have hmoved := hswap hs (List.mem_cons_self ..)
      exact htrans (hfoldl left (hvalid b (hvalid a hs)) (hvalid a (hvalid b hs)) hmoved)
        (ih (hvalid b hs) fun ht hb => hswap ht (List.mem_cons_of_mem _ hb))
  intro first
  induction first with
  | nil =>
    intro second hperm _ _ s _
    rw [List.nil_perm.mp hperm]
    exact hrefl _
  | cons a rest ih =>
    intro second hperm hnodup hswap s hs
    obtain ⟨left, right, rfl⟩ := List.append_of_mem (hperm.subset (List.mem_cons_self ..))
    have hrest : rest.Perm (left ++ right) := (hperm.trans List.perm_middle).cons_inv
    have hbehind : (left ++ right).Sublist (left ++ a :: right) :=
      (List.Sublist.refl left).append (List.sublist_cons_self ..)
    have htail := ih hrest (List.nodup_cons.mp hnodup).2
      (fun ht hbefore hafter => hswap ht (hbefore.trans_sublist (List.sublist_cons_self ..))
        (hafter.trans_sublist hbehind)) (hvalid a hs)
    have hmoved := hfront a left hs fun {t b} ht hb => hswap ht
      (Before.of_append (List.mem_singleton_self a)
        (hrest.symm.subset (List.mem_append_left _ hb)))
      (Before.of_mem_left hb)
    rw [List.foldl_append] at htail
    rw [List.foldl_cons, List.foldl_append, List.foldl_cons]
    exact htrans htail (hfoldl right (hvalid_foldl left (hvalid a hs))
      (hvalid a (hvalid_foldl left hs)) hmoved)

/-! ## States -/

/-- Two states that hold the same and have both stopped or both not. -/
structure State.Level (first second : State) : Prop where
  parts : first.parts = second.parts
  nets : first.nets = second.nets
  halted : first.status.isHalted = second.status.isHalted

namespace State

variable {netlist : Netlist} {first second third state : State} {task : Task}

namespace Level

theorem refl (state : State) : state.Level state :=
  ⟨rfl, rfl, rfl⟩

theorem symm (h : first.Level second) : second.Level first :=
  ⟨h.parts.symm, h.nets.symm, h.halted.symm⟩

theorem trans (h : first.Level second) (h' : second.Level third) : first.Level third :=
  ⟨h.parts.trans h'.parts, h.nets.trans h'.nets, h.halted.trans h'.halted⟩

theorem part (h : first.Level second) (index : Nat) : first.part index = second.part index := by
  rw [State.part, State.part, h.parts]

theorem net (h : first.Level second) (index : Nat) : first.net index = second.net index := by
  rw [State.net, State.net, h.nets]

theorem pin (h : first.Level second) (ref : PortRef) : first.pin ref = second.pin ref := by
  rw [State.pin, State.pin, h.part]

theorem sound (h : first.Level second) (hsound : Sound netlist first) : Sound netlist second where
  parts := h.parts ▸ hsound.parts
  nets := h.nets ▸ hsound.nets
  pins hpart := h.part _ ▸ hsound.pins hpart
  fits hpart := h.part _ ▸ hsound.fits hpart

/-- Two states of a circuit are level when they agree on every place. -/
theorem of_places (hsound : Sound netlist first) (hsound' : Sound netlist second)
    (hpin : ∀ ref port, netlist.port? ref = some port → first.pin ref = second.pin ref)
    (hmemory : ∀ part, (first.part part).memory = (second.part part).memory)
    (hnets : first.nets = second.nets)
    (hhalted : first.status.isHalted = second.status.isHalted) : first.Level second := by
  refine ⟨?_, hnets, hhalted⟩
  refine List.ext_getElem (hsound.parts.trans hsound'.parts.symm) fun index hlt hlt' => ?_
  have hplaced := List.getElem?_eq_getElem (hsound.parts ▸ hlt : index < netlist.parts.length)
  have hfirst : first.parts[index] = first.part index := by simp [State.part, hlt]
  have hsecond : second.parts[index] = second.part index := by simp [State.part, hlt']
  have hlength := (hsound.pins hplaced).trans (hsound'.pins hplaced).symm
  have hpins : (first.part index).pins = (second.part index).pins := by
    refine List.ext_getElem hlength fun position hpos hpos' => ?_
    have hport := @Netlist.port_of_part netlist ⟨index, position⟩ _ _ hplaced
      (List.getElem?_eq_getElem (hsound.pins hplaced ▸ hpos))
    have := hpin _ _ hport
    simpa [State.pin, PartState.pin, List.getD_eq_getElem?_getD, hpos, hpos'] using this
  rw [hfirst, hsecond]
  exact congrArg₂ PartState.mk hpins (hmemory index)

end Level

/-- What a net decides depends on its sources alone. -/
theorem verdict_congr {index : Nat} (hsource : ∀ ref ∈ (netlist.nets.getD index default).sources,
    first.pin ref = second.pin ref) :
    first.verdict netlist index = second.verdict netlist index := by
  have hdriving : (netlist.nets.getD index default).driving netlist first =
      (netlist.nets.getD index default).driving netlist second :=
    List.filter_congr fun ref href => by rw [Net.isDriving, Net.isDriving, hsource ref href]
  rw [verdict, verdict]
  dsimp only
  split
  · rw [hdriving]
    split
    · next source hone =>
      have hmem : source ∈ (netlist.nets.getD index default).driving netlist second :=
        hone ▸ List.mem_singleton_self source
      rw [hsource source (List.mem_filter.mp hmem).1]
    · rfl
  · split
    · next source hone => rw [hsource source (hone ▸ List.mem_singleton_self source)]
    · rfl

theorem nets_resolve (netlist : Netlist) (index : Nat) (state : State) :
    (state.resolve netlist index).nets = state.nets.set index
      ⟨(state.verdict netlist index).1.getD (state.net index).value,
        (state.verdict netlist index).2⟩ := by
  rw [resolve_eq, (tell_eq _ _ _).1]
  rfl

/-- A task makes the same of two states that hold the same. -/
theorem Level.perform (hwired : netlist.Wired) (hsound : Sound netlist first)
    (h : first.Level second) (task : Task) :
    (first.perform netlist task).Level (second.perform netlist task) := by
  have hsound' := h.sound hsound
  have hnext : Sound netlist (first.perform netlist task) := hsound.perform hwired.native
  have hnext' : Sound netlist (second.perform netlist task) := hsound'.perform hwired.native
  cases task with
  | phase part position =>
    have hdevice := native_getD hwired.native part
    have heffect : first.effect netlist part position = second.effect netlist part position := by
      rw [effect, effect, h.part]
    rw [State.perform, State.perform, runPhase_eq _ _ hdevice, runPhase_eq _ _ hdevice, heffect,
      h.part]
    exact ⟨by simp only [setPart, h.parts], h.nets, by simp only [Effect.isHalted_status, h.halted]⟩
  | net index =>
    have hverdict : first.verdict netlist index = second.verdict netlist index :=
      verdict_congr fun ref _ => h.pin ref
    refine .of_places hnext hnext' (fun ref port hport => ?_) (fun part => ?_) ?_ ?_
    · rw [State.perform, State.perform, pin_resolve (hsound.has hport),
        pin_resolve (hsound'.has hport), hverdict, h.pin]
    · rw [State.perform, State.perform, memory_resolve, memory_resolve, h.part]
    · rw [State.perform, State.perform, nets_resolve, nets_resolve, hverdict, h.nets, h.net]
    · rw [State.perform, State.perform, status_resolve, status_resolve, h.halted]

end State

/-! ## What feeds what -/

namespace Netlist

variable {netlist : Netlist} {state first second : State} {part position index port : Nat}
  {phase : Phase} {ref : PortRef} {placed : Part} {task other : Task}

theorem hasSource_iff : netlist.HasSource index ref ↔
    ref ∈ (netlist.nets.getD index default).sources := by
  rw [HasSource, List.getD_eq_getElem?_getD]
  cases netlist.nets[index]? with
  | none => simp [show (default : Net).sources = [] from rfl]
  | some net => simp

/-- In a static circuit a net feeds every phase that names one of its readers. -/
theorem feeds_of_target (hwired : netlist.Wired) (hstatic : netlist.Static)
    (hphase : netlist.Ordinary part position phase) (hport : port ∈ phase.reads ++ phase.anyOf)
    (htarget : netlist.HasTarget index ⟨part, port⟩) :
    netlist.Feeds (.net index) (.phase part position) := by
  obtain ⟨net, hnet, href⟩ := id htarget
  obtain ⟨found, hattached, hinput⟩ := hwired.target hnet href
  have hbound := hwired.net_eq hstatic.single htarget.lists hattached.found
  have hanyOf : port ∉ phase.anyOf := fun hmem => by
    have hunbound := hstatic.anyOf hphase hmem hattached.found
    rw [Port.bound, hbound] at hunbound
    cases hunbound
  have hreads : netlist.Reads part position port index
      (if netlist.drivesFrom part position index then .crossing else .waiting) :=
    ⟨phase, hphase, hport, hwired.readNet hattached.found hinput hbound, by rw [if_neg hanyOf]⟩
  refine .read hreads ?_
  rw [hstatic.uncrossed hreads]
  exact ReadMode.noConfusion

/-- A phase feeds every net that it writes. -/
theorem feeds_of_source (hwired : netlist.Wired) (hstatic : netlist.Static)
    (hphase : netlist.Ordinary part position phase) (hport : port ∈ phase.writes)
    (hsource : netlist.HasSource index ⟨part, port⟩) :
    netlist.Feeds (.phase part position) (.net index) := by
  obtain ⟨net, hnet, href⟩ := id hsource
  obtain ⟨found, hattached, -⟩ := hwired.source hnet href
  have hbound := hwired.net_eq hstatic.single hsource.lists hattached.found
  refine .write ⟨phase, hphase, hport, ?_⟩
  refine Option.filter_eq_some_iff.mpr ⟨?_, by simp [hnet, href]⟩
  exact Option.bind_eq_some_iff.mpr ⟨found, hattached.found, hbound⟩

/-- A phase that does not feed a net leaves the ports of the net alone, but may
mark a reader as not looked at. -/
theorem edit_of_not_feeds (hwired : netlist.Wired) (hstatic : netlist.Static)
    (hphase : netlist.Ordinary part position phase) (hpart : netlist.parts[part]? = some placed)
    (hfeeds : ¬ netlist.Feeds (.phase part position) (.net index))
    (hlists : netlist.Lists index ⟨part, port⟩) (held : PartState) :
    (placed.device.effect placed.ports position held).edit port = .keep ∨
      (placed.device.effect placed.ports position held).edit port = .ignore ∧
        ¬ netlist.HasSource index ⟨part, port⟩ := by
  obtain ⟨_, howner, hfound⟩ := part_of_phase hphase
  obtain rfl := Option.some.inj (hpart.symm.trans howner)
  have hregular := hwired.regularAt hpart
  obtain ⟨net, hnet, href⟩ := id hlists
  obtain ⟨found, hattached⟩ := hwired.attached hnet href
  obtain ⟨_, hpart', hplace⟩ := part_of_port hattached.found
  obtain rfl := Option.some.inj (hpart.symm.trans hpart')
  by_cases hlast : position = placed.device.last
  · subst hlast
    have hsource : found.type.output = true → placed.valid = true →
        netlist.HasSource index ⟨part, port⟩ := fun houtput hvalid => by
      obtain ⟨net, hnet, -, -, hsources⟩ := hwired.known hattached.found
        (hwired.net_eq hstatic.single hlists hattached.found)
      refine ⟨net, hnet, hsources houtput fun other hother => ?_⟩
      rwa [Option.some.inj (hother.symm.trans hpart)]
    have hsilent : found.type.output = true →
        (placed.device.effect placed.ports placed.device.last held).edit port = .keep :=
      fun houtput => by
        cases hvalid : placed.valid with
        | true => exact absurd (feeds_of_source hwired hstatic hphase
            (hregular.written hfound hplace houtput) (hsource houtput hvalid)) hfeeds
        | false => rw [hregular.invalid hvalid]; rfl
    have hfinal := hregular.final held hplace
    generalize hedit : (placed.device.effect placed.ports placed.device.last held).edit port =
      edit at hfinal hsilent ⊢
    cases hfinal with
    | keep => exact .inl rfl
    | ignore hinput _ =>
      refine .inr ⟨rfl, ?_⟩
      rintro ⟨net, hnet, href⟩
      obtain ⟨other, hother, houtput⟩ := hwired.source hnet href
      rw [Option.some.inj (hother.found.symm.trans hattached.found), hinput] at houtput
      cases houtput
    | set value houtput _ _ => exact .inl (hsilent houtput)
    | drive value houtput _ => exact .inl (hsilent houtput)
  · refine .inl ((hregular.early held hfound hphase.2 hlast hplace).resolve_right ?_)
    rintro ⟨hboth, -⟩
    obtain ⟨hlast', -⟩ | ⟨hbridge, -⟩ := hregular.cases hfound hphase.2
    · exact hlast hlast'
    · exact not_lists_of_unbound hwired hattached.found (unbound_side hwired hstatic hpart hbridge
        (side_of_bidirectional hwired hpart hbridge hplace hboth) hattached.found) hlists

/-! ## Exchanging two tasks -/

theorem perform_phase (hwired : netlist.Wired) (state : State) (part position : Nat) :
    state.perform netlist (.phase part position) =
      { state.setPart part ((state.effect netlist part position).apply (state.part part)) with
        status := (state.effect netlist part position).status state.status } :=
  State.runPhase_eq state position (State.native_getD hwired.native part)

/-- Phases of two parts can be exchanged. -/
theorem exchange_phases (hwired : netlist.Wired) {other later : Nat} (hne : part ≠ other)
    (state : State) :
    ((state.perform netlist (.phase part position)).perform netlist (.phase other later)).Level
      ((state.perform netlist (.phase other later)).perform netlist (.phase part position)) := by
  have hpart : (state.perform netlist (.phase other later)).part part = state.part part :=
    State.part_phase hwired hne
  have hother : (state.perform netlist (.phase part position)).part other = state.part other :=
    State.part_phase hwired hne.symm
  have heffect : (state.perform netlist (.phase other later)).effect netlist part position =
      state.effect netlist part position := by rw [State.effect, State.effect, hpart]
  have heffect' : (state.perform netlist (.phase part position)).effect netlist other later =
      state.effect netlist other later := by rw [State.effect, State.effect, hother]
  rw [perform_phase hwired (state.perform _ _), perform_phase hwired (state.perform _ _), hpart,
    hother, heffect, heffect', perform_phase hwired state, perform_phase hwired state]
  refine ⟨List.set_comm _ _ hne, rfl, ?_⟩
  simp only [Effect.isHalted_status, Bool.or_right_comm]

theorem pin_perform_net (hsound : State.Sound netlist state) {found : Port}
    (hport : netlist.port? ref = some found) :
    (state.perform netlist (.net index)).pin ref =
      if ref ∈ (netlist.nets.getD index default).targets then
        (state.pin ref).hear (state.verdict netlist index).1
      else state.pin ref :=
  State.pin_resolve (hsound.has hport)

theorem nets_perform_net (state : State) (index : Nat) :
    (state.perform netlist (.net index)).nets = state.nets.set index
      ⟨(state.verdict netlist index).1.getD (state.net index).value,
        (state.verdict netlist index).2⟩ :=
  State.nets_resolve netlist index state

theorem memory_perform_net (state : State) (index part : Nat) :
    ((state.perform netlist (.net index)).part part).memory = (state.part part).memory :=
  State.memory_resolve

theorem status_perform_net (state : State) (index : Nat) :
    (state.perform netlist (.net index)).status = state.status :=
  State.status_resolve

theorem memory_perform_phase (hwired : netlist.Wired) (hsound : State.Sound netlist state)
    (hpart : netlist.parts[part]? = some placed) (position other : Nat) :
    ((state.perform netlist (.phase part position)).part other).memory =
      if other = part then (state.effect netlist part position).memory
      else (state.part other).memory := by
  have hlt : part < state.parts.length := by
    rw [hsound.parts]
    exact (List.getElem?_eq_some_iff.mp hpart).1
  rw [State.perform, State.part_runPhase (State.native_getD hwired.native part) hlt]
  split <;> rfl

/-- Two nets can be exchanged: no port of one is a port of the other. -/
theorem exchange_nets (hwired : netlist.Wired) (hstatic : netlist.Static)
    (hsound : State.Sound netlist state) {later : Nat} (hne : index ≠ later) :
    ((state.perform netlist (.net index)).perform netlist (.net later)).Level
      ((state.perform netlist (.net later)).perform netlist (.net index)) := by
  have hapart : ∀ {first second : Nat} {ref : PortRef}, first ≠ second →
      netlist.Lists first ref → ref ∉ (netlist.nets.getD second default).targets :=
    fun hne hlists htarget =>
      hne (hstatic.single _ _ _ hlists (hasTarget_iff.mpr htarget).lists)
  have hpin : ∀ {first second : Nat} {ref : PortRef}, first ≠ second →
      netlist.Lists first ref → (state.perform netlist (.net second)).pin ref = state.pin ref :=
    fun hne hlists => by
      obtain ⟨net, hnet, href⟩ := id hlists
      obtain ⟨port, hattached⟩ := hwired.attached hnet href
      exact State.pin_net hsound hattached.found (hapart hne hlists)
  have hverdict : ∀ {first second : Nat}, first ≠ second →
      (state.perform netlist (.net second)).verdict netlist first =
        state.verdict netlist first := fun {first second} hne =>
    State.verdict_congr fun ref href => hpin hne (hasSource_iff.mpr href).lists
  have hnext : State.Sound netlist (state.perform netlist (.net index)) :=
    hsound.perform hwired.native
  have hnext' : State.Sound netlist (state.perform netlist (.net later)) :=
    hsound.perform hwired.native
  refine .of_places (hnext.perform hwired.native) (hnext'.perform hwired.native)
    (fun ref port hport => ?_) (fun part => ?_) ?_ ?_
  · have hone : ref ∈ (netlist.nets.getD index default).targets →
        ref ∉ (netlist.nets.getD later default).targets := fun href =>
      hapart hne (hasTarget_iff.mpr href).lists
    rw [pin_perform_net hnext hport, pin_perform_net hnext' hport, pin_perform_net hsound hport,
      pin_perform_net hsound hport, hverdict hne, hverdict hne.symm]
    by_cases href : ref ∈ (netlist.nets.getD index default).targets
    · simp only [href, hone href, if_true, if_false]
    · simp only [href, if_false]
  · simp only [memory_perform_net]
  · have hnet : ∀ {first second : Nat}, first ≠ second →
        (state.perform netlist (.net second)).net first = state.net first :=
      fun hne => net_frame (by simpa using hne.symm)
    rw [nets_perform_net, nets_perform_net _ index, nets_perform_net _ index,
      nets_perform_net _ later, hverdict hne, hverdict hne.symm, hnet hne, hnet hne.symm]
    exact List.set_comm _ _ hne
  · simp only [status_perform_net]

/-- A net that a phase does not feed finds its drivers as they were. -/
theorem verdict_of_not_feeds (hwired : netlist.Wired) (hstatic : netlist.Static)
    (hsound : State.Sound netlist state) (hphase : netlist.Ordinary part position phase)
    (hfeeds : ¬ netlist.Feeds (.phase part position) (.net index)) :
    (state.perform netlist (.phase part position)).verdict netlist index =
      state.verdict netlist index := by
  obtain ⟨placed, hpart, -⟩ := part_of_phase hphase
  refine State.verdict_congr fun ref href => ?_
  have hsource : netlist.HasSource index ref := hasSource_iff.mpr href
  obtain ⟨net, hnet, hmem⟩ := id hsource
  obtain ⟨port, hattached, -⟩ := hwired.source hnet hmem
  by_cases hne : ref.part = part
  · subst hne
    rw [State.pin_phase hwired hsound hattached.found, State.effect_eq hpart]
    obtain hkeep | ⟨-, hnone⟩ := edit_of_not_feeds hwired hstatic hphase hpart hfeeds
      hsource.lists (state.part ref.part)
    · rw [hkeep, Edit.apply]
    · exact absurd hsource hnone
  · exact State.pin_phase_of_ne hwired hne

/-- A phase that a net does not feed looks at nothing that the net tells. -/
theorem effect_of_not_fed (hwired : netlist.Wired) (hstatic : netlist.Static)
    (hsound : State.Sound netlist state) (hphase : netlist.Ordinary part position phase)
    (hfed : ¬ netlist.Feeds (.net index) (.phase part position)) :
    (state.perform netlist (.net index)).effect netlist part position =
      state.effect netlist part position := by
  obtain ⟨placed, hpart, hfound⟩ := part_of_phase hphase
  have hlook : ∀ port ∈ phase.reads ++ phase.anyOf,
      ((state.perform netlist (.net index)).part part).pin port = (state.part part).pin port := by
    intro port hport
    cases hfind : netlist.port? ⟨part, port⟩ with
    | none =>
      exact (State.pin_eq_default (hsound.perform hwired.native) hfind).trans
        (State.pin_eq_default hsound hfind).symm
    | some found =>
      refine State.pin_net hsound hfind fun htarget => hfed ?_
      exact feeds_of_target hwired hstatic hphase hport (hasTarget_iff.mpr htarget)
  have hmemory : ((state.perform netlist (.net index)).part part).memory =
      (state.part part).memory := State.memory_resolve
  have hlooked : ∀ port ∈ placed.device.looked (state.part part).memory phase,
      port ∈ phase.reads ++ phase.anyOf := by
    intro port hport
    unfold Device.looked at hport
    split at hport
    · exact List.mem_append.mpr ((List.mem_append.mp hport).imp_right List.mem_of_mem_filter)
    · exact hport
  rw [State.effect_eq hpart, State.effect_eq hpart]
  refine (hwired.regularAt hpart).alike hfound ⟨by rw [hmemory], ?_, ?_⟩
  · rw [hmemory]
    exact fun port hport _ => congrArg Pin.value (hlook port (hlooked port hport))
  · rw [hmemory]
    exact fun port hport => congrArg Pin.resolved (hlook port (hlooked port hport))

/-- A phase and a net can be exchanged if neither feeds the other. -/
theorem exchange_phase_net (hwired : netlist.Wired) (hstatic : netlist.Static)
    (hsound : State.Sound netlist state) (hphase : netlist.Ordinary part position phase)
    (hfeeds : ¬ netlist.Feeds (.phase part position) (.net index))
    (hfed : ¬ netlist.Feeds (.net index) (.phase part position)) :
    ((state.perform netlist (.phase part position)).perform netlist (.net index)).Level
      ((state.perform netlist (.net index)).perform netlist (.phase part position)) := by
  obtain ⟨placed, hpart, hfound⟩ := part_of_phase hphase
  have hnext : State.Sound netlist (state.perform netlist (.phase part position)) :=
    hsound.perform hwired.native
  have hnext' : State.Sound netlist (state.perform netlist (.net index)) :=
    hsound.perform hwired.native
  have hverdict := verdict_of_not_feeds hwired hstatic hsound hphase hfeeds
  have heffect := effect_of_not_fed hwired hstatic hsound hphase hfed
  refine .of_places (hnext.perform hwired.native) (hnext'.perform hwired.native)
    (fun ref port hport => ?_) (fun other => ?_) ?_ ?_
  · rw [pin_perform_net hnext hport, hverdict]
    by_cases hne : ref.part = part
    · subst hne
      rw [State.pin_phase hwired hsound hport, State.pin_phase hwired hnext' hport, heffect,
        pin_perform_net hsound hport]
      split
      · next htarget =>
        rw [State.effect_eq hpart]
        obtain hedit | ⟨hedit, -⟩ := edit_of_not_feeds hwired hstatic hphase hpart hfeeds
          (hasTarget_iff.mpr htarget).lists (state.part ref.part)
        · simp only [hedit, Edit.apply]
        · simp only [hedit, Edit.apply]
          cases (state.verdict netlist index).1 <;> rfl
      · rfl
    · rw [State.pin_phase_of_ne hwired hne, State.pin_phase_of_ne hwired hne,
        pin_perform_net hsound hport]
  · rw [memory_perform_net, memory_perform_phase hwired hsound hpart,
      memory_perform_phase hwired hnext' hpart, heffect, memory_perform_net]
  · rw [nets_perform_net, hverdict, perform_phase hwired (state.perform _ _),
      perform_phase hwired state]
    exact (nets_perform_net state index).symm
  · rw [perform_phase hwired (state.perform _ _), heffect, status_perform_net,
      perform_phase hwired state]
    exact congrArg (fun status => Status.isHalted (Effect.status _ status))
      (status_perform_net state index).symm

/-- Two tasks of which neither feeds the other can be exchanged. -/
theorem perform_perform (hwired : netlist.Wired) (hstatic : netlist.Static)
    (hsound : State.Sound netlist state) {first second : Task} (hfirst : first ∈ netlist.tasks)
    (hsecond : second ∈ netlist.tasks) (hne : first ≠ second)
    (hfeeds : ¬ netlist.Feeds first second) (hfed : ¬ netlist.Feeds second first) :
    ((state.perform netlist first).perform netlist second).Level
      ((state.perform netlist second).perform netlist first) := by
  have hphase : ∀ {part position : Nat}, .phase part position ∈ netlist.tasks →
      ∃ phase, netlist.Ordinary part position phase := fun hmem =>
    have htrace : _ ∈ netlist.trace state := mem_trace.mpr hmem
    ordinary_of_mem_trace htrace
  match first, second with
  | .phase part position, .phase other later =>
    refine exchange_phases hwired (fun heq => ?_) state
    subst heq
    obtain ⟨before, hbefore⟩ := hphase hfirst
    obtain ⟨behind, hbehind⟩ := hphase hsecond
    obtain hlt | heq | hlt := Nat.lt_trichotomy position later
    · exact hfeeds (.next hbefore hbehind hlt)
    · exact hne (by rw [heq])
    · exact hfed (.next hbehind hbefore hlt)
  | .phase part position, .net index =>
    obtain ⟨phase, hphase⟩ := hphase hfirst
    exact exchange_phase_net hwired hstatic hsound hphase hfeeds hfed
  | .net index, .phase part position =>
    obtain ⟨phase, hphase⟩ := hphase hsecond
    exact (exchange_phase_net hwired hstatic hsound hphase hfed hfeeds).symm
  | .net index, .net later =>
    exact exchange_nets hwired hstatic hsound fun heq => hne (by rw [heq])

/-! ## Orders -/

/-- An order of tasks in which none stands in front of one that feeds it. -/
def Heeds (netlist : Netlist) (order : List Task) : Prop :=
  ∀ first second, netlist.Feeds first second → ¬ Before order second first

/-- All orders of the same tasks that heed what feeds what lead to the same. -/
theorem level_foldl (hwired : netlist.Wired) (hstatic : netlist.Static) {order order' : List Task}
    (hperm : order.Perm order') (hnodup : order.Nodup) (hmem : ∀ task ∈ order, task ∈ netlist.tasks)
    (hheeds : netlist.Heeds order) (hheeds' : netlist.Heeds order')
    (hsound : State.Sound netlist state) :
    (order.foldl (State.perform netlist) state).Level
      (order'.foldl (State.perform netlist) state) := by
  have hvalid : ∀ {state : State} (task : Task), State.Sound netlist state →
      State.Sound netlist (state.perform netlist task) :=
    fun _ hsound => hsound.perform hwired.native
  refine foldl_of_exchange State.Level.refl State.Level.trans hvalid
    (fun task hsound _ hlevel => hlevel.perform hwired hsound task)
    hperm hnodup (fun {state first second} hsound hbefore hafter => ?_) hsound
  refine perform_perform hwired hstatic hsound (hmem _ hbefore.mem_first)
    (hmem _ hbefore.mem_second) (hbefore.ne hnodup) (fun hfeeds => ?_) fun hfed => ?_
  · exact hheeds' _ _ hfeeds hafter
  · exact hheeds _ _ hfed hbefore

/-- The order of a settle heeds what feeds what. -/
theorem before_of_feeds (hstatic : netlist.Static) (state : State)
    (h : netlist.Feeds task other) : Before (netlist.trace state) task other := by
  cases h with
  | next hbefore hafter hlt =>
    exact before_of_chain state hstatic.loops (precedes_of_lt hbefore hafter hlt)
  | write hwrites =>
    exact before_of_precedes state hstatic.loops
      (precedes_of_write hwrites (hstatic.deferred hwrites))
  | @read part position port index mode hreads hmode =>
    refine before_of_precedes state hstatic.loops (@precedes_of_read _ _ _ port _ ?_)
    have huncrossed := hstatic.uncrossed hreads
    obtain ⟨phase, hphase, hport, hread, rfl⟩ := id hreads
    have hanyOf : port ∉ phase.anyOf := fun hmem => by
      obtain ⟨found, hfound, hnet⟩ := Option.bind_eq_some_iff.mp (Option.filter_eq_some_iff.mp hread).1
      have hunbound := hstatic.anyOf hphase hmem hfound
      rw [Port.bound, hnet] at hunbound
      cases hunbound
    rwa [if_neg hanyOf, huncrossed] at hreads

theorem heeds_trace (hstatic : netlist.Static) (state : State) :
    netlist.Heeds (netlist.trace state) := fun _ _ hfeeds hbefore =>
  (before_of_feeds hstatic state hfeeds).asymm (trace_nodup netlist state) hbefore

/-- Whatever order of all tasks is taken, a settle leads to the same if the
order heeds what feeds what. -/
theorem level_final (hwired : netlist.Wired) (hstatic : netlist.Static)
    (hsound : State.Sound netlist state) {order : List Task} (hperm : order.Perm netlist.tasks)
    (hheeds : netlist.Heeds order) :
    (netlist.final state).Level (netlist.after state order) := by
  rw [final_eq]
  exact level_foldl hwired hstatic ((trace_perm netlist state).trans hperm.symm)
    (trace_nodup netlist state) (fun task htask => mem_trace.mp htask) (heeds_trace hstatic state)
    hheeds (sound_after hwired hsound [])

end Netlist

end Breadboard
