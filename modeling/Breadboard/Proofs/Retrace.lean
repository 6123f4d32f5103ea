import Breadboard.Proofs.Lockstep
import Breadboard.Proofs.Stable
import Mathlib.Data.List.Induction

/-!
# Settling again

A settle that starts where another one ended finds every cell either as that one
had it at the same point or as that one left it. `Retraced` says so for every kind
of cell, and every task keeps it if the state between the two is stable
(`Retraced.step`). Then both settles agree on which drivers drive, run the same
tasks, and end in the same state (`matches_of_stable`).

The first settle starts in `first`, the second one in `second`.
-/

namespace Breadboard

/-! ## Edits -/

namespace Edit

theorem enabled_apply (edit : Edit) :
    (∃ enabled, ∀ pin, (edit.apply pin).enabled = enabled) ∨
      ∀ pin, (edit.apply pin).enabled = pin.enabled := by
  cases edit with
  | ignore => exact Or.inl ⟨false, fun _ => rfl⟩
  | drive bidirectional value => cases value <;> exact Or.inl ⟨_, fun _ => rfl⟩
  | _ => exact Or.inr fun _ => rfl

theorem facing_apply (edit : Edit) :
    (∃ facing, ∀ pin, (edit.apply pin).facing = facing) ∨
      ∀ pin, (edit.apply pin).facing = pin.facing := by
  cases edit with
  | face facing => exact Or.inl ⟨facing, fun _ => rfl⟩
  | drive bidirectional value =>
    cases bidirectional with
    | true => cases value <;> exact Or.inl ⟨_, fun _ => rfl⟩
    | false => cases value <;> exact Or.inr fun _ => rfl
  | _ => exact Or.inr fun _ => rfl

end Edit

namespace Netlist

/-- The second settle starts in what the first one led to. -/
structure Repeats (netlist : Netlist) (first second : State) : Prop where
  flat : netlist.Flat
  loops : (compile netlist).diagnostics = []
  uncrossed : netlist.Uncrossed
  sound : State.Sound netlist first
  again : State.Sound netlist second
  agrees : second.Matches (netlist.final first)
  stable : netlist.Stable second

/-- A pin shows a value that its net is yet to cut down to what it was before. -/
def Pending (netlist : Netlist) (second : State) (left : List Task) (ref : PortRef)
    (word : Word) : Prop :=
  ∃ index net, netlist.nets[index]? = some net ∧ ref ∈ net.targets ∧ .net index ∉ left ∧
    (second.net index).enabledCount = 1 ∧ trim net.width word = (second.pin ref).value

/-- Behind the same tasks every cell of the second settle is as in the first, or as
the first left it. -/
structure Retraced (netlist : Netlist) (first second : State) (left : List Task) : Prop where
  enabled : ∀ {ref : PortRef} {port : Port}, netlist.port? ref = some port →
    ((netlist.after second left).pin ref).enabled = ((netlist.after first left).pin ref).enabled
  facing : ∀ {ref : PortRef} {port : Port}, netlist.port? ref = some port →
    ((netlist.after second left).pin ref).facing = ((netlist.after first left).pin ref).facing ∨
      ((netlist.after second left).pin ref).facing = (second.pin ref).facing
  value : ∀ {ref : PortRef} {port : Port}, netlist.port? ref = some port →
    ((netlist.after second left).pin ref).value = ((netlist.after first left).pin ref).value ∨
      ((netlist.after second left).pin ref).value = (second.pin ref).value ∨
      port.type.bidirectional = true ∧
        netlist.Pending second left ref ((netlist.after second left).pin ref).value
  resolved : ∀ {ref : PortRef} {port : Port}, netlist.port? ref = some port →
    ((netlist.after second left).pin ref).resolved =
        ((netlist.after first left).pin ref).resolved ∨
      ((netlist.after second left).pin ref).resolved = (second.pin ref).resolved
  /-- An input that a net has told something is as in the first settle. -/
  heard : ∀ {ref : PortRef} {port : Port} {index : Nat}, netlist.port? ref = some port →
    port.type.output = false → .net index ∈ left →
    ref ∈ (netlist.nets.getD index default).targets →
    ((netlist.after second left).pin ref).resolved =
        ((netlist.after first left).pin ref).resolved ∧
      (((netlist.after first left).pin ref).resolved = true →
        ((netlist.after second left).pin ref).value = ((netlist.after first left).pin ref).value)
  memory : ∀ part,
    ((netlist.after second left).part part).memory =
        ((netlist.after first left).part part).memory ∨
      ((netlist.after second left).part part).memory = (second.part part).memory
  net : ∀ index, (netlist.after second left).net index = second.net index
  status : (netlist.after second left).status = second.status

variable {netlist : Netlist} {first second : State} {ref : PortRef} {port : Port} {placed : Part}
  {index part position : Nat} {net : Net} {task : Task} {left right : List Task}

/-- Running a phase resolves no net. -/
theorem Pending.phase {word : Word} (h : netlist.Pending second left ref word)
    (part position : Nat) :
    netlist.Pending second (left ++ [.phase part position]) ref word := by
  obtain ⟨index, net, hnet, htarget, hindex, hrest⟩ := h
  refine ⟨index, net, hnet, htarget, fun hmem => ?_, hrest⟩
  rcases List.mem_append.mp hmem with hmem | hmem
  · exact hindex hmem
  · cases List.mem_singleton.mp hmem

namespace Retraced

theorem start (h : netlist.Repeats first second) : netlist.Retraced first second [] := by
  have hbegun : ∀ {ref : PortRef} {port : Port}, netlist.port? ref = some port →
      (netlist.begun second).pin ref =
        { second.pin ref with enabled := !port.type.tristate } := pin_begun h.again
  refine ⟨fun hport => ?_, fun hport => Or.inr ?_, fun hport => Or.inr (Or.inl ?_),
    fun hport => Or.inr ?_, fun _ _ hindex => absurd hindex List.not_mem_nil,
    fun part => Or.inr (State.memory_mapPins h.again
      (fun port pin => { pin with enabled := !port.type.tristate }) part), fun _ => rfl, rfl⟩
  · exact (congrArg Pin.enabled (hbegun hport)).trans
      (congrArg Pin.enabled (pin_begun h.sound hport)).symm
  · exact (congrArg Pin.facing (hbegun hport)).trans rfl
  · exact (congrArg Pin.value (hbegun hport)).trans rfl
  · exact (congrArg Pin.resolved (hbegun hport)).trans rfl

/-! ## Drivers -/

/-- A tri-state pin that is enabled has been driven. -/
theorem last_mem_left (h : netlist.Repeats first second) (htrace : netlist.trace first = left ++ right)
    (hport : netlist.port? ref = some port) (hpart : netlist.parts[ref.part]? = some placed)
    (htristate : port.type.tristate = true)
    (henabled : ((netlist.after first left).pin ref).enabled = true) :
    .phase ref.part placed.device.last ∈ left := by
  by_contra hlast
  have hearly := enabled_early h.flat.wired h.sound htrace hport hpart hlast
  rw [henabled, htristate] at hearly
  cases hearly

theorem drives (hsame : netlist.Retraced first second left) (h : netlist.Repeats first second)
    (htrace : netlist.trace first = left ++ right) (hport : netlist.port? ref = some port) :
    ((netlist.after second left).pin ref).drives port.type =
      ((netlist.after first left).pin ref).drives port.type := by
  have hwired := h.flat.wired
  rw [Pin.drives, Pin.drives, hsame.enabled hport]
  cases henabled : ((netlist.after first left).pin ref).enabled with
  | false => simp
  | true =>
    cases hboth : port.type.bidirectional with
    | false => simp
    | true =>
      obtain ⟨placed, hpart, -⟩ := part_of_port hport
      have hlast := last_mem_left h htrace hport hpart
        (tristate_of_bidirectional hwired hport hboth) henabled
      have hturn := turn_final hwired h.sound htrace hport hpart hlast
      have hfacing := (Prod.mk.inj hturn).2
      rw [← h.agrees.facing] at hfacing
      have hsecond : ((netlist.after second left).pin ref).facing =
          ((netlist.after first left).pin ref).facing := by
        rcases hsame.facing hport with hkept | hkept
        · exact hkept
        · rw [hkept, hfacing]
      rw [hsecond]

theorem isDriving (hsame : netlist.Retraced first second left) (h : netlist.Repeats first second)
    (htrace : netlist.trace first = left ++ right) (ref : PortRef) :
    Net.isDriving netlist (netlist.after second left) ref =
      Net.isDriving netlist (netlist.after first left) ref := by
  cases hport : netlist.port? ref with
  | some port =>
    rw [isDriving_eq hport, isDriving_eq hport]
    exact hsame.drives h htrace hport
  | none =>
    rw [Net.isDriving, Net.isDriving, State.pin_eq_default (sound_after h.flat.wired h.again left) hport,
      State.pin_eq_default (sound_after h.flat.wired h.sound left) hport]

theorem agree (hsame : netlist.Retraced first second (left ++ [task]))
    (h : netlist.Repeats first second) (htrace : netlist.trace first = left ++ task :: right) :
    netlist.Agree first second left task := by
  have hsplit : netlist.trace first = (left ++ [task]) ++ right := by
    rw [htrace, List.append_assoc, List.singleton_append]
  intro trigger
  cases trigger with
  | fired => rfl
  | driving port =>
    cases task with
    | phase part position => exact (hsame.isDriving h hsplit ⟨part, port⟩).symm
    | net index => rfl

/-! ## Nets -/

/-- What a net has decided is what it shows in the second settle from the start. -/
theorem net_eq (h : netlist.Repeats first second)
    (htrace : netlist.trace first = left ++ .net index :: right)
    (hindex : index < netlist.nets.length) :
    second.net index =
      ⟨((netlist.after first left).verdict netlist index).1.getD (first.net index).value,
        ((netlist.after first left).verdict netlist index).2⟩ := by
  rw [h.agrees.net, net_final h.flat.wired h.sound htrace hindex]

/-- A source that is counted alone shows its net the same in both settles. -/
theorem shown (hsame : netlist.Retraced first second left) (h : netlist.Repeats first second)
    (htrace : netlist.trace first = left ++ .net index :: right)
    (hnet : netlist.nets[index]? = some net) (href : ref ∈ net.sources)
    (hdriving : net.tristate = true → Net.isDriving netlist (netlist.after first left) ref = true)
    (hverdict : (netlist.after first left).verdict netlist index =
      (some (trim net.width ((netlist.after first left).pin ref).value), 1)) :
    trim net.width ((netlist.after second left).pin ref).value =
      trim net.width ((netlist.after first left).pin ref).value := by
  have hwired := h.flat.wired
  obtain ⟨port, hattached, houtput⟩ := hwired.source hnet href
  have hport := hattached.found
  obtain ⟨placed, hpart, -⟩ := part_of_port hport
  have hkept := net_eq h htrace (List.getElem?_eq_some_iff.mp hnet).1
  rw [hverdict] at hkept
  have hdecided := congrArg Prod.fst hverdict
  have hdriven : port.type.tristate = true → .phase ref.part placed.device.last ∈ left := by
    intro htristate
    have hdrives := hdriving (hattached.tristate htristate)
    rw [isDriving_eq hport, Pin.drives, Bool.and_eq_true, Bool.and_eq_true] at hdrives
    exact last_mem_left h htrace hport hpart htristate hdrives.1.2
  have hthrough : port.type.tristate = true →
      trim net.width ((netlist.after first left).pin ref).value =
        trim net.width (second.pin ref).value := by
    intro htristate
    rw [h.agrees.value]
    refine value_through h.flat h.sound htrace hnet href ?_ hdecided
    rw [drivenBefore_eq hwired htrace hport hpart houtput]
    exact decide_eq_true (hdriven htristate)
  rcases hsame.value hport with hvalue | hvalue | ⟨hboth, other, net', hnet', htarget, -, -, hvalue⟩
  · rw [hvalue]
  · rw [hvalue]
    cases htristate : port.type.tristate with
    | true => exact (hthrough htristate).symm
    | false =>
      have hplain := h.stable.plain hnet (by rw [hkept]) href hport htristate
      rw [← hplain, hkept]
      rfl
  · obtain rfl := h.flat.eq_of_bidirectional hport hboth ⟨net', hnet', Or.inr htarget⟩
      ⟨net, hnet, Or.inl href⟩
    obtain rfl := Option.some.inj (hnet'.symm.trans hnet)
    rw [hthrough (tristate_of_bidirectional hwired hport hboth), ← hvalue, trim_trim]

theorem verdict (hsame : netlist.Retraced first second left) (h : netlist.Repeats first second)
    (htrace : netlist.trace first = left ++ .net index :: right)
    (hnet : netlist.nets[index]? = some net) :
    (netlist.after second left).verdict netlist index =
      (netlist.after first left).verdict netlist index := by
  cases htristate : net.tristate with
  | true =>
    have hdriving : net.driving netlist (netlist.after second left) =
        net.driving netlist (netlist.after first left) :=
      List.filter_congr fun ref _ => hsame.isDriving h htrace ref
    have hfirst := verdict_tristate hnet htristate (netlist.after first left)
    rw [verdict_tristate hnet htristate (netlist.after second left), hdriving, hfirst]
    rcases hcases : net.driving netlist (netlist.after first left) with _ | ⟨source, _ | _⟩
    · rfl
    · rw [hcases] at hfirst
      have hmem : source ∈ net.driving netlist (netlist.after first left) := by
        rw [hcases]
        exact List.mem_singleton_self source
      obtain ⟨hsource, hdrives⟩ := List.mem_filter.mp hmem
      have hshown := hsame.shown h htrace hnet hsource (fun _ => hdrives) hfirst
      dsimp only
      rw [hshown]
    · rfl
  | false =>
    have hfirst := verdict_plain hnet htristate (netlist.after first left)
    rw [verdict_plain hnet htristate (netlist.after second left), hfirst]
    rcases hcases : net.sources with _ | ⟨source, _ | _⟩
    · rfl
    · rw [hcases] at hfirst
      have hshown := hsame.shown h htrace hnet (by rw [hcases]; exact List.mem_singleton_self source)
        (fun hdynamic => by rw [htristate] at hdynamic; cases hdynamic) hfirst
      dsimp only
      rw [hshown]
    · rfl

theorem value_net (hsame : netlist.Retraced first second left) (h : netlist.Repeats first second)
    (htrace : netlist.trace first = left ++ .net index :: right)
    (hnet : netlist.nets[index]? = some net) (hport : netlist.port? ref = some port) :
    let left' := left ++ [.net index]
    ((netlist.after second left').pin ref).value = ((netlist.after first left').pin ref).value ∨
      ((netlist.after second left').pin ref).value = (second.pin ref).value ∨
      port.type.bidirectional = true ∧
        netlist.Pending second left' ref ((netlist.after second left').pin ref).value := by
  intro left'
  rw [pin_after_net h.flat.wired h.again hport, pin_after_net h.flat.wired h.sound hport,
    hsame.verdict h htrace hnet, getD_nets hnet]
  have hcount := congrArg NetState.enabledCount
    (net_eq h htrace (List.getElem?_eq_some_iff.mp hnet).1)
  dsimp only at hcount
  -- the net that the pin is waiting for is another one
  have hlater : ∀ word, netlist.Pending second left ref word →
      (ref ∈ net.targets → ((netlist.after first left).verdict netlist index).1 = none) →
      netlist.Pending second left' ref word := by
    rintro word ⟨other, net', hnet', htarget, hother, hone, hvalue⟩ hopen
    refine ⟨other, net', hnet', htarget, fun hmem => ?_, hone, hvalue⟩
    rcases List.mem_append.mp hmem with hmem | hmem
    · exact hother hmem
    · obtain rfl := Task.net.inj (List.mem_singleton.mp hmem)
      obtain rfl := Option.some.inj (hnet'.symm.trans hnet)
      have hdecides := decides_of_one hnet (hcount.symm.trans hone)
      rw [hopen htarget] at hdecides
      cases hdecides
  by_cases htarget : ref ∈ net.targets
  · rw [if_pos htarget, if_pos htarget]
    cases hverdict : ((netlist.after first left).verdict netlist index).1 with
    | some word => exact Or.inl rfl
    | none =>
      rcases hsame.value hport with hvalue | hvalue | ⟨hboth, hvalue⟩
      · exact Or.inl hvalue
      · exact Or.inr (Or.inl hvalue)
      · exact Or.inr (Or.inr ⟨hboth, hlater _ hvalue fun _ => hverdict⟩)
  · rw [if_neg htarget, if_neg htarget]
    rcases hsame.value hport with hvalue | hvalue | ⟨hboth, hvalue⟩
    · exact Or.inl hvalue
    · exact Or.inr (Or.inl hvalue)
    · exact Or.inr (Or.inr ⟨hboth, hlater _ hvalue fun hmem => absurd hmem htarget⟩)

/-- Both settles resolve a net alike. -/
theorem net_step (hsame : netlist.Retraced first second left) (h : netlist.Repeats first second)
    (htrace : netlist.trace first = left ++ .net index :: right)
    (hnet : netlist.nets[index]? = some net) :
    netlist.Retraced first second (left ++ [.net index]) := by
  have hwired := h.flat.wired
  have hverdict := hsame.verdict h htrace hnet
  have hlt := (List.getElem?_eq_some_iff.mp hnet).1
  refine ⟨fun hport => ?_, fun hport => ?_, fun hport => hsame.value_net h htrace hnet hport,
    fun hport => ?_, fun {ref port other} hport houtput hother htarget => ?_, fun part => ?_,
    fun other => ?_, ?_⟩
  · rw [pin_after_net hwired h.again hport, pin_after_net hwired h.sound hport]
    split
    · simpa using hsame.enabled hport
    · exact hsame.enabled hport
  · rw [pin_after_net hwired h.again hport, pin_after_net hwired h.sound hport]
    split
    · simpa using hsame.facing hport
    · exact hsame.facing hport
  · rw [pin_after_net hwired h.again hport, pin_after_net hwired h.sound hport, hverdict]
    split
    · exact Or.inl (by simp)
    · exact hsame.resolved hport
  · rw [pin_after_net hwired h.again hport, pin_after_net hwired h.sound hport, hverdict]
    split
    · refine ⟨by simp, fun hresolved => ?_⟩
      rw [Pin.resolved_hear] at hresolved
      obtain ⟨word, hword⟩ := Option.isSome_iff_exists.mp hresolved
      rw [hword]
      rfl
    · next hself =>
      refine hsame.heard hport houtput ?_ htarget
      rcases List.mem_append.mp hother with hother | hother
      · exact hother
      · obtain rfl := Task.net.inj (List.mem_singleton.mp hother)
        exact absurd htarget hself
  · rw [after_snoc, after_snoc, State.perform, State.perform, State.memory_resolve,
      State.memory_resolve]
    exact hsame.memory part
  · rw [net_after_net hwired h.again hlt, hsame.net, hsame.net, hverdict]
    split
    · next hother =>
      subst hother
      rw [net_eq h htrace hlt]
      cases ((netlist.after first left).verdict netlist other).1 <;> rfl
    · rfl
  · rw [after_snoc, State.perform, State.status_resolve]
    exact hsame.status

/-! ## Phases -/

/-- An input that a phase waits for is the same in both settles, if the device
looks at its value. -/
theorem read (hsame : netlist.Retraced first second left) (h : netlist.Repeats first second)
    (htrace : netlist.trace first = left ++ .phase part position :: right) {phase : Phase}
    (hphase : netlist.Ordinary part position phase) (hpart : netlist.parts[part]? = some placed)
    (hanyOf : phase.anyOf = []) (hread : index ∈ phase.reads) :
    ((netlist.after second left).pin ⟨part, index⟩).resolved =
        ((netlist.after first left).pin ⟨part, index⟩).resolved ∧
      ((placed.device.wary = true → ((netlist.after first left).pin ⟨part, index⟩).resolved = true) →
        ((netlist.after second left).pin ⟨part, index⟩).value =
          ((netlist.after first left).pin ⟨part, index⟩).value) := by
  have hwired := h.flat.wired
  cases hport : netlist.port? ⟨part, index⟩ with
  | none =>
    rw [State.pin_eq_default (sound_after hwired h.again left) hport,
      State.pin_eq_default (sound_after hwired h.sound left) hport]
    exact ⟨rfl, fun _ => rfl⟩
  | some port =>
    obtain ⟨owner, howner, hfound⟩ := part_of_phase hphase
    obtain rfl := Option.some.inj (howner.symm.trans hpart)
    obtain ⟨owner', howner', hplace⟩ := part_of_port hport
    obtain rfl := Option.some.inj (howner'.symm.trans hpart)
    obtain ⟨hinput, houtput⟩ := (hwired.regularAt hpart).reads hfound hphase.2 hread hplace
    -- where the input is as it will be in the end, it does not matter which case holds
    have hkept : (∀ one two, netlist.Lists one ⟨part, index⟩ → netlist.Lists two ⟨part, index⟩ →
        one = two) →
        ((netlist.after second left).pin ⟨part, index⟩).resolved =
            ((netlist.after first left).pin ⟨part, index⟩).resolved ∧
          ((netlist.after second left).pin ⟨part, index⟩).value =
            ((netlist.after first left).pin ⟨part, index⟩).value := by
      intro hone
      have hlook := look_read hwired h.loops h.uncrossed h.sound htrace hphase hread hanyOf hone
      obtain ⟨hvalue, hresolved⟩ := Prod.mk.inj hlook
      rw [← h.agrees.value] at hvalue
      rw [← h.agrees.resolved] at hresolved
      refine ⟨?_, ?_⟩
      · rcases hsame.resolved hport with hsecond | hsecond
        · exact hsecond
        · rw [hsecond, hresolved]
      · rcases hsame.value hport with hsecond | hsecond | ⟨hboth, -⟩
        · exact hsecond
        · rw [hsecond, hvalue]
        · rw [PortType.bidirectional, houtput, Bool.and_false] at hboth
          cases hboth
    cases hbound : port.net with
    | none =>
      obtain ⟨hresolved, hvalue⟩ :=
        hkept fun _ _ hlists => absurd hlists (not_lists_of_unbound hwired hport hbound)
      exact ⟨hresolved, fun _ => hvalue⟩
    | some net =>
      have hleft := net_mem_left hwired h.loops h.uncrossed htrace hphase hread hanyOf hport hbound
      obtain ⟨found, hfound, htarget, -⟩ := hwired.known hport hbound
      obtain ⟨hresolved, hvalue⟩ := hsame.heard hport houtput hleft
        (by rw [getD_nets hfound]; exact htarget hinput)
      refine ⟨hresolved, fun hwary => ?_⟩
      cases hdevice : owner'.device.wary with
      | true => exact hvalue (hwary hdevice)
      | false => exact (hkept fun _ _ => h.flat.eq_of_wary hpart hport hdevice).2

/-- Both settles run a phase that waits for what it reads to the same effect. -/
theorem effect (hsame : netlist.Retraced first second left) (h : netlist.Repeats first second)
    (htrace : netlist.trace first = left ++ .phase part position :: right)
    (hpart : netlist.parts[part]? = some placed)
    (hwaits : placed.device = .bridge → position ≠ 1) :
    (netlist.after second left).effect netlist part position =
      (netlist.after first left).effect netlist part position := by
  have hwired := h.flat.wired
  obtain ⟨phase, hphase⟩ := ordinary_of_split htrace
  obtain ⟨owner, howner, hfound⟩ := part_of_phase hphase
  obtain rfl := Option.some.inj (howner.symm.trans hpart)
  have hregular := hwired.regularAt hpart
  have hanyOf := hregular.anyOf_eq_nil hfound hwaits
  rw [State.effect_eq hpart, State.effect_eq hpart]
  refine hregular.effect_congr hfound hwaits ?_
    (fun index hindex => (hsame.read h htrace hphase hpart hanyOf hindex).1)
    fun index hindex hwary => (hsame.read h htrace hphase hpart hanyOf hindex).2 hwary
  rcases hsame.memory part with hmemory | hmemory
  · rw [hmemory]
  · rw [hmemory, h.agrees.memory]
    exact (recalled_final hwired h.sound hpart htrace).symm

/-- A phase leaves alone what cells other than those that it drives hold. -/
theorem phase_step (hsame : netlist.Retraced first second left) (h : netlist.Repeats first second)
    (hpart : netlist.parts[part]? = some placed) {phase : Phase}
    (hphase : netlist.Ordinary part position phase)
    (henabled : ∀ {ref : PortRef} {port : Port}, netlist.port? ref = some port → ref.part = part →
      ((netlist.after second (left ++ [.phase part position])).pin ref).enabled =
        ((netlist.after first (left ++ [.phase part position])).pin ref).enabled)
    (hfacing : ∀ {ref : PortRef} {port : Port}, netlist.port? ref = some port → ref.part = part →
      ((netlist.after second (left ++ [.phase part position])).pin ref).facing =
          ((netlist.after first (left ++ [.phase part position])).pin ref).facing ∨
        ((netlist.after second (left ++ [.phase part position])).pin ref).facing =
          (second.pin ref).facing)
    (hvalue : ∀ {ref : PortRef} {port : Port}, netlist.port? ref = some port → ref.part = part →
      ((netlist.after second (left ++ [.phase part position])).pin ref).value =
          ((netlist.after first (left ++ [.phase part position])).pin ref).value ∨
        ((netlist.after second (left ++ [.phase part position])).pin ref).value =
          (second.pin ref).value ∨
        port.type.bidirectional = true ∧ netlist.Pending second left ref
          ((netlist.after second (left ++ [.phase part position])).pin ref).value)
    (hmemory : ((netlist.after second left).effect netlist part position).memory =
      ((netlist.after first left).effect netlist part position).memory)
    (hstatus : ((netlist.after second left).effect netlist part position).status second.status =
      second.status) :
    netlist.Retraced first second (left ++ [.phase part position]) := by
  have hwired := h.flat.wired
  refine ⟨fun {ref port} hport => ?_, fun {ref port} hport => ?_, fun {ref port} hport => ?_,
    fun {ref port} hport => ?_, fun {ref port index} hport houtput hindex htarget => ?_,
    fun other => ?_, fun index => ?_, ?_⟩
  · by_cases hself : ref.part = part
    · exact henabled hport hself
    · rw [pin_after_phase hwired h.again hport, pin_after_phase hwired h.sound hport, if_neg hself,
        if_neg hself]
      exact hsame.enabled hport
  · by_cases hself : ref.part = part
    · exact hfacing hport hself
    · rw [pin_after_phase hwired h.again hport, pin_after_phase hwired h.sound hport, if_neg hself,
        if_neg hself]
      exact hsame.facing hport
  · by_cases hself : ref.part = part
    · rcases hvalue hport hself with hkept | hkept | ⟨hboth, hkept⟩
      · exact Or.inl hkept
      · exact Or.inr (Or.inl hkept)
      · exact Or.inr (Or.inr ⟨hboth, Pending.phase hkept part position⟩)
    · rw [pin_after_phase hwired h.again hport, pin_after_phase hwired h.sound hport, if_neg hself,
        if_neg hself]
      rcases hsame.value hport with hkept | hkept | ⟨hboth, hkept⟩
      · exact Or.inl hkept
      · exact Or.inr (Or.inl hkept)
      · exact Or.inr (Or.inr ⟨hboth, Pending.phase hkept part position⟩)
  · rw [pin_after_phase hwired h.again hport, pin_after_phase hwired h.sound hport]
    split
    · rw [Edit.resolved_apply, Edit.resolved_apply]
      exact hsame.resolved hport
    · exact hsame.resolved hport
  · have hlook : ∀ {state : State}, State.Sound netlist state →
        ((netlist.after state left).perform netlist (.phase part position)).look ref =
          (netlist.after state left).look ref := fun hstate =>
      State.look_phase hwired (sound_after hwired hstate left) hport houtput hphase
    obtain ⟨hvalue', hresolved'⟩ := Prod.mk.inj (hlook h.again)
    obtain ⟨hvalue'', hresolved''⟩ := Prod.mk.inj (hlook h.sound)
    rw [after_snoc, after_snoc, hvalue', hresolved', hvalue'', hresolved'']
    refine hsame.heard hport houtput ?_ htarget
    rcases List.mem_append.mp hindex with hindex | hindex
    · exact hindex
    · cases List.mem_singleton.mp hindex
  · rw [memory_after_phase hwired h.again hpart, memory_after_phase hwired h.sound hpart]
    split
    · exact Or.inl hmemory
    · exact hsame.memory other
  · rw [after_snoc]
    exact hsame.net index
  · rw [status_after_phase hwired, hsame.status]
    exact hstatus

/-- A circuit that runs when the settle is over has run all along. -/
theorem running_after (hwired : netlist.Wired) {state : State}
    (htrace : netlist.trace state = left ++ right)
    (hrunning : (netlist.final state).status = .running) :
    (netlist.after state left).status = .running := by
  rw [final_eq, htrace, after_append] at hrunning
  generalize netlist.after state left = reached at hrunning ⊢
  clear htrace
  induction right generalizing reached with
  | nil => exact hrunning
  | cons task right ih =>
    have hnext := ih _ hrunning
    cases task with
    | net index => rwa [State.perform, State.status_resolve] at hnext
    | phase part position =>
      rw [State.perform, State.runPhase_eq _ _ (State.native_getD hwired.native part)] at hnext
      cases hstatus : reached.status with
      | running => rfl
      | halted reason =>
        rw [hstatus] at hnext
        cases hnext

/-- What stops the circuit in the second settle has stopped it in the first. -/
theorem status_waiting (h : netlist.Repeats first second)
    (htrace : netlist.trace first = left ++ .phase part position :: right)
    (heffect : (netlist.after second left).effect netlist part position =
      (netlist.after first left).effect netlist part position) :
    ((netlist.after second left).effect netlist part position).status second.status =
      second.status := by
  cases hstatus : second.status with
  | halted reason => rfl
  | running =>
    rw [h.agrees.status] at hstatus
    have hsplit : netlist.trace first = (left ++ [.phase part position]) ++ right := by
      rw [htrace, List.append_assoc, List.singleton_append]
    have hthen := running_after h.flat.wired hsplit hstatus
    rwa [status_after_phase h.flat.wired, running_after h.flat.wired htrace hstatus, ← heffect]
      at hthen

theorem step_waiting (hsame : netlist.Retraced first second left)
    (h : netlist.Repeats first second)
    (htrace : netlist.trace first = left ++ .phase part position :: right)
    (hpart : netlist.parts[part]? = some placed)
    (hwaits : placed.device = .bridge → position ≠ 1) :
    netlist.Retraced first second (left ++ [.phase part position]) := by
  have hwired := h.flat.wired
  have heffect := hsame.effect h htrace hpart hwaits
  obtain ⟨phase, hphase⟩ := ordinary_of_split htrace
  have hpins : ∀ {ref port}, netlist.port? ref = some port → ref.part = part → ∃ edit : Edit,
      (netlist.after second (left ++ [.phase part position])).pin ref =
          edit.apply ((netlist.after second left).pin ref) ∧
        (netlist.after first (left ++ [.phase part position])).pin ref =
          edit.apply ((netlist.after first left).pin ref) := by
    intro ref port hport hself
    rw [pin_after_phase hwired h.again hport, pin_after_phase hwired h.sound hport, if_pos hself,
      if_pos hself, heffect]
    exact ⟨_, rfl, rfl⟩
  refine hsame.phase_step h hpart hphase (fun hport hself => ?_) (fun hport hself => ?_)
    (fun hport hself => ?_) (by rw [heffect]) (status_waiting h htrace heffect)
  · obtain ⟨edit, hsecond, hfirst⟩ := hpins hport hself
    rw [hsecond, hfirst]
    rcases edit.enabled_apply with ⟨enabled, hset⟩ | hkeep
    · rw [hset, hset]
    · rw [hkeep, hkeep]
      exact hsame.enabled hport
  · obtain ⟨edit, hsecond, hfirst⟩ := hpins hport hself
    rw [hsecond, hfirst]
    rcases edit.facing_apply with ⟨facing, hset⟩ | hkeep
    · rw [hset, hset]
      exact Or.inl rfl
    · rw [hkeep, hkeep]
      exact hsame.facing hport
  · obtain ⟨edit, hsecond, hfirst⟩ := hpins hport hself
    rw [hsecond, hfirst, Edit.value_apply, Edit.value_apply]
    cases edit.told with
    | some word => exact Or.inl rfl
    | none => exact hsame.value hport

/-! ## Bridges -/

/-- A bridge copies in the second settle what it would copy when it starts. -/
theorem copied (hsame : netlist.Retraced first second left) (h : netlist.Repeats first second)
    (htrace : netlist.trace first = left ++ .phase part 1 :: right)
    (hpart : netlist.parts[part]? = some placed) (hbridge : placed.device = .bridge)
    {enabled forward : Bool} (hheld : (second.part part).memory = .bridge enabled forward) :
    ((netlist.after first left).part part).memory = .bridge enabled forward ∧
      ((netlist.after second left).part part).memory = .bridge enabled forward ∧
      ((netlist.after second left).part part).copied = (second.part part).copied := by
  have hwired := h.flat.wired
  have hfirst := memory_from_last hwired h.sound hpart (by rw [hbridge]; exact htrace)
    (by rw [hbridge]; exact nofun)
  rw [← h.agrees.memory, hheld] at hfirst
  have hsecond : ((netlist.after second left).part part).memory = .bridge enabled forward := by
    rcases hsame.memory part with hmemory | hmemory
    · exact hmemory.trans hfirst
    · exact hmemory.trans hheld
  refine ⟨hfirst, hsecond, ?_⟩
  obtain ⟨source, -, hsource, -, htype, -⟩ := bridge_ports hwired hpart hbridge forward
  have hlook : (netlist.after second left).look ⟨part, (Device.bridgeSides forward).1⟩ =
      second.look ⟨part, (Device.bridgeSides forward).1⟩ := by
    by_cases hleft : ∃ index, .net index ∈ left ∧
        ⟨part, (Device.bridgeSides forward).1⟩ ∈ (netlist.nets.getD index default).targets
    · obtain ⟨index, hindex, htarget⟩ := hleft
      have hone : ∀ other, ⟨part, (Device.bridgeSides forward).1⟩ ∈
          (netlist.nets.getD other default).targets → other = index :=
        fun other hother => side_unshared h.flat hsource htype hother htarget
      have hdone := look_source hwired h.sound hpart hbridge htrace hfirst
        fun other hother htarget' => by
          rw [hone other htarget'] at hother
          exact not_mem_right htrace hindex (List.mem_cons_of_mem _ hother)
      obtain ⟨hvalue, hresolved⟩ := Prod.mk.inj hdone
      rw [← h.agrees.value] at hvalue
      rw [← h.agrees.resolved] at hresolved
      refine Prod.ext ?_ ?_
      · rcases hsame.value hsource with hkept | hkept | ⟨-, other, net, hnet, htarget', hother, -⟩
        · exact hkept.trans hvalue
        · exact hkept
        · rw [hone other (by rw [getD_nets hnet]; exact htarget')] at hother
          exact absurd hindex hother
      · rcases hsame.resolved hsource with hkept | hkept
        · exact hkept.trans hresolved
        · exact hkept
    · refine look_early hwired h.again (fun part position htask => ?_) hsource hpart ?_
        fun index hindex htarget => hleft ⟨index, hindex, htarget⟩
      · exact ordinary_of_mem_left htrace htask
      · rw [hbridge]
        exact (not_mem_split htrace).1
  obtain ⟨hvalue, hresolved⟩ := Prod.mk.inj hlook
  exact PartState.copied_congr hsecond hheld hvalue hresolved

/-- What a stable bridge drives is there already, or its net is yet to cut it down. -/
theorem pending_of_recopied (h : netlist.Repeats first second)
    (htrace : netlist.trace first = left ++ .phase ref.part 1 :: right)
    (hbegins : left <+: netlist.trace second)
    (hport : netlist.port? ref = some port) (hpart : netlist.parts[ref.part]? = some placed)
    (hbridge : placed.device = .bridge) (hboth : port.type.bidirectional = true)
    {value : Option Word}
    (hagain : (second.runPhase netlist ref.part 1).pin ref = (second.pin ref).drive true value) :
    (second.pin ref).enabled = value.isSome ∧ ∀ word, value = some word →
      word = (second.pin ref).value ∨ netlist.Pending second left ref word := by
  have hwired := h.flat.wired
  have hrecopied := h.stable.bridge hpart hbridge
  unfold Recopied at hrecopied
  rw [hagain] at hrecopied
  rcases hrecopied with hself | ⟨index, net, hnet, hsource, hone, hdriven, hself⟩
  · refine ⟨?_, ?_⟩
    · rw [← hself]
      cases value <;> rfl
    · rintro word rfl
      exact Or.inl (congrArg Pin.value hself)
  · refine ⟨?_, ?_⟩
    · rw [← hself]
      cases value <;> rfl
    · rintro word rfl
      obtain ⟨-, htarget⟩ := both_of_lists h.flat hport hboth hnet ⟨net, hnet, Or.inl hsource⟩
      refine Or.inr ⟨index, net, hnet, htarget, fun hmem => ?_, hone, congrArg Pin.value hself⟩
      -- the net would have been resolved before the bridge copied
      obtain ⟨rest, hrest⟩ := hbegins
      obtain ⟨before, middle, rfl⟩ := List.append_of_mem hmem
      rw [List.append_assoc, List.cons_append] at hrest
      have houtput := (Bool.and_eq_true_iff.mp hboth).2
      rw [drivenBefore_eq hwired hrest.symm hport hpart houtput, hbridge, decide_eq_true_eq] at hdriven
      exact (not_mem_split htrace).1 (List.mem_append_left _ hdriven)

/-- What the copy phase of a bridge does to a pin of it in the two settles. -/
theorem pins_copy (hsame : netlist.Retraced first second left) (h : netlist.Repeats first second)
    (htrace : netlist.trace first = left ++ .phase ref.part 1 :: right)
    (hbegins : left <+: netlist.trace second) (hport : netlist.port? ref = some port)
    (hpart : netlist.parts[ref.part]? = some placed) (hbridge : placed.device = .bridge) :
    ((netlist.after first (left ++ [.phase ref.part 1])).pin ref =
        (netlist.after first left).pin ref ∧
      (netlist.after second (left ++ [.phase ref.part 1])).pin ref =
        (netlist.after second left).pin ref) ∨
    ∃ value value' : Option Word, value'.isSome = value.isSome ∧
      (netlist.after first (left ++ [.phase ref.part 1])).pin ref =
        ((netlist.after first left).pin ref).drive true value ∧
      (netlist.after second (left ++ [.phase ref.part 1])).pin ref =
        ((netlist.after second left).pin ref).drive true value' ∧
      ∀ word, value' = some word → word = (second.pin ref).value ∨
        port.type.bidirectional = true ∧ netlist.Pending second left ref word := by
  have hwired := h.flat.wired
  obtain ⟨enabled, forward, hheld⟩ := bridge_memory hpart hbridge h.again
  obtain ⟨hfirst, hsecond, hcopied⟩ := hsame.copied h htrace hpart hbridge hheld
  obtain ⟨source, target, hsource, htarget, htype, htype'⟩ :=
    bridge_ports hwired hpart hbridge forward
  have hthen := pin_copy hwired hpart hbridge (sound_after hwired h.sound left) hfirst ref.port
  have hthen' := pin_copy hwired hpart hbridge (sound_after hwired h.again left) hsecond ref.port
  have hagain := pin_copy hwired hpart hbridge h.again hheld ref.port
  rw [after_snoc, after_snoc]
  by_cases hside : ref.port = (Device.bridgeSides forward).2
  · rw [if_pos hside] at hthen hthen' hagain
    obtain rfl : port = target := by
      rw [← hside] at htarget
      exact Option.some.inj (hport.symm.trans htarget)
    have hboth : port.type.bidirectional = true := by rw [htype']; rfl
    obtain ⟨henabled, hvalue⟩ :=
      pending_of_recopied h htrace hbegins hport hpart hbridge hboth hagain
    have hsplit : netlist.trace first = (left ++ [.phase ref.part 1]) ++ right := by
      rw [htrace, List.append_assoc, List.singleton_append]
    have hturn := turn_final hwired h.sound hsplit hport hpart
      (by rw [hbridge]; exact List.mem_append_right _ (List.mem_singleton_self _))
    rw [after_snoc] at hturn
    have hturned := (Prod.mk.inj hturn).1
    rw [← h.agrees.enabled, henabled] at hturned
    refine Or.inr ⟨_, _, ?_, hthen, hthen', fun word hword => ?_⟩
    · rw [hcopied, ← hturned]
      refine (congrArg Pin.enabled hthen).trans ?_
      cases ((netlist.after first left).part ref.part).copied <;> rfl
    · rw [hcopied] at hword
      exact (hvalue word hword).imp_right fun hpending => ⟨hboth, hpending⟩
  · rw [if_neg hside] at hthen hthen'
    by_cases hside' : ref.port = (Device.bridgeSides forward).1
    · rw [if_pos hside'] at hthen hthen'
      exact Or.inr ⟨_, _, rfl, hthen, hthen', nofun⟩
    · rw [if_neg hside'] at hthen hthen'
      exact Or.inl ⟨hthen, hthen'⟩

theorem step_copy (hsame : netlist.Retraced first second left)
    (h : netlist.Repeats first second)
    (htrace : netlist.trace first = left ++ .phase part 1 :: right)
    (hbegins : left <+: netlist.trace second) (hpart : netlist.parts[part]? = some placed)
    (hbridge : placed.device = .bridge) :
    netlist.Retraced first second (left ++ [.phase part 1]) := by
  have hwired := h.flat.wired
  obtain ⟨enabled, forward, hheld⟩ := bridge_memory hpart hbridge h.again
  obtain ⟨hfirst, hsecond, -⟩ := hsame.copied h htrace hpart hbridge hheld
  refine hsame.phase_step h hpart (copy_ordinary hwired hpart hbridge) (fun hport hself => ?_)
    (fun hport hself => ?_) (fun hport hself => ?_) ?_ ?_
  · subst hself
    rcases hsame.pins_copy h htrace hbegins hport hpart hbridge with
      ⟨hone, htwo⟩ | ⟨value, value', hsome, hone, htwo, -⟩
    · rw [hone, htwo]
      exact hsame.enabled hport
    · rw [hone, htwo]
      cases value <;> cases value' <;> first | rfl | cases hsome
  · subst hself
    rcases hsame.pins_copy h htrace hbegins hport hpart hbridge with
      ⟨hone, htwo⟩ | ⟨value, value', hsome, hone, htwo, -⟩
    · rw [hone, htwo]
      exact hsame.facing hport
    · rw [hone, htwo]
      refine Or.inl ?_
      cases value <;> cases value' <;> first | rfl | cases hsome
  · subst hself
    rcases hsame.pins_copy h htrace hbegins hport hpart hbridge with
      ⟨hone, htwo⟩ | ⟨value, value', hsome, hone, htwo, hvalue⟩
    · rw [hone, htwo]
      exact hsame.value hport
    · rw [hone, htwo]
      cases value' with
      | some word => exact Or.inr (hvalue word rfl)
      | none =>
        cases value with
        | some word => cases hsome
        | none => exact hsame.value hport
  · rw [State.effect_eq hpart, State.effect_eq hpart, hbridge, Device.effect_copy _ hfirst,
      Device.effect_copy _ hsecond]
    rfl
  · rw [State.effect_eq hpart, hbridge, Device.effect_copy _ hsecond]
    simp

/-! ## The run -/

theorem step (hsame : netlist.Retraced first second left) (h : netlist.Repeats first second)
    (htrace : netlist.trace first = left ++ task :: right)
    (hbegins : left <+: netlist.trace second) : netlist.Retraced first second (left ++ [task]) := by
  have hmem : task ∈ netlist.trace first := by
    rw [htrace]
    exact List.mem_append_right _ (List.mem_cons_self ..)
  cases task with
  | net index =>
    have hlt := mem_tasks_net.mp (mem_trace.mp hmem)
    exact hsame.net_step h htrace (List.getElem?_eq_getElem hlt)
  | phase part position =>
    obtain ⟨phase, hphase⟩ := ordinary_of_mem_trace hmem
    obtain ⟨placed, hpart, -⟩ := part_of_phase hphase
    by_cases hcopy : placed.device = .bridge ∧ position = 1
    · obtain ⟨hbridge, rfl⟩ := hcopy
      exact hsame.step_copy h htrace hbegins hpart hbridge
    · exact hsame.step_waiting h htrace hpart fun hbridge hone => hcopy ⟨hbridge, hone⟩

/-- Every point that both settles come to is retraced. -/
theorem of_prefix (h : netlist.Repeats first second) (htrace : netlist.trace first = left ++ right)
    (hbegins : left <+: netlist.trace second) : netlist.Retraced first second left := by
  induction left using List.reverseRecOn generalizing right with
  | nil => exact start h
  | append_singleton left task ih =>
    rw [List.append_assoc, List.singleton_append] at htrace
    have hearlier := (List.prefix_append left [task]).trans hbegins
    exact (ih htrace hearlier).step h htrace hearlier

end Retraced

/-- The second settle runs the tasks of the first in the same order. -/
theorem Repeats.trace_eq (h : netlist.Repeats first second) :
    netlist.trace second = netlist.trace first :=
  trace_congr fun htrace hbegins =>
    ((Retraced.of_prefix h htrace hbegins).step h htrace hbegins).agree h htrace

/-- A settle leaves a stable state alone. -/
theorem matches_of_stable (h : netlist.Repeats first second) :
    (netlist.final second).Matches second := by
  have hwired := h.flat.wired
  have hall : netlist.trace first = netlist.trace first ++ [] := (List.append_nil _).symm
  have hsame := Retraced.of_prefix h hall ⟨[], by rw [List.append_nil, h.trace_eq]⟩
  have hfirst : netlist.after first (netlist.trace first) = netlist.final first :=
    (final_eq netlist first).symm
  have hsecond : netlist.after second (netlist.trace first) = netlist.final second := by
    rw [← h.trace_eq, ← final_eq]
  have hsound := sound_final hwired h.again
  rw [← hsecond] at hsound ⊢
  refine ⟨?_, hsame.status, fun part => ?_, fun ref => ?_⟩
  · refine List.ext_getElem (hsound.nets.trans h.again.nets.symm) fun index hlt hlt' => ?_
    have hnet := hsame.net index
    rw [State.net, State.net, List.getD_eq_getElem?_getD, List.getD_eq_getElem?_getD,
      List.getElem?_eq_getElem hlt, List.getElem?_eq_getElem hlt'] at hnet
    exact hnet
  · rcases hsame.memory part with hmemory | hmemory
    · rw [hmemory, hfirst, h.agrees.memory]
    · exact hmemory
  · cases hport : netlist.port? ref with
    | none => rw [State.pin_eq_default hsound hport, State.pin_eq_default h.again hport]
    | some port =>
      refine Pin.unmarked_eq_iff.mpr ⟨?_, ?_, ?_, ?_⟩
      · rcases hsame.value hport with hvalue | hvalue | ⟨-, index, net, hnet, -, hleft, -⟩
        · rw [hvalue, hfirst, h.agrees.value]
        · exact hvalue
        · exact absurd (mem_trace.mpr (mem_tasks_net.mpr (List.getElem?_eq_some_iff.mp hnet).1)) hleft
      · rw [hsame.enabled hport, hfirst, h.agrees.enabled]
      · rcases hsame.facing hport with hfacing | hfacing
        · rw [hfacing, hfirst, h.agrees.facing]
        · exact hfacing
      · rcases hsame.resolved hport with hresolved | hresolved
        · rw [hresolved, hfirst, h.agrees.resolved]
        · exact hresolved

end Netlist

end Breadboard
