import Breadboard.Proofs.Looks

/-!
# States that a settle leaves alone

Two kinds of pin can carry something from one settle over to the next. A bridge
copies one of its sides when any one of them is there, so it may find there what
the settle before has left. And a net does not wait for a driver that depends on
it, so it may count an ordinary output before that is set. A state is stable if
neither makes a difference in it (`Netlist.Stable`), and every state that the next
settle leaves alone is (`stable_of_matches`).
-/

namespace Breadboard

namespace Netlist

/-- Driving the pin as the bridge would drive it now leaves it as it is. It may
show less if its net, resolved behind the copy phase, has cut the value down. -/
def Recopied (netlist : Netlist) (state : State) (ref : PortRef) : Prop :=
  let again := (state.runPhase netlist ref.part 1).pin ref
  again = state.pin ref ∨
    ∃ index net, netlist.nets[index]? = some net ∧ ref ∈ net.sources ∧
      (state.net index).enabledCount = 1 ∧ netlist.drivenBefore state index ref = true ∧
      again.hear (some (trim net.width again.value)) = state.pin ref

structure Stable (netlist : Netlist) (state : State) : Prop where
  /-- Every bridge would copy what it has copied. -/
  bridge : ∀ {ref : PortRef} {placed : Part}, netlist.parts[ref.part]? = some placed →
    placed.device = .bridge → netlist.Recopied state ref
  /-- A net that counts one driver shows what its ordinary sources show. -/
  plain : ∀ {index : Nat} {net : Net} {source : PortRef} {port : Port},
    netlist.nets[index]? = some net → (state.net index).enabledCount = 1 →
    source ∈ net.sources → netlist.port? source = some port → port.type.tristate = false →
    (state.net index).value = trim net.width (state.pin source).value

variable {netlist : Netlist} {state : State} {ref : PortRef} {port : Port} {placed : Part}
  {index part position : Nat} {net : Net} {left right : List Task}

/-! ## What a bridge copies -/

/-- The nets that list a side of a bridge are one. -/
theorem side_unshared (hflat : netlist.Flat) (hport : netlist.port? ref = some port)
    (htype : port.type = .dataBus) {first second : Nat}
    (hfirst : ref ∈ (netlist.nets.getD first default).targets)
    (hsecond : ref ∈ (netlist.nets.getD second default).targets) : first = second :=
  hflat.eq_of_bidirectional hport (by rw [htype]; rfl)
    (input_of_mem_targets hflat.wired hport hfirst).2
    (input_of_mem_targets hflat.wired hport hsecond).2

/-- In a settle that leaves the state alone a bridge copies what it would copy when
the settle is over. -/
theorem copied_of_matches (hflat : netlist.Flat) (h : State.Sound netlist state)
    (hmatches : (netlist.final state).Matches state)
    (hpart : netlist.parts[part]? = some placed) (hbridge : placed.device = .bridge)
    (htrace : netlist.trace state = left ++ .phase part 1 :: right) :
    ((netlist.after state left).part part).memory = (state.part part).memory ∧
      ((netlist.after state left).part part).copied = (state.part part).copied := by
  have hwired := hflat.wired
  have hmemory := memory_from_last hwired h hpart (by rw [hbridge]; exact htrace)
    (by rw [hbridge]; exact nofun)
  rw [hmatches.memory] at hmemory
  obtain ⟨enabled, forward, hheld⟩ := bridge_memory hpart hbridge h
  obtain ⟨source, -, hsource, -, htype, -⟩ := bridge_ports hwired hpart hbridge forward
  have hlook : (netlist.after state left).look ⟨part, (Device.bridgeSides forward).1⟩ =
      state.look ⟨part, (Device.bridgeSides forward).1⟩ := by
    by_cases hleft : ∃ index, .net index ∈ left ∧
        ⟨part, (Device.bridgeSides forward).1⟩ ∈ (netlist.nets.getD index default).targets
    · obtain ⟨index, hindex, htarget⟩ := hleft
      rw [look_source hwired h hpart hbridge htrace (hmemory.trans hheld), State.look,
        hmatches.value, hmatches.resolved, State.look]
      intro other hother htarget'
      obtain rfl := side_unshared hflat hsource htype htarget htarget'
      exact not_mem_right htrace hindex (List.mem_cons_of_mem _ hother)
    · refine look_early hwired h (fun part position htask => ?_) hsource hpart ?_
        fun index hindex htarget => hleft ⟨index, hindex, htarget⟩
      · exact ordinary_of_mem_left htrace htask
      · rw [hbridge]
        exact (not_mem_split htrace).1
  obtain ⟨hvalue, hresolved⟩ := Prod.mk.inj hlook
  exact ⟨hmemory, PartState.copied_congr (hmemory.trans hheld) hheld hvalue hresolved⟩

/-! ## Drivers -/

/-- A net lists a port that faces both ways on both sides. -/
theorem both_of_lists (hflat : netlist.Flat) (hport : netlist.port? ref = some port)
    (hboth : port.type.bidirectional = true) (hnet : netlist.nets[index]? = some net)
    (hlists : netlist.Lists index ref) : ref ∈ net.sources ∧ ref ∈ net.targets := by
  have hwired := hflat.wired
  obtain ⟨hinput, houtput⟩ := Bool.and_eq_true_iff.mp hboth
  obtain ⟨found, hfound, href⟩ := id hlists
  obtain ⟨other, hattached⟩ := hwired.attached hfound href
  obtain rfl := Option.some.inj (hattached.found.symm.trans hport)
  obtain ⟨known, hknown⟩ := Option.isSome_iff_exists.mp hattached.bound
  obtain rfl := hflat.eq_of_bidirectional hport hboth hlists (hwired.lists_of_bound hport hknown)
  obtain ⟨net', hnet', htarget, -, hsource⟩ := hwired.known hport hknown
  obtain rfl := Option.some.inj (hnet'.symm.trans hnet)
  exact ⟨hsource houtput fun part hpart => valid_of_bidirectional hwired hport hpart hboth,
    htarget hinput⟩

/-- An ordinary output is not an input. -/
theorem not_target_of_plain (hwired : netlist.Wired) (hport : netlist.port? ref = some port)
    (houtput : port.type.output = true) (hplain : port.type.tristate = false) :
    ref ∉ (netlist.nets.getD index default).targets := by
  intro htarget
  obtain ⟨hinput, -⟩ := input_of_mem_targets hwired hport htarget
  have htristate := tristate_of_bidirectional hwired hport (by simp [PortType.bidirectional, *])
  rw [hplain] at htristate
  cases htristate

theorem plain_of_matches (hflat : netlist.Flat) (h : State.Sound netlist state)
    (hmatches : (netlist.final state).Matches state)
    (hnet : netlist.nets[index]? = some net) (hone : (state.net index).enabledCount = 1)
    (href : ref ∈ net.sources) (hport : netlist.port? ref = some port)
    (hplain : port.type.tristate = false) :
    (state.net index).value = trim net.width (state.pin ref).value := by
  have hwired := hflat.wired
  obtain ⟨left, right, htrace⟩ := exists_split hnet state
  obtain ⟨found, hattached, houtput⟩ := hwired.source hnet href
  obtain rfl := Option.some.inj (hattached.found.symm.trans hport)
  obtain ⟨placed, hpart, -⟩ := part_of_port hport
  have hfinal := net_final hwired h htrace (List.getElem?_eq_some_iff.mp hnet).1
  rw [hmatches.net] at hfinal
  have hcount : ((netlist.after state left).verdict netlist index).2 = 1 := by
    rw [hfinal] at hone
    exact hone
  have hvalue : ((netlist.after state left).pin ref).value = (state.pin ref).value := by
    by_cases hlast : .phase ref.part placed.device.last ∈ left
    · rw [pin_final hwired h htrace hport hpart hlast
        fun _ _ => not_target_of_plain hwired hport houtput hplain, hmatches.value]
    · refine congrArg Prod.fst (look_early hwired h (fun part position htask => ?_) hport hpart hlast
        fun _ _ => not_target_of_plain hwired hport houtput hplain)
      exact ordinary_of_mem_left htrace htask
  rw [hfinal, verdict_of_one hnet href (fun _ => ?_) hcount, hvalue]
  · rfl
  · rw [isDriving_eq hport]
    exact drives_plain hwired h htrace hport houtput hplain

/-! ## Bridges -/

theorem drive_eq_self {pin : Pin} {value : Option Word} (henabled : pin.enabled = value.isSome)
    (hfacing : pin.facing = if value.isSome then .outward else .inward)
    (hvalue : ∀ word, value = some word → pin.value = word) : pin.drive true value = pin := by
  obtain ⟨_, _, _, used, resolved⟩ := pin
  dsimp only at henabled hfacing hvalue
  subst henabled hfacing
  cases value with
  | none => rfl
  | some word =>
    obtain rfl := hvalue word rfl
    rfl

/-- A bridge side that shows something else than it is driven with was cut down by a net
behind the copy phase, which counts it alone. -/
theorem recopied_of_cut (hflat : netlist.Flat) (h : State.Sound netlist state)
    (hmatches : (netlist.final state).Matches state)
    (hport : netlist.port? ref = some port) (hpart : netlist.parts[ref.part]? = some placed)
    (hbridge : placed.device = .bridge) (hboth : port.type.bidirectional = true)
    (htrace : netlist.trace state = (left ++ .phase ref.part 1 :: middle) ++ .net index :: right)
    (htarget : ref ∈ (netlist.nets.getD index default).targets) {word : Word}
    (hthen : ((netlist.after state left).perform netlist (.phase ref.part 1)).pin ref =
      ((netlist.after state left).pin ref).drive true (some word))
    (hagain : (state.runPhase netlist ref.part 1).pin ref = (state.pin ref).drive true (some word))
    (henabled : (state.pin ref).enabled = true) (hfacing : (state.pin ref).facing = .outward)
    (hne : (state.pin ref).value ≠ word) : netlist.Recopied state ref := by
  have hwired := hflat.wired
  have hlists := (input_of_mem_targets hwired hport htarget).2
  obtain ⟨net, hnet, -⟩ := id hlists
  obtain ⟨hsource, -⟩ := both_of_lists hflat hport hboth hnet hlists
  obtain ⟨found, hattached, houtput⟩ := hwired.source hnet hsource
  obtain rfl := Option.some.inj (hattached.found.symm.trans hport)
  have htristate := hattached.tristate (tristate_of_bidirectional hwired hport hboth)
  have honly : ∀ other, ref ∈ (netlist.nets.getD other default).targets → other = index :=
    fun other hother => hflat.eq_of_bidirectional hport hboth
      (input_of_mem_targets hwired hport hother).2 hlists
  have hlast : Task.phase ref.part placed.device.last ∈ left ++ .phase ref.part 1 :: middle := by
    rw [hbridge]
    exact List.mem_append_right _ (List.mem_cons_self ..)
  have hbefore : (netlist.after state (left ++ .phase ref.part 1 :: middle)).pin ref =
      ((netlist.after state left).pin ref).drive true (some word) := by
    have hstays := pin_at_net hwired h hport hpart (by rw [hbridge]; exact htrace) honly
    rw [hbridge] at hstays
    exact hstays.trans hthen
  have hfinal := pin_through hwired h htrace hport hpart hlast honly
  rw [if_pos htarget, hbefore] at hfinal
  have hdriving : Net.isDriving netlist
      (netlist.after state (left ++ .phase ref.part 1 :: middle)) ref = true := by
    rw [isDriving_eq hport, hbefore]
    simp [Pin.drives, Pin.drive, houtput]
  cases hverdict : ((netlist.after state (left ++ .phase ref.part 1 :: middle)).verdict netlist
      index).1 with
  | none =>
    refine absurd ?_ hne
    rw [← hmatches.value, hfinal, hverdict]
    rfl
  | some other =>
    have hone := verdict_tristate_one hnet htristate hverdict
    have hother := verdict_of_one hnet hsource (fun _ => hdriving) hone
    rw [hverdict, hbefore] at hother
    obtain rfl := Option.some.inj hother
    rw [hverdict] at hfinal
    have hvalue := congrArg Pin.value hfinal
    have hresolved := congrArg Pin.resolved hfinal
    rw [hmatches.value] at hvalue
    rw [hmatches.resolved] at hresolved
    refine Or.inr ⟨index, net, hnet, hsource, ?_, ?_, ?_⟩
    · rw [← hmatches.net, net_final hwired h htrace (List.getElem?_eq_some_iff.mp hnet).1]
      exact hone
    · rw [drivenBefore_eq hwired htrace hport hpart houtput, decide_eq_true_eq]
      exact hlast
    · rw [hagain]
      generalize state.pin ref = pin at henabled hfacing hvalue hresolved
      obtain ⟨_, _, _, used, _⟩ := pin
      dsimp only at henabled hfacing hvalue hresolved
      subst henabled hfacing hvalue hresolved
      rfl

/-- A side that a bridge drives shows what it is driven with, unless a net behind
the copy phase counts it alone. -/
theorem recopied_of_driven (hflat : netlist.Flat) (h : State.Sound netlist state)
    (hmatches : (netlist.final state).Matches state)
    (hport : netlist.port? ref = some port) (hpart : netlist.parts[ref.part]? = some placed)
    (hbridge : placed.device = .bridge) (hboth : port.type.bidirectional = true)
    (htrace : netlist.trace state = left ++ .phase ref.part 1 :: right) {value : Option Word}
    (hthen : ((netlist.after state left).perform netlist (.phase ref.part 1)).pin ref =
      ((netlist.after state left).pin ref).drive true value)
    (hagain : (state.runPhase netlist ref.part 1).pin ref = (state.pin ref).drive true value) :
    netlist.Recopied state ref := by
  have hwired := hflat.wired
  have hsplit : netlist.trace state = (left ++ [.phase ref.part 1]) ++ right := by
    rw [htrace, List.append_assoc, List.singleton_append]
  have hlast : Task.phase ref.part placed.device.last ∈ left ++ [.phase ref.part 1] := by
    rw [hbridge]
    exact List.mem_append_right _ (List.mem_singleton_self _)
  have hturn := turn_final hwired h hsplit hport hpart hlast
  rw [after_snoc, State.turn, hthen, State.turn, hmatches.enabled, hmatches.facing] at hturn
  obtain ⟨henabled, hfacing⟩ := Prod.mk.inj hturn
  have henabled : (state.pin ref).enabled = value.isSome := by
    rw [← henabled]
    cases value <;> rfl
  have hfacing : (state.pin ref).facing = if value.isSome then .outward else .inward := by
    rw [← hfacing]
    cases value <;> rfl
  by_cases hshown : ∀ word, value = some word → (state.pin ref).value = word
  · exact Or.inl (hagain.trans (drive_eq_self henabled hfacing hshown))
  obtain ⟨word, rfl, hne⟩ : ∃ word, value = some word ∧ (state.pin ref).value ≠ word := by
    simpa using hshown
  by_cases hnets : ∃ index, .net index ∈ right ∧ ref ∈ (netlist.nets.getD index default).targets
  · obtain ⟨index, hindex, htarget⟩ := hnets
    obtain ⟨middle, rest, rfl⟩ := List.append_of_mem hindex
    exact recopied_of_cut hflat h hmatches hport hpart hbridge hboth
      (by rw [htrace, List.append_assoc, List.cons_append]) htarget hthen hagain henabled hfacing hne
  · have hkept := pin_final hwired h hsplit hport hpart hlast
      fun index hindex htarget => hnets ⟨index, hindex, htarget⟩
    rw [after_snoc, hthen] at hkept
    refine absurd ?_ hne
    rw [← hmatches.value, ← hkept]
    rfl

theorem bridge_of_matches (hflat : netlist.Flat) (h : State.Sound netlist state)
    (hmatches : (netlist.final state).Matches state)
    (hpart : netlist.parts[ref.part]? = some placed) (hbridge : placed.device = .bridge) :
    netlist.Recopied state ref := by
  have hwired := hflat.wired
  cases hport : netlist.port? ref with
  | none =>
    exact Or.inl ((State.pin_eq_default (h.runPhase hwired.native) hport).trans
      (State.pin_eq_default h hport).symm)
  | some port =>
    obtain ⟨left, right, htrace⟩ :=
      exists_split_phase (copy_ordinary hwired hpart hbridge) state
    obtain ⟨hmemory, hcopied⟩ := copied_of_matches hflat h hmatches hpart hbridge htrace
    obtain ⟨enabled, forward, hheld⟩ := bridge_memory hpart hbridge h
    obtain ⟨source, target, hsource, htarget, htype, htype'⟩ :=
      bridge_ports hwired hpart hbridge forward
    have hthen := pin_copy hwired hpart hbridge (sound_after hwired h left) (hmemory.trans hheld)
      ref.port
    have hagain := pin_copy hwired hpart hbridge h hheld ref.port
    rw [hcopied] at hthen
    split at hthen
    · next hside =>
      rw [if_pos hside] at hagain
      obtain rfl : port = target := by
        rw [← hside] at htarget
        exact Option.some.inj (hport.symm.trans htarget)
      exact recopied_of_driven hflat h hmatches hport hpart hbridge (by rw [htype']; rfl) htrace
        hthen hagain
    · next hside =>
      rw [if_neg hside] at hagain
      split at hthen
      · next hside' =>
        rw [if_pos hside'] at hagain
        obtain rfl : port = source := by
          rw [← hside'] at hsource
          exact Option.some.inj (hport.symm.trans hsource)
        exact recopied_of_driven hflat h hmatches hport hpart hbridge (by rw [htype]; rfl)
          htrace hthen hagain
      · next hside' =>
        rw [if_neg hside'] at hagain
        exact Or.inl hagain

/-- A state that the next settle leaves alone is stable. -/
theorem stable_of_matches (hflat : netlist.Flat) (h : State.Sound netlist state)
    (hmatches : (netlist.final state).Matches state) :
    netlist.Stable state :=
  ⟨fun hpart hbridge => bridge_of_matches hflat h hmatches hpart hbridge,
    fun hnet hone href hport hplain =>
      plain_of_matches hflat h hmatches hnet hone href hport hplain⟩

end Netlist

end Breadboard
