import Breadboard.Proofs.Drivers
import Breadboard.Proofs.Static

/-!
# What a phase sees when it runs

A phase runs behind the nets that it reads (`net_mem_left`), unless it also
drives one of them. So what it does depends on what these nets decided and on
what its part remembers (`Part.Regular.effect_congr`), and the latter is the same
when the settle is over (`recalled_final`).

The copy phase of a bridge is the exception. It runs when any one of its sides
is there, and copies the source side as it finds it (`PartState.copied`).
-/

namespace Breadboard

/-! ## Effects -/

namespace Part

variable {part : Part} {position : Nat} {phase : Phase} {first second : PartState}

theorem Regular.anyOf_eq_nil (h : part.Regular) (hphase : part.phases[position]? = some phase)
    (hcopy : part.device = .bridge → position ≠ 1) : phase.anyOf = [] := by
  by_cases hbridge : part.device = .bridge
  · rw [(h.bridge hbridge).1] at hphase
    rcases position with _ | _ | position
    · obtain rfl := Option.some.inj hphase
      rfl
    · exact absurd rfl (hcopy hbridge)
    · cases hphase
  · exact h.anyOf hphase hbridge

/-- A phase that waits for what it reads does the same in two states in which it
sees the same. -/
theorem Regular.effect_congr (h : part.Regular) (hphase : part.phases[position]? = some phase)
    (hcopy : part.device = .bridge → position ≠ 1)
    (hmemory : part.device.recalled position first.memory =
      part.device.recalled position second.memory)
    (hresolved : ∀ index ∈ phase.reads, (first.pin index).resolved = (second.pin index).resolved)
    (hvalue : ∀ index ∈ phase.reads,
      (part.device.wary = true → (second.pin index).resolved = true) →
        (first.pin index).value = (second.pin index).value) :
    part.device.effect part.ports position first = part.device.effect part.ports position second := by
  have hlooked : part.device.looked first.memory phase = phase.reads := by
    have hanyOf := h.anyOf_eq_nil hphase hcopy
    unfold Device.looked
    split <;> simp [hanyOf]
  refine h.alike hphase ⟨hmemory, ?_, ?_⟩
  · rw [hlooked]
    exact hvalue
  · rw [hlooked]
    exact hresolved

end Part

/-- What the copy phase of a bridge drives its target side with. -/
def PartState.copied (held : PartState) : Option Word :=
  match held.memory with
  | .bridge enabled forward =>
    let shown := held.pin (Device.bridgeSides forward).1
    if enabled && shown.resolved then some shown.value else none
  | _ => none

theorem PartState.copied_eq {held : PartState} {enabled forward : Bool}
    (h : held.memory = .bridge enabled forward) :
    held.copied = if enabled && (held.pin (Device.bridgeSides forward).1).resolved then
      some (held.pin (Device.bridgeSides forward).1).value else none := by
  unfold copied
  rw [h]

/-- What a bridge copies depends on what it remembers and on its source side. -/
theorem PartState.copied_congr {first second : PartState} {enabled forward : Bool}
    (hfirst : first.memory = .bridge enabled forward)
    (hsecond : second.memory = .bridge enabled forward)
    (hvalue : (first.pin (Device.bridgeSides forward).1).value =
      (second.pin (Device.bridgeSides forward).1).value)
    (hresolved : (first.pin (Device.bridgeSides forward).1).resolved =
      (second.pin (Device.bridgeSides forward).1).resolved) : first.copied = second.copied := by
  rw [copied_eq hfirst, copied_eq hsecond, hvalue, hresolved]

theorem Device.effect_copy {held : PartState} {enabled forward : Bool} (ports : List Port)
    (h : held.memory = .bridge enabled forward) :
    Device.bridge.effect ports 1 held =
      ((Effect.idle (.bridge enabled forward)).put (bridgeSides forward).1 (.drive true none)).put
        (bridgeSides forward).2 (.drive true held.copied) := by
  obtain ⟨pins, memory⟩ := held
  obtain rfl : memory = .bridge enabled forward := h
  rfl

/-- A bridge tells its target side what it finds on its source side, and tells nothing else. -/
theorem Device.told_bridge {held : PartState} {ports : List Port} {position index : Nat}
    {word : Word}
    (htold : ((Device.bridge.effect ports position held).edit index).told = some word) :
    ∃ forward, index = (bridgeSides forward).2 ∧
      (held.pin (bridgeSides forward).1).value = word := by
  obtain ⟨pins, memory⟩ := held
  cases memory with
  | bridge enabled forward =>
    refine ⟨forward, ?_⟩
    simp only [Device.effect] at htold
    split at htold
    · simp only [Effect.edit_put] at htold
      split at htold
      · cases htold
      · split at htold <;> cases htold
    · simp only [Effect.edit_put] at htold
      split at htold
      · next hindex =>
        exact ⟨hindex, Option.some.inj (Option.ite_none_right_eq_some.mp htold).2⟩
      · split at htold <;> cases htold
  | _ => cases htold

namespace Netlist

variable {netlist : Netlist} {state : State} {ref : PortRef} {found : Port} {placed : Part}
  {phase : Phase} {part position port index : Nat} {left right : List Task}

/-! ## Reads -/

theorem net_mem_left (hwired : netlist.Wired) (hloops : (compile netlist).diagnostics = [])
    (huncrossed : netlist.Uncrossed)
    (htrace : netlist.trace state = left ++ .phase part position :: right)
    (hphase : netlist.Ordinary part position phase) (hread : port ∈ phase.reads)
    (hanyOf : phase.anyOf = []) (hport : netlist.port? ⟨part, port⟩ = some found)
    (hbound : found.net = some index) : .net index ∈ left := by
  obtain ⟨placed, hpart, hplace⟩ := part_of_port hport
  obtain ⟨owner, howner, hfound⟩ := part_of_phase hphase
  obtain rfl := Option.some.inj (howner.symm.trans hpart)
  obtain ⟨hinput, -⟩ := (hwired.regularAt hpart).reads hfound hphase.2 hread hplace
  have hreads : ∀ mode, (mode = if netlist.drivesFrom part position index then ReadMode.crossing
      else .waiting) → netlist.Reads part position port index mode := by
    rintro mode rfl
    refine ⟨phase, hphase, List.mem_append_left _ hread, hwired.readNet hport hinput hbound, ?_⟩
    rw [hanyOf, if_neg List.not_mem_nil]
  have hdrives : netlist.drivesFrom part position index = false := by
    rw [← Bool.not_eq_true]
    intro hdrives
    exact huncrossed part position port index (hreads .crossing (by rw [if_pos hdrives]))
  have hbefore := before_of_precedes state hloops
    (precedes_of_read (hreads .waiting (by rw [hdrives]; rfl)))
  exact (before_iff_mem_left htrace).mp hbefore

/-! ## Memories -/

theorem ordinary_of_split (htrace : netlist.trace state = left ++ .phase part position :: right) :
    ∃ phase, netlist.Ordinary part position phase :=
  ordinary_of_mem_right htrace (List.mem_cons_self ..)

/-- From the last phase of its part on, a memory other than that of a probe is
kept. -/
theorem memory_from_last (hwired : netlist.Wired) (h : State.Sound netlist state)
    (hpart : netlist.parts[part]? = some placed)
    (htrace : netlist.trace state = left ++ .phase part placed.device.last :: right)
    (hprobe : placed.device ≠ .probe) :
    ((netlist.after state left).part part).memory = ((netlist.final state).part part).memory := by
  have hsplit : netlist.trace state = (left ++ [.phase part placed.device.last]) ++ right := by
    rw [htrace, List.append_assoc, List.singleton_append]
  refine after_eq_final (fun state => (state.part part).memory) hwired h htrace
    fun task htask state' hstate => memory_frame hwired hstate hpart
      (fun position heq => ordinary_of_mem_right htrace (heq ▸ htask)) hprobe ?_
  rintro hbridge rfl
  rcases List.mem_cons.mp htask with heq | htask
  · obtain ⟨-, hzero⟩ := Task.phase.inj heq
    rw [hbridge] at hzero
    cases hzero
  · exact not_mem_behind hwired hsplit hpart
      (List.mem_append_right _ (List.mem_singleton_self _)) 0 htask

/-- What a phase needs of the memory of its part is there in the end as well. -/
theorem recalled_final (hwired : netlist.Wired) (h : State.Sound netlist state)
    (hpart : netlist.parts[part]? = some placed)
    (htrace : netlist.trace state = left ++ .phase part position :: right) :
    placed.device.recalled position ((netlist.after state left).part part).memory =
      placed.device.recalled position ((netlist.final state).part part).memory := by
  by_cases hprobe : placed.device = .probe
  · rw [hprobe, Device.recalled, Device.recalled]
  obtain ⟨phase, hphase⟩ := ordinary_of_split htrace
  rcases last_or_bridge hwired hpart hphase with rfl | ⟨hbridge, rfl⟩
  · rw [memory_from_last hwired h hpart htrace hprobe]
  · have hbefore := (sound_after hwired h left).fits hpart
    have hafter := (sound_after hwired h (netlist.trace state)).fits hpart
    rw [← final_eq] at hafter
    rw [hbridge] at hbefore hafter ⊢
    generalize ((netlist.after state left).part part).memory = first at hbefore ⊢
    generalize ((netlist.final state).part part).memory = second at hafter ⊢
    cases first <;> first | exact hbefore.elim | skip
    cases second <;> first | exact hafter.elim | rfl

/-! ## Looks -/

theorem not_lists_of_unbound (hwired : netlist.Wired) (hport : netlist.port? ref = some found)
    (hunbound : found.net = none) : ¬ netlist.Lists index ref := by
  rintro ⟨net, hnet, href⟩
  obtain ⟨other, hattached⟩ := hwired.attached hnet href
  obtain rfl := Option.some.inj (hattached.found.symm.trans hport)
  have hbound := hattached.bound
  rw [Port.bound, hunbound] at hbound
  cases hbound

/-- A phase sees a port that one net lists as it is when the settle is over. -/
theorem look_read (hwired : netlist.Wired) (hloops : (compile netlist).diagnostics = [])
    (huncrossed : netlist.Uncrossed) (h : State.Sound netlist state)
    (htrace : netlist.trace state = left ++ .phase part position :: right)
    (hphase : netlist.Ordinary part position phase) (hread : port ∈ phase.reads)
    (hanyOf : phase.anyOf = [])
    (hone : ∀ first second, netlist.Lists first ⟨part, port⟩ → netlist.Lists second ⟨part, port⟩ →
      first = second) :
    (netlist.after state left).look ⟨part, port⟩ = (netlist.final state).look ⟨part, port⟩ := by
  cases hport : netlist.port? ⟨part, port⟩ with
  | none =>
    rw [State.look, State.look, State.pin_eq_default (sound_after hwired h left) hport,
      State.pin_eq_default (sound_final hwired h) hport]
  | some found =>
    obtain ⟨placed, hpart, hplace⟩ := part_of_port hport
    obtain ⟨owner, howner, hfound⟩ := part_of_phase hphase
    obtain rfl := Option.some.inj (howner.symm.trans hpart)
    obtain ⟨-, houtput⟩ := (hwired.regularAt hpart).reads hfound hphase.2 hread hplace
    refine look_final hwired h htrace hport houtput fun index hindex htarget => ?_
    obtain ⟨-, hlists⟩ := input_of_mem_targets hwired hport htarget
    cases hbound : found.net with
    | none => exact not_lists_of_unbound hwired hport hbound hlists
    | some net =>
      have hleft := net_mem_left hwired hloops huncrossed htrace hphase hread hanyOf hport hbound
      rw [hone index net hlists (hwired.lists_of_bound hport hbound)] at hindex
      exact not_mem_right htrace hleft hindex

/-! ## Bridges -/

theorem bridge_memory (hpart : netlist.parts[part]? = some placed)
    (hbridge : placed.device = .bridge) (h : State.Sound netlist state) :
    ∃ enabled forward, (state.part part).memory = .bridge enabled forward := by
  have hfits := h.fits hpart
  rw [hbridge] at hfits
  cases hmemory : (state.part part).memory with
  | bridge enabled forward => exact ⟨enabled, forward, rfl⟩
  | _ =>
    rw [hmemory] at hfits
    exact hfits.elim

theorem sides_ne (forward : Bool) :
    (Device.bridgeSides forward).1 ≠ (Device.bridgeSides forward).2 := by
  cases forward <;> decide

/-- What the first phase of a bridge does, in terms of what it remembers from then
on. -/
theorem effect_turn {held : PartState} (ports : List Port) {enabled forward : Bool}
    (h : held.memory = .bridge enabled forward) :
    ∃ enabled forward, Device.bridge.effect ports 0 held =
      ((Effect.idle (.bridge enabled forward)).put (Device.bridgeSides forward).1
        (.face .inward)).put (Device.bridgeSides forward).2
          (.face (if enabled then .outward else .inward)) := by
  obtain ⟨pins, memory⟩ := held
  obtain rfl : memory = .bridge enabled forward := h
  refine ⟨decide ((PartState.pin ⟨pins, .bridge enabled forward⟩ 0).value ≠ 0),
    decide ((PartState.pin ⟨pins, .bridge enabled forward⟩ 1).value = 0), ?_⟩
  simp [Device.effect]

/-- A bridge remembers in the end what its first phase found. -/
theorem memory_turn (hwired : netlist.Wired) (h : State.Sound netlist state)
    (hpart : netlist.parts[part]? = some placed) (hbridge : placed.device = .bridge)
    (htrace : netlist.trace state = left ++ .phase part 0 :: right) :
    ((netlist.final state).part part).memory =
      ((netlist.after state left).effect netlist part 0).memory := by
  have hsplit : netlist.trace state = (left ++ [.phase part 0]) ++ right := by
    rw [htrace, List.append_assoc, List.singleton_append]
  have hprobe : placed.device ≠ .probe := by
    rw [hbridge]
    exact nofun
  rw [← after_eq_final (fun state => (state.part part).memory) hwired h hsplit
    fun task htask state' hstate => memory_frame hwired hstate hpart
      (fun position heq => ordinary_of_mem_right hsplit (heq ▸ htask)) hprobe
      fun _ heq => (not_mem_split htrace).2 (heq ▸ htask)]
  exact (memory_after_phase hwired h hpart part).trans (if_pos rfl)

/-- What the copy phase of a bridge does to its two sides. -/
theorem pin_copy (hwired : netlist.Wired) (hpart : netlist.parts[part]? = some placed)
    (hbridge : placed.device = .bridge) (h : State.Sound netlist state) {enabled forward : Bool}
    (hmemory : (state.part part).memory = .bridge enabled forward) (side : Nat) :
    (state.perform netlist (.phase part 1)).pin ⟨part, side⟩ =
      if side = (Device.bridgeSides forward).2 then
        (state.pin ⟨part, side⟩).drive true (state.part part).copied
      else if side = (Device.bridgeSides forward).1 then (state.pin ⟨part, side⟩).drive true none
      else state.pin ⟨part, side⟩ := by
  have hedit : ∀ side, (state.effect netlist part 1).edit side =
      if side = (Device.bridgeSides forward).2 then .drive true (state.part part).copied
      else if side = (Device.bridgeSides forward).1 then .drive true none else .keep := by
    intro side
    rw [State.effect_eq hpart, hbridge, Device.effect_copy _ hmemory]
    rfl
  cases hport : netlist.port? ⟨part, side⟩ with
  | some port =>
    rw [State.pin_phase hwired h hport 1, hedit]
    split
    · rfl
    · split <;> rfl
  | none =>
    have hne : ∀ port, netlist.port? ⟨part, side⟩ ≠ some port := by
      intro port
      rw [hport]
      exact nofun
    obtain ⟨source, target, hsource, htarget, -⟩ := bridge_ports hwired hpart hbridge forward
    rw [State.pin_eq_default h hport,
      State.pin_eq_default (h.perform hwired.native) hport, if_neg, if_neg]
    · rintro rfl
      exact hne source hsource
    · rintro rfl
      exact hne target htarget

/-- The source side of a bridge shows in the end what it showed when it was
copied, if its net was resolved by then. -/
theorem look_source (hwired : netlist.Wired) (h : State.Sound netlist state)
    (hpart : netlist.parts[part]? = some placed)
    (hbridge : placed.device = .bridge)
    (htrace : netlist.trace state = left ++ .phase part 1 :: right) {enabled forward : Bool}
    (hmemory : ((netlist.after state left).part part).memory = .bridge enabled forward)
    (hnets : ∀ index, .net index ∈ right →
      ⟨part, (Device.bridgeSides forward).1⟩ ∉ (netlist.nets.getD index default).targets) :
    (netlist.after state left).look ⟨part, (Device.bridgeSides forward).1⟩ =
      (netlist.final state).look ⟨part, (Device.bridgeSides forward).1⟩ := by
  have hsplit : netlist.trace state = (left ++ [.phase part 1]) ++ right := by
    rw [htrace, List.append_assoc, List.singleton_append]
  obtain ⟨source, target, hsource, -⟩ := bridge_ports hwired hpart hbridge forward
  have hlast : Task.phase part placed.device.last ∈ left ++ [.phase part 1] := by
    rw [hbridge]
    exact List.mem_append_right _ (List.mem_singleton_self _)
  have hpin := pin_final hwired h hsplit hsource hpart hlast hnets
  rw [State.look, State.look, ← hpin, after_snoc,
    pin_copy hwired hpart hbridge (sound_after hwired h left) hmemory,
    if_neg (sides_ne forward), if_pos rfl]
  rfl

end Netlist

end Breadboard
