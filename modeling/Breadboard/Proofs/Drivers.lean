import Breadboard.Proofs.Reachable

/-!
# Which drivers a net counts

A net is resolved once in a settle, and counts the sources that drive at that
moment. A tri-state pin drives from the last phase of its part on and not before,
so the count is that of the drivers which are enabled when the settle is over,
less those that came too late (`drives_after`, `count_final`). A driver comes too
late only if it depends on the net itself, for the schedule does not make the net
wait for such a driver (`drivenBefore_of_not_deferred`).
-/

namespace Breadboard

namespace Netlist

variable {netlist : Netlist} {state : State} {ref : PortRef} {port : Port} {placed : Part}
  {index : Nat} {net : Net} {left right : List Task}

/-- Whether a phase that writes the port ran before the net was resolved. -/
def drivenBefore (netlist : Netlist) (state : State) (index : Nat) (ref : PortRef) : Bool :=
  ((netlist.trace state).takeWhile (· ≠ .net index)).any fun
    | .phase part position =>
      part = ref.part && (netlist.phase? part position).any (ref.port ∈ ·.writes)
    | .net _ => false

/-- The sources that a net counts: those that drive when the settle is over,
except the tri-state ones that were driven too late. -/
def counted (netlist : Netlist) (before after : State) (index : Nat) (net : Net) : List PortRef :=
  (net.driving netlist after).filter fun ref =>
    !((netlist.port? ref).getD default).type.tristate || netlist.drivenBefore before index ref

/-! ## Pins that drive -/

theorem isDriving_eq (hport : netlist.port? ref = some port) :
    Net.isDriving netlist state ref = (state.pin ref).drives port.type := by
  rw [Net.isDriving, hport]
  rfl

/-- A pin that can face either way is tri-state. -/
theorem tristate_of_bidirectional (hwired : netlist.Wired) (hport : netlist.port? ref = some port)
    (hboth : port.type.bidirectional = true) : port.type.tristate = true := by
  obtain ⟨placed, hpart, hplace⟩ := part_of_port hport
  obtain ⟨value, hedit, -⟩ := (hwired.regularAt hpart).bidirectional
    ⟨[], placed.device.fresh⟩ placed.device.fits_fresh hplace hboth
  have hfinal := (hwired.regularAt hpart).final ⟨[], placed.device.fresh⟩ hplace
  rw [hedit] at hfinal
  generalize hdrive : Edit.drive true value = edit at hfinal
  cases hfinal with
  | drive _ _ htristate => exact htristate
  | _ => cases hdrive

/-- A part without behaviour has no such pin. -/
theorem valid_of_bidirectional (hwired : netlist.Wired) (hport : netlist.port? ref = some port)
    (hpart : netlist.parts[ref.part]? = some placed) (hboth : port.type.bidirectional = true) :
    placed.valid = true := by
  obtain ⟨owner, howner, hplace⟩ := part_of_port hport
  obtain rfl := Option.some.inj (howner.symm.trans hpart)
  cases hvalid : owner.valid with
  | true => rfl
  | false =>
    have hinert := (hwired.regularAt hpart).invalid hvalid
    obtain ⟨value, hedit, -⟩ := (hwired.regularAt hpart).bidirectional
      ⟨[], owner.device.fresh⟩ owner.device.fits_fresh hplace hboth
    rw [hinert] at hedit
    cases hedit

/-- The last phase of a part leaves a plain output enabled. -/
theorem enabled_final {type : PortType} {edit : Edit} {pin : Pin} (h : edit.Final type)
    (houtput : type.output = true) (hplain : type.tristate = false) :
    (edit.apply pin).enabled = pin.enabled := by
  cases h with
  | keep => rfl
  | ignore hinput => rw [houtput] at hinput; cases hinput
  | set value => rfl
  | drive value _ htristate => rw [hplain] at htristate; cases htristate

/-- A plain output is enabled throughout. -/
theorem enabled_plain (hwired : netlist.Wired) (h : State.Sound netlist state)
    (htrace : netlist.trace state = left ++ right) (hport : netlist.port? ref = some port)
    (houtput : port.type.output = true) (hplain : port.type.tristate = false) :
    ((netlist.after state left).pin ref).enabled = true := by
  have hframe := after_eq_begun left (fun state => (state.pin ref).enabled) hwired h ?_
  · rw [hframe, pin_begun h hport]
    simp [hplain]
  · intro task htask state' hstate
    cases task with
    | net index => exact congrArg Prod.fst (State.turn_net hstate hport)
    | phase part position =>
      obtain ⟨phase, hphase⟩ := ordinary_of_mem_left htrace htask
      obtain ⟨placed, hpart, hplace⟩ := part_of_port hport
      by_cases hlast : Task.phase part position = .phase ref.part placed.device.last
      · obtain ⟨rfl, rfl⟩ := Task.phase.inj hlast
        rw [State.pin_phase hwired hstate hport, State.effect_eq hpart]
        exact enabled_final ((hwired.regularAt hpart).final _ hplace) houtput hplain
      · obtain ⟨facing, hpin⟩ := State.pin_early hwired hstate hport hpart hphase hlast
        rw [hpin]

theorem drives_plain (hwired : netlist.Wired) (h : State.Sound netlist state)
    (htrace : netlist.trace state = left ++ right) (hport : netlist.port? ref = some port)
    (houtput : port.type.output = true) (hplain : port.type.tristate = false) :
    ((netlist.after state left).pin ref).drives port.type = true := by
  have hone : port.type.bidirectional = false := by
    cases hboth : port.type.bidirectional with
    | false => rfl
    | true =>
      have htristate := tristate_of_bidirectional hwired hport hboth
      rw [hplain] at htristate
      cases htristate
  simp [Pin.drives, houtput, hone, enabled_plain hwired h htrace hport houtput hplain]

/-- Along a settle a source drives as it does in the end, except that a tri-state
one does not drive before the last phase of its part. -/
theorem drives_after (hwired : netlist.Wired) (h : State.Sound netlist state)
    (htrace : netlist.trace state = left ++ right)
    (hport : netlist.port? ref = some port) (hpart : netlist.parts[ref.part]? = some placed)
    (houtput : port.type.output = true) :
    ((netlist.after state left).pin ref).drives port.type =
      (((netlist.final state).pin ref).drives port.type &&
        (!port.type.tristate || decide (.phase ref.part placed.device.last ∈ left))) := by
  by_cases hlast : .phase ref.part placed.device.last ∈ left
  · have hturn := turn_final hwired h htrace hport hpart hlast
    obtain ⟨henabled, hfacing⟩ := Prod.mk.inj hturn
    simp [Pin.drives, henabled, hfacing, hlast]
  · cases htristate : port.type.tristate with
    | true =>
      have henabled := enabled_early hwired h htrace hport hpart hlast
      rw [htristate] at henabled
      simp [Pin.drives, henabled, hlast]
    | false =>
      have hall : netlist.trace state = netlist.trace state ++ [] := (List.append_nil _).symm
      have hfinal := drives_plain hwired h hall hport houtput htristate
      rw [← final_eq] at hfinal
      rw [drives_plain hwired h htrace hport houtput htristate, hfinal]
      rfl

/-! ## What is counted -/

/-- A trace is cut in one way at a task. -/
theorem takeWhile_trace {task : Task} (htrace : netlist.trace state = left ++ task :: right) :
    (netlist.trace state).takeWhile (· ≠ task) = left := by
  have hearlier : ∀ other ∈ left, decide (other ≠ task) = true := by
    intro other hother
    refine decide_eq_true ?_
    rintro rfl
    exact (not_mem_split htrace).1 hother
  rw [htrace, List.takeWhile_append_of_pos hearlier, List.takeWhile_cons_of_neg (by simp), List.append_nil]

/-- Only the last phase of a part writes. -/
theorem drivenBefore_eq (hwired : netlist.Wired)
    (htrace : netlist.trace state = left ++ .net index :: right)
    (hport : netlist.port? ref = some port) (hpart : netlist.parts[ref.part]? = some placed)
    (houtput : port.type.output = true) :
    netlist.drivenBefore state index ref =
      decide (.phase ref.part placed.device.last ∈ left) := by
  obtain ⟨owner, howner, hplace⟩ := part_of_port hport
  obtain rfl := Option.some.inj (howner.symm.trans hpart)
  have hregular := hwired.regularAt hpart
  rw [drivenBefore, takeWhile_trace htrace, Bool.eq_iff_iff, List.any_eq_true, decide_eq_true_eq]
  constructor
  · rintro ⟨task, htask, hwrites⟩
    cases task with
    | net other => cases hwrites
    | phase part position =>
      obtain ⟨hsame, hwrites⟩ := Bool.and_eq_true_iff.mp hwrites
      obtain rfl := of_decide_eq_true hsame
      obtain ⟨phase, hphase, hwrites⟩ := (Option.any_eq_true _ _).mp hwrites
      obtain ⟨found, hordinary⟩ := ordinary_of_mem_left htrace htask
      obtain rfl := Option.some.inj (hordinary.1.symm.trans hphase)
      obtain ⟨owner', howner', hfound⟩ := part_of_phase hordinary
      obtain rfl := Option.some.inj (howner'.symm.trans hpart)
      rcases hregular.cases hfound hordinary.2 with ⟨rfl, -⟩ | ⟨-, -, rfl⟩
      · exact htask
      · exact absurd (of_decide_eq_true hwrites) List.not_mem_nil
  · intro hlast
    obtain ⟨phase, hphase, hlatch⟩ := hregular.exists_last
    refine ⟨_, hlast, ?_⟩
    have hfound : netlist.phase? ref.part owner.device.last = some phase :=
      Option.bind_eq_some_iff.mpr ⟨owner, hpart, hphase⟩
    simp [hfound, hregular.written hphase hplace houtput]

/-- When a net is resolved, those of its sources drive that it counts. -/
theorem driving_after (hwired : netlist.Wired) (h : State.Sound netlist state)
    (htrace : netlist.trace state = left ++ .net index :: right)
    (hnet : netlist.nets[index]? = some net) :
    net.driving netlist (netlist.after state left) =
      netlist.counted state (netlist.final state) index net := by
  rw [counted, Net.driving, Net.driving, List.filter_filter]
  refine List.filter_congr fun ref href => ?_
  obtain ⟨port, hattached, houtput⟩ := hwired.source hnet href
  have hport := hattached.found
  obtain ⟨placed, hpart, -⟩ := part_of_port hport
  rw [isDriving_eq hport, isDriving_eq hport, hport, Option.getD_some,
    drives_after hwired h htrace hport hpart houtput,
    drivenBefore_eq hwired htrace hport hpart houtput, Bool.and_comm]

/-! ## What the net shows -/

theorem getD_nets (hnet : netlist.nets[index]? = some net) :
    netlist.nets.getD index default = net := by
  rw [List.getD_eq_getElem?_getD, hnet]
  rfl

theorem exists_split (hnet : netlist.nets[index]? = some net) (state : State) :
    ∃ left right, netlist.trace state = left ++ .net index :: right :=
  List.append_of_mem (mem_trace.mpr (mem_tasks_net.mpr (List.getElem?_eq_some_iff.mp hnet).1))

theorem verdict_tristate (hnet : netlist.nets[index]? = some net) (htristate : net.tristate = true)
    (state : State) : state.verdict netlist index =
      match net.driving netlist state with
      | [source] => (some (trim net.width (state.pin source).value), 1)
      | driving => (none, driving.length) := by
  rcases hdriving : net.driving netlist state with _ | ⟨source, _ | _⟩ <;>
    simp [State.verdict, hnet, htristate, hdriving]

theorem verdict_plain (hnet : netlist.nets[index]? = some net) (hplain : net.tristate = false)
    (state : State) : state.verdict netlist index =
      match net.sources with
      | [source] => (some (trim net.width (state.pin source).value), 1)
      | sources => (some 0, sources.length) := by
  rcases hsources : net.sources with _ | ⟨source, _ | _⟩ <;>
    simp [State.verdict, hnet, hplain, hsources]

/-- A tri-state net that counts one driver shows it. -/
theorem exists_driver_of_one (hnet : netlist.nets[index]? = some net)
    (htristate : net.tristate = true) (hone : (state.verdict netlist index).2 = 1) :
    ∃ driver, net.driving netlist state = [driver] ∧ state.verdict netlist index =
      (some (trim net.width (state.pin driver).value), 1) := by
  rw [verdict_tristate hnet htristate] at hone ⊢
  generalize net.driving netlist state = driving at hone ⊢
  rcases driving with _ | ⟨driver, _ | _⟩
  · cases hone
  · exact ⟨driver, rfl, rfl⟩
  · simp at hone

/-- A net that counts one driver has decided on something. -/
theorem decides_of_one {state : State} (hnet : netlist.nets[index]? = some net)
    (hone : (state.verdict netlist index).2 = 1) :
    (state.verdict netlist index).1.isSome = true := by
  cases htristate : net.tristate with
  | true =>
    rw [verdict_tristate hnet htristate] at hone ⊢
    generalize net.driving netlist state = driving at hone ⊢
    rcases driving with _ | ⟨source, _ | _⟩
    · cases hone
    · rfl
    · simp at hone
  | false =>
    rw [verdict_plain hnet htristate]
    rcases net.sources with _ | ⟨source, _ | _⟩ <;> rfl

/-- A net that counts one source decides what this source shows. -/
theorem verdict_of_one (hnet : netlist.nets[index]? = some net) (href : ref ∈ net.sources)
    (hdriving : net.tristate = true → Net.isDriving netlist state ref = true)
    (hone : (state.verdict netlist index).2 = 1) :
    (state.verdict netlist index).1 = some (trim net.width (state.pin ref).value) := by
  cases htristate : net.tristate with
  | true =>
    obtain ⟨driver, hdrivers, hverdict⟩ := exists_driver_of_one hnet htristate hone
    have hmem : ref ∈ net.driving netlist state :=
      List.mem_filter.mpr ⟨href, hdriving htristate⟩
    rw [hdrivers] at hmem
    obtain rfl := List.mem_singleton.mp hmem
    rw [hverdict]
  | false =>
    have hverdict := verdict_plain hnet htristate state
    rw [hverdict] at hone ⊢
    rcases hcases : net.sources with _ | ⟨source, _ | _⟩
    · rw [hcases] at href
      cases href
    · rw [hcases] at href
      obtain rfl := List.mem_singleton.mp href
      rfl
    · rw [hcases] at hone
      simp at hone

theorem verdict_tristate_one (hnet : netlist.nets[index]? = some net) (htristate : net.tristate = true)
    {word : Word} (h : (state.verdict netlist index).1 = some word) :
    (state.verdict netlist index).2 = 1 := by
  rw [verdict_tristate hnet htristate] at h ⊢
  generalize net.driving netlist state = driving at h ⊢
  rcases driving with _ | ⟨source, _ | _⟩
  · cases h
  · rfl
  · cases h

theorem input_of_mem_targets (hwired : netlist.Wired) (hport : netlist.port? ref = some port)
    (htarget : ref ∈ (netlist.nets.getD index default).targets) :
    port.type.input = true ∧ netlist.Lists index ref := by
  cases hnet : netlist.nets[index]? with
  | none =>
    rw [List.getD_eq_getElem?_getD, hnet] at htarget
    exact absurd htarget List.not_mem_nil
  | some net =>
    rw [getD_nets hnet] at htarget
    obtain ⟨found, hattached, hinput⟩ := hwired.target hnet htarget
    obtain rfl := Option.some.inj (hattached.found.symm.trans hport)
    exact ⟨hinput, net, hnet, Or.inr htarget⟩

/-- Behind the last phase of its part a pin changes by the one net it reads. -/
theorem pin_through (hwired : netlist.Wired) (h : State.Sound netlist state)
    (htrace : netlist.trace state = left ++ .net index :: right)
    (hport : netlist.port? ref = some port) (hpart : netlist.parts[ref.part]? = some placed)
    (hlast : .phase ref.part placed.device.last ∈ left)
    (honly : ∀ other, ref ∈ (netlist.nets.getD other default).targets → other = index) :
    (netlist.final state).pin ref =
      if ref ∈ (netlist.nets.getD index default).targets then
        ((netlist.after state left).pin ref).hear ((netlist.after state left).verdict netlist index).1
      else (netlist.after state left).pin ref := by
  have hsplit : netlist.trace state = (left ++ [.net index]) ++ right := by
    rw [htrace, List.append_assoc, List.singleton_append]
  rw [← pin_final hwired h hsplit hport hpart (List.mem_append_left _ hlast), after_snoc,
    State.perform, State.pin_resolve ((sound_after hwired h left).has hport)]
  intro other hother htarget
  rw [honly other htarget] at hother
  exact (not_mem_split htrace).2 hother

/-- Between the last phase of its part and the one net that it reads a pin stays. -/
theorem pin_at_net (hwired : netlist.Wired) (h : State.Sound netlist state)
    (hport : netlist.port? ref = some port)
    (hpart : netlist.parts[ref.part]? = some placed) {middle : List Task}
    (htrace : netlist.trace state =
      (left ++ .phase ref.part placed.device.last :: middle) ++ .net index :: right)
    (honly : ∀ other, ref ∈ (netlist.nets.getD other default).targets → other = index) :
    (netlist.after state (left ++ .phase ref.part placed.device.last :: middle)).pin ref =
      ((netlist.after state left).perform netlist (.phase ref.part placed.device.last)).pin ref := by
  have hsplit : netlist.trace state = (left ++ [.phase ref.part placed.device.last]) ++
      (middle ++ .net index :: right) := by
    simp [htrace]
  have hstays := pin_between hwired h hsplit hport hpart
    (List.mem_append_right _ (List.mem_singleton_self _)) fun other hother htarget => by
      rw [honly other htarget] at hother
      exact (not_mem_split htrace).1 (List.mem_append_right _ (List.mem_cons_of_mem _ hother))
  rwa [List.append_assoc, List.singleton_append, after_snoc] at hstays

/-- A source that drove before its net was resolved shows in the end what the net
made of it. -/
theorem value_through (hflat : netlist.Flat) (h : State.Sound netlist state)
    (htrace : netlist.trace state = left ++ .net index :: right)
    (hnet : netlist.nets[index]? = some net) (href : ref ∈ net.sources)
    (hdriven : netlist.drivenBefore state index ref = true)
    (hverdict : ((netlist.after state left).verdict netlist index).1 =
      some (trim net.width ((netlist.after state left).pin ref).value)) :
    trim net.width ((netlist.after state left).pin ref).value =
      trim net.width ((netlist.final state).pin ref).value := by
  have hwired := hflat.wired
  obtain ⟨port, hattached, houtput⟩ := hwired.source hnet href
  have hport := hattached.found
  obtain ⟨placed, hpart, -⟩ := part_of_port hport
  rw [drivenBefore_eq hwired htrace hport hpart houtput, decide_eq_true_eq] at hdriven
  rw [pin_through hwired h htrace hport hpart hdriven, hverdict]
  · split
    · exact (trim_trim ..).symm
    · rfl
  · intro other htarget
    obtain ⟨hinput, hlists⟩ := input_of_mem_targets hwired hport htarget
    have hboth : port.type.bidirectional = true := by simp [PortType.bidirectional, hinput, houtput]
    exact hflat.eq_of_bidirectional hport hboth hlists ⟨net, hnet, Or.inl href⟩

/-- The drivers that a net counts, and the value of a driver that is alone. -/
theorem count_final (hflat : netlist.Flat) (h : State.Sound netlist state)
    (hnet : netlist.nets[index]? = some net)
    (htristate : net.tristate = true) :
    ((netlist.final state).net index).enabledCount =
        (netlist.counted state (netlist.final state) index net).length ∧
      ∀ ref, netlist.counted state (netlist.final state) index net = [ref] →
        netlist.drivenBefore state index ref = true →
        ((netlist.final state).net index).value =
          trim net.width ((netlist.final state).pin ref).value := by
  have hwired := hflat.wired
  obtain ⟨left, right, htrace⟩ := exists_split hnet state
  have hlt := (List.getElem?_eq_some_iff.mp hnet).1
  have hverdict := verdict_tristate hnet htristate (netlist.after state left)
  rw [driving_after hwired h htrace hnet] at hverdict
  rw [net_final hwired h htrace hlt]
  constructor
  · rw [hverdict]
    generalize netlist.counted state (netlist.final state) index net = counted
    rcases counted with _ | ⟨source, _ | _⟩ <;> rfl
  · intro ref hcounted hdriven
    rw [hcounted] at hverdict
    have hsource : ref ∈ net.sources := by
      have hmem : ref ∈ netlist.counted state (netlist.final state) index net := by
        rw [hcounted]
        exact List.mem_singleton_self ref
      exact (List.mem_filter.mp (List.mem_filter.mp hmem).1).1
    have hdecided := congrArg Prod.fst hverdict
    rw [hdecided]
    exact value_through hflat h htrace hnet hsource hdriven hdecided

/-- A driver that is bound to the net and does not depend on it comes in time. -/
theorem drivenBefore_of_not_deferred (hwired : netlist.Wired)
    (hloops : (compile netlist).diagnostics = []) (hnet : netlist.nets[index]? = some net)
    (href : ref ∈ net.sources) (hport : netlist.port? ref = some port)
    (hbound : port.net = some index) (hpart : netlist.parts[ref.part]? = some placed)
    (hdeferred : ¬ netlist.Deferred ref.part placed.device.last index) :
    netlist.drivenBefore state index ref = true := by
  obtain ⟨left, right, htrace⟩ := exists_split hnet state
  obtain ⟨found, hattached, houtput⟩ := hwired.source hnet href
  obtain rfl := Option.some.inj (hattached.found.symm.trans hport)
  have hbefore := before_of_precedes state hloops
    (precedes_of_write (hwired.writes hnet href hport hbound hpart) hdeferred)
  rw [drivenBefore_eq hwired htrace hport hpart houtput, decide_eq_true_eq]
  exact (before_iff_mem_left htrace).mp hbefore

end Netlist

/-! ## Reachable simulations -/

namespace Simulation

theorem counted_congr {netlist : Netlist} {before after other : State} (h : other.Matches after)
    (index : Nat) (net : Net) :
    netlist.counted before other index net = netlist.counted before after index net := by
  rw [Netlist.counted, Netlist.counted, h.driving]

/-- After every settle a tri-state net has counted the sources that drive, less
those driven too late. One that is counted alone has decided the value. No source
is late that is bound to the net and does not depend on it. -/
theorem settle_counts_timely_drivers {simulation : Simulation} (hreach : simulation.Reachable)
    (hloops : simulation.schedule.diagnostics = []) {index : Nat} {net : Net}
    (hnet : simulation.netlist.nets[index]? = some net) (htristate : net.tristate = true) :
    let netlist := simulation.netlist
    let after := simulation.settle.state
    (after.net index).enabledCount = (netlist.counted simulation.state after index net).length ∧
    (∀ ref, netlist.counted simulation.state after index net = [ref] →
      netlist.drivenBefore simulation.state index ref = true →
      (after.net index).value = trim net.width (after.pin ref).value) ∧
    ∀ ref ∈ net.sources, ∀ port, netlist.port? ref = some port → port.net = some index →
      (∀ position, ¬ netlist.Deferred ref.part position index) →
      netlist.drivenBefore simulation.state index ref = true := by
  intro netlist after
  have h := hreach.coherent
  have hloops' : (compile netlist).diagnostics = [] := h.schedule ▸ hloops
  have hmatches : after.Matches (netlist.final simulation.state) := h.tracked_settle.agrees
  obtain ⟨hcount, hvalue⟩ := Netlist.count_final h.flat h.sound hnet htristate
  rw [counted_congr hmatches, hmatches.net]
  refine ⟨hcount, fun ref hcounted hdriven => ?_, fun ref href port hport hbound hdeferred => ?_⟩
  · rw [hmatches.value]
    exact hvalue ref hcounted hdriven
  · obtain ⟨placed, hpart, -⟩ := Netlist.part_of_port hport
    exact Netlist.drivenBefore_of_not_deferred h.flat.wired hloops' hnet href hport hbound hpart
      (hdeferred _)

/-- Two buffers drive the sides of a bridge, which copies the first side onto the
second. -/
def bridgedBuffers : Schematic where
  components :=
    [⟨"one", Builtin.constant.id, .obj [("value", .int 1)]⟩,
      ⟨"s", Builtin.buffer.id, .null⟩, ⟨"t", Builtin.buffer.id, .null⟩,
      ⟨"br", Builtin.bridge.id, .null⟩]
  wires :=
    [⟨"e", [⟨"one", "out"⟩, ⟨"s", "en"⟩, ⟨"s", "in"⟩, ⟨"t", "en"⟩, ⟨"t", "in"⟩, ⟨"br", "en"⟩]⟩,
      ⟨"a", [⟨"br", "a"⟩, ⟨"s", "out"⟩]⟩, ⟨"b", [⟨"br", "b"⟩, ⟨"t", "out"⟩]⟩]

theorem settle_counts_timely_drivers_bridged :
    let simulation := ofNetlist (flatten Library.builtin bridgedBuffers)
    ∃ net, simulation.netlist.nets[2]? = some net ∧ net.tristate = true ∧
      (simulation.settle.state.net 2).enabledCount = 1 ∧
      (simulation.settle.state.net 2).value =
        trim net.width (simulation.settle.state.pin ⟨2, 2⟩).value := by
  have hreach : (ofNetlist (flatten Library.builtin bridgedBuffers)).Reachable :=
    reachable_ofNetlist (by decide +kernel)
  have hnet : (ofNetlist (flatten Library.builtin bridgedBuffers)).netlist.nets[2]? =
      some ((flatten Library.builtin bridgedBuffers).nets.getD 2 default) := rfl
  refine ⟨_, hnet, by decide +kernel, ?_⟩
  obtain ⟨hcount, hvalue, -⟩ := settle_counts_timely_drivers hreach (by decide +kernel) hnet
    (by decide +kernel)
  refine ⟨hcount.trans ?_, hvalue ⟨2, 2⟩ ?_ ?_⟩
  · decide +kernel
  · decide +kernel
  · decide +kernel

/-- The second side is driven twice in the end, by the buffer and by the bridge.
The net was resolved when the buffer drove it, and the bridge came later. -/
theorem settle_misses_late_driver :
    ¬ ∀ simulation : Simulation, simulation.Reachable → simulation.schedule.diagnostics = [] →
      ∀ index net, simulation.netlist.nets[index]? = some net → net.tristate = true →
        (simulation.settle.state.net index).enabledCount =
          (net.driving simulation.netlist simulation.settle.state).length := by
  intro h
  have hcount := h (ofNetlist (flatten Library.builtin bridgedBuffers))
    (reachable_ofNetlist (by decide +kernel)) (by decide +kernel) 2 _ rfl (by decide +kernel)
  revert hcount
  decide +kernel

end Simulation

end Breadboard
