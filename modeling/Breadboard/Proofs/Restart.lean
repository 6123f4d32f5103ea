import Breadboard.Proofs.Influence
import Breadboard.Proofs.Proper
import Breadboard.Proofs.Turning

/-!
# A reset starts afresh

A reset clears the values of pins and nets, but not what a probe recorded, which way a
bridge was turned, or which way its pins face. None of this is read in a settle before
it is written anew: a probe and the first phase of a bridge write without looking, and
a pin that can face either way does not drive before the last phase of its part has
turned it. So the settle of a cleared state and that of a new one keep in step
(`Netlist.Fading`), run the same blocks, and lead to states that match.
-/

namespace Breadboard

/-! ## New states with what a reset spares -/

/-- What a reset of that kind spares of a memory: settings, and the contents of memories
unless it is a hard one. The rest is as in a new part. -/
def Device.spared (hard : Bool) (device : Device) (memory : Memory) : Memory :=
  match device with
  | .input .. => memory
  | .ram .. => if hard then device.fresh else memory
  | _ => device.fresh

/-- The state of a circuit that has not run yet, with what a reset spares of the memories of
another state. -/
def State.restarted (netlist : Netlist) (hard : Bool) (state : State) : State where
  parts := netlist.parts.zipIdx.map fun (part, index) =>
    ⟨part.ports.map fun _ => {}, part.device.spared hard (state.part index).memory⟩
  nets := netlist.nets.map fun _ => {}

/-- The first thing a device does in a settle is to write its memory, whatever was in it. -/
def Device.rewrites : Device → Bool
  | .probe | .bridge => true
  | _ => false

theorem Edit.enabled_apply_congr (edit : Edit) {pin other : Pin} (h : pin.enabled = other.enabled) :
    (edit.apply pin).enabled = (edit.apply other).enabled := by
  cases edit with
  | drive bidirectional value => cases value <;> rfl
  | ignore => rfl
  | _ => exact h

theorem Edit.facing_apply_congr (edit : Edit) {pin other : Pin} (h : pin.facing = other.facing) :
    (edit.apply pin).facing = (edit.apply other).facing := by
  cases edit with
  | drive bidirectional value =>
    cases value <;> cases bidirectional <;> first | rfl | exact h
  | face facing => rfl
  | _ => exact h

namespace Device

variable {device : Device} {memory : Memory}

theorem fits_spared (h : device.Fits memory) (hard : Bool) :
    device.Fits (device.spared hard memory) := by
  cases device with
  | input => exact h
  | ram addrWidth width =>
    cases hard with
    | false => exact h
    | true => exact fits_fresh (.ram addrWidth width)
  | _ => exact fits_fresh _

/-- A reset leaves what it spares, but for the devices that write their memory first. -/
theorem reset_eq_spared (hnative : device.Native) (h : device.Proper memory) (hard : Bool)
    (hkept : device.rewrites = false) : device.reset hard memory = device.spared hard memory := by
  cases device with
  | scripted => exact hnative.elim
  | probe | bridge => cases hkept
  | input | register => cases memory <;> rfl
  | ram addrWidth width =>
    cases memory with
    | ram cells =>
      cases hard with
      | false => rfl
      | true => exact congrArg (fun size => Memory.ram (Array.replicate size 0)) h.1
    | _ => exact h.elim
  | _ =>
    obtain rfl : memory = .none := h
    rfl

end Device

namespace State

variable {netlist : Netlist} {state : State}

theorem part_eq_default {index : Nat} (h : Sound netlist state)
    (hpart : netlist.parts[index]? = none) : state.part index = default := by
  rw [State.part, List.getD_eq_getElem?_getD, List.getElem?_eq_none]
  · rfl
  · rw [h.parts]
    exact List.getElem?_eq_none_iff.mp hpart

theorem new_restarted (netlist : Netlist) (hard : Bool) (state : State) :
    New netlist (fun index part => part.device.spared hard (state.part index).memory)
      (restarted netlist hard state) where
  parts := by simp [restarted]
  part hplaced := by simp [restarted, State.part, List.getD_eq_getElem?_getD, hplaced]
  nets := rfl

theorem sound_restarted (h : Sound netlist state) (hard : Bool) :
    Sound netlist (restarted netlist hard state) ∧
      Loose netlist (restarted netlist hard state) := by
  refine sound_of_new (by simp [restarted]) (by simp [restarted]) fun hplaced => ?_
  rw [(new_restarted netlist hard state).part hplaced]
  exact ⟨rfl, Device.fits_spared (h.fits hplaced) hard⟩

end State

namespace Netlist

variable {netlist : Netlist} {first second : State} {left right : List Task} {ref : PortRef}
  {port : Port} {placed : Part} {index part position : Nat} {task : Task}

/-! ## Settles in step -/

/-- The states are the same but for what tasks that are not in `left` write anew. -/
structure Fading (netlist : Netlist) (left : List Task) (first second : State) : Prop where
  sound : State.Sound netlist first
  sound' : State.Sound netlist second
  nets : first.nets = second.nets
  status : first.status = second.status
  look : ∀ {ref : PortRef} {port : Port}, netlist.port? ref = some port →
    first.look ref = second.look ref
  enabled : ∀ {ref : PortRef} {port : Port}, netlist.port? ref = some port →
    (first.pin ref).enabled = (second.pin ref).enabled
  facing : ∀ {ref : PortRef} {port : Port} {placed : Part}, netlist.port? ref = some port →
    netlist.parts[ref.part]? = some placed →
    (port.type.bidirectional = true → .phase ref.part placed.device.last ∈ left) →
    (first.pin ref).facing = (second.pin ref).facing
  memory : ∀ {index : Nat} {placed : Part}, netlist.parts[index]? = some placed →
    (placed.device.rewrites = true → .phase index 0 ∈ left) →
    (first.part index).memory = (second.part index).memory

namespace Fading

theorem look_eq (h : netlist.Fading left first second) (ref : PortRef) :
    first.look ref = second.look ref := by
  cases hport : netlist.port? ref with
  | none =>
    rw [State.look, State.look, State.pin_eq_default h.sound hport,
      State.pin_eq_default h.sound' hport]
  | some port => exact h.look hport

/-- Both states drive the same pins: what may still turn has not been enabled. -/
theorem isDriving (h : netlist.Fading left (netlist.after first left) (netlist.after second left))
    (hwired : netlist.Wired) (hsound : State.Sound netlist first)
    (htrace : netlist.trace first = left ++ right) (ref : PortRef) :
    Net.isDriving netlist (netlist.after first left) ref =
      Net.isDriving netlist (netlist.after second left) ref := by
  cases hport : netlist.port? ref with
  | none =>
    rw [Net.isDriving, Net.isDriving, State.pin_eq_default h.sound hport,
      State.pin_eq_default h.sound' hport]
  | some port =>
    obtain ⟨placed, hpart, -⟩ := part_of_port hport
    rw [isDriving_eq hport, isDriving_eq hport, Pin.drives, Pin.drives, ← h.enabled hport]
    by_cases hturned : port.type.bidirectional = true → .phase ref.part placed.device.last ∈ left
    · rw [h.facing hport hpart hturned]
    · obtain ⟨hboth, hlast⟩ := Classical.not_imp.mp hturned
      rw [enabled_early hwired hsound htrace hport hpart hlast,
        tristate_of_bidirectional hwired hport hboth]
      simp

/-- So a net decides the same in both. -/
theorem verdict (h : netlist.Fading left (netlist.after first left) (netlist.after second left))
    (hwired : netlist.Wired) (hsound : State.Sound netlist first)
    (htrace : netlist.trace first = left ++ right) (index : Nat) :
    (netlist.after first left).verdict netlist index =
      (netlist.after second left).verdict netlist index := by
  have hdriving : ∀ net : Net, net.driving netlist (netlist.after first left) =
      net.driving netlist (netlist.after second left) :=
    fun net => List.filter_congr fun ref _ => h.isDriving hwired hsound htrace ref
  have hvalue : ∀ ref, ((netlist.after first left).pin ref).value =
      ((netlist.after second left).pin ref).value := fun ref => (Prod.mk.inj (h.look_eq ref)).1
  simp only [State.verdict, hdriving, hvalue]

theorem net_step (h : netlist.Fading left (netlist.after first left) (netlist.after second left))
    (hwired : netlist.Wired) (hsound : State.Sound netlist first)
    (hsound' : State.Sound netlist second)
    (htrace : netlist.trace first = left ++ .net index :: right) :
    netlist.Fading (left ++ [.net index]) (netlist.after first (left ++ [.net index]))
      (netlist.after second (left ++ [.net index])) := by
  have hverdict := h.verdict hwired hsound htrace index
  have hmem : ∀ {part position : Nat}, Task.phase part position ∈ left ++ [.net index] →
      Task.phase part position ∈ left := fun htask => by simpa using htask
  refine ⟨sound_after hwired hsound _, sound_after hwired hsound' _, ?_, ?_, fun hport => ?_,
    fun hport => ?_, fun hport hpart hturned => ?_, fun hpart hwritten => ?_⟩
  · rw [after_snoc, after_snoc, State.perform, State.perform, State.resolve_eq, State.resolve_eq,
      (State.tell_eq ..).1, (State.tell_eq ..).1, State.setNet, State.setNet, hverdict, State.net,
      State.net, h.nets]
  · rw [after_snoc, after_snoc, State.perform, State.perform, State.status_resolve,
      State.status_resolve, h.status]
  · have hlook := h.look hport
    rw [State.look, State.look, pin_after_net hwired hsound hport,
      pin_after_net hwired hsound' hport, hverdict]
    split
    · simp only [Pin.value_hear, Pin.resolved_hear, (Prod.mk.inj hlook).1]
    · exact hlook
  · rw [pin_after_net hwired hsound hport, pin_after_net hwired hsound' hport]
    split
    · rw [Pin.enabled_hear, Pin.enabled_hear, h.enabled hport]
    · exact h.enabled hport
  · have hfacing := h.facing hport hpart fun hboth => hmem (hturned hboth)
    rw [pin_after_net hwired hsound hport, pin_after_net hwired hsound' hport]
    split
    · rw [Pin.facing_hear, Pin.facing_hear, hfacing]
    · exact hfacing
  · rw [after_snoc, after_snoc, State.perform, State.perform, State.memory_resolve,
      State.memory_resolve]
    exact h.memory hpart fun hrewrites => hmem (hwritten hrewrites)

/-- A phase recalls nothing that is still to be written: a probe recalls nothing, and the
second phase of a bridge runs behind the first. -/
theorem recalled (h : netlist.Fading left (netlist.after first left) (netlist.after second left))
    (hwired : netlist.Wired)
    (htrace : netlist.trace first = left ++ .phase part position :: right)
    (hpart : netlist.parts[part]? = some placed) :
    placed.device.recalled position ((netlist.after first left).part part).memory =
      placed.device.recalled position ((netlist.after second left).part part).memory := by
  obtain ⟨phase, hphase⟩ := ordinary_of_split htrace
  by_cases hwritten : placed.device.rewrites = true → .phase part 0 ∈ left
  · rw [h.memory hpart hwritten]
  -- the memories may differ, so the device rewrites its own and has not done so yet
  obtain ⟨hrewrites, hearly⟩ := Classical.not_imp.mp hwritten
  cases hdevice : placed.device with
  | probe => rfl
  | bridge =>
    obtain ⟨enabled, forward, hmemory⟩ := bridge_memory hpart hdevice h.sound
    obtain ⟨enabled', forward', hmemory'⟩ := bridge_memory hpart hdevice h.sound'
    have hzero : position = 0 := by
      rcases last_or_bridge hwired hpart hphase with hlast | ⟨-, hzero⟩
      · rw [hdevice] at hlast
        obtain rfl : position = 1 := hlast
        have hturned := turn_before_copy hwired hpart hdevice first
        exact absurd ((before_iff_mem_left htrace).mp hturned) hearly
      · exact hzero
    rw [hzero, hmemory, hmemory']
    rfl
  | _ =>
    rw [hdevice] at hrewrites
    cases hrewrites

/-- A phase does the same in both: it looks at nothing that is still to be written. -/
theorem effect (h : netlist.Fading left (netlist.after first left) (netlist.after second left))
    (hwired : netlist.Wired)
    (htrace : netlist.trace first = left ++ .phase part position :: right)
    (hpart : netlist.parts[part]? = some placed) :
    (netlist.after first left).effect netlist part position =
      (netlist.after second left).effect netlist part position := by
  obtain ⟨phase, hphase⟩ := ordinary_of_split htrace
  obtain ⟨owner, howner, hfound⟩ := part_of_phase hphase
  obtain rfl := Option.some.inj (howner.symm.trans hpart)
  rw [State.effect_eq hpart, State.effect_eq hpart]
  exact (hwired.regularAt hpart).alike hfound ⟨h.recalled hwired htrace hpart,
    fun index _ _ => (Prod.mk.inj (h.look_eq ⟨part, index⟩)).1,
    fun index _ => (Prod.mk.inj (h.look_eq ⟨part, index⟩)).2⟩

/-- The last phase of a part turns its pins, and before it they may face either way. -/
theorem facing_apply
    (h : netlist.Fading left (netlist.after first left) (netlist.after second left))
    (hwired : netlist.Wired)
    (heffect : (netlist.after first left).effect netlist ref.part position =
      (netlist.after second left).effect netlist ref.part position)
    (hport : netlist.port? ref = some port) (hpart : netlist.parts[ref.part]? = some placed)
    (hturned : port.type.bidirectional = true → position ≠ placed.device.last →
      .phase ref.part placed.device.last ∈ left) :
    ((((netlist.after first left).effect netlist ref.part position).edit ref.port).apply
        ((netlist.after first left).pin ref)).facing =
      ((((netlist.after second left).effect netlist ref.part position).edit ref.port).apply
        ((netlist.after second left).pin ref)).facing := by
  by_cases hlast : port.type.bidirectional = true ∧ position = placed.device.last
  · obtain ⟨hboth, rfl⟩ := hlast
    obtain ⟨owner, howner, hplace⟩ := part_of_port hport
    obtain rfl := Option.some.inj (howner.symm.trans hpart)
    obtain ⟨value, hedit, -⟩ := (hwired.regularAt hpart).bidirectional
      ((netlist.after first left).part ref.part) (h.sound.fits hpart) hplace hboth
    rw [← heffect, State.effect_eq hpart, hedit]
    cases value <;> rfl
  · rw [heffect]
    exact Edit.facing_apply_congr _ (h.facing hport hpart fun hboth =>
      hturned hboth fun hsame => hlast ⟨hboth, hsame⟩)

theorem phase_step
    (h : netlist.Fading left (netlist.after first left) (netlist.after second left))
    (hwired : netlist.Wired) (hsound : State.Sound netlist first)
    (hsound' : State.Sound netlist second)
    (htrace : netlist.trace first = left ++ .phase part position :: right) :
    netlist.Fading (left ++ [.phase part position])
      (netlist.after first (left ++ [.phase part position]))
      (netlist.after second (left ++ [.phase part position])) := by
  obtain ⟨phase, hphase⟩ := ordinary_of_split htrace
  obtain ⟨owner, howner, -⟩ := part_of_phase hphase
  have heffect := h.effect hwired htrace howner
  have hmem : ∀ {task : Task}, task ∈ left ++ [.phase part position] →
      task ≠ .phase part position → task ∈ left :=
    fun htask hne => (List.mem_append.mp htask).resolve_right fun h => hne (List.mem_singleton.mp h)
  refine ⟨sound_after hwired hsound _, sound_after hwired hsound' _, ?_, ?_, fun hport => ?_,
    fun hport => ?_, fun {ref port placed} hport hpart hturned => ?_,
    fun {index placed} hpart hwritten => ?_⟩
  · rw [after_snoc, after_snoc]
    exact h.nets
  · rw [status_after_phase hwired, status_after_phase hwired, heffect, h.status]
  · have hlook := h.look hport
    obtain ⟨hvalue, hresolved⟩ := Prod.mk.inj hlook
    rw [State.look, State.look, pin_after_phase hwired hsound hport,
      pin_after_phase hwired hsound' hport, heffect]
    split
    · rw [Edit.value_apply, Edit.value_apply, Edit.resolved_apply, Edit.resolved_apply, hvalue,
        hresolved]
    · exact hlook
  · rw [pin_after_phase hwired hsound hport, pin_after_phase hwired hsound' hport, heffect]
    split
    · exact Edit.enabled_apply_congr _ (h.enabled hport)
    · exact h.enabled hport
  · rw [pin_after_phase hwired hsound hport, pin_after_phase hwired hsound' hport]
    split
    · next hsame =>
      subst hsame
      exact h.facing_apply hwired heffect hport hpart fun hboth hne =>
        hmem (hturned hboth) fun heq => hne (Task.phase.inj heq).2.symm
    · next hne =>
      exact h.facing hport hpart fun hboth =>
        hmem (hturned hboth) fun heq => hne (Task.phase.inj heq).1
  · rw [memory_after_phase hwired hsound howner, memory_after_phase hwired hsound' howner, heffect]
    split
    · rfl
    · next hne =>
      exact h.memory hpart fun hrewrites =>
        hmem (hwritten hrewrites) fun heq => hne (Task.phase.inj heq).1

/-! ### The whole settle -/

theorem of_prefix (h : netlist.Fading [] (netlist.begun first) (netlist.begun second))
    (hwired : netlist.Wired) (hsound : State.Sound netlist first)
    (hsound' : State.Sound netlist second) (htrace : netlist.trace first = left ++ right) :
    netlist.Fading left (netlist.after first left) (netlist.after second left) := by
  -- the tasks that ran grow at their end, and so does what has been written
  induction left using List.reverseRecOn generalizing right with
  | nil => exact h
  | append_singleton left task ih =>
    rw [List.append_assoc, List.singleton_append] at htrace
    cases task with
    | net index => exact (ih htrace).net_step hwired hsound hsound' htrace
    | phase part position => exact (ih htrace).phase_step hwired hsound hsound' htrace

theorem agree (h : netlist.Fading [] (netlist.begun first) (netlist.begun second))
    (hwired : netlist.Wired) (hsound : State.Sound netlist first)
    (hsound' : State.Sound netlist second) (htrace : netlist.trace first = left ++ task :: right) :
    netlist.Agree first second left task := by
  have hsplit : netlist.trace first = (left ++ [task]) ++ right := by simp [htrace]
  intro trigger
  cases trigger with
  | fired => rfl
  | driving port =>
    cases task with
    | phase part position =>
      exact (h.of_prefix hwired hsound hsound' hsplit).isDriving hwired hsound hsplit _
    | net index => rfl

theorem executed_eq (h : netlist.Fading [] (netlist.begun first) (netlist.begun second))
    (hwired : netlist.Wired) (hsound : State.Sound netlist first)
    (hsound' : State.Sound netlist second) : netlist.executed second = netlist.executed first :=
  executed_congr fun htrace _ => h.agree hwired hsound hsound' htrace

/-- When a settle is over, everything has been written. -/
theorem final (h : netlist.Fading [] (netlist.begun first) (netlist.begun second))
    (hwired : netlist.Wired) (hsound : State.Sound netlist first)
    (hsound' : State.Sound netlist second) :
    (netlist.final first).Matches (netlist.final second) := by
  have htrace : netlist.trace second = netlist.trace first := by
    rw [trace, trace, h.executed_eq hwired hsound hsound']
  have hdone := h.of_prefix hwired hsound hsound' (List.append_nil (netlist.trace first)).symm
  rw [← final_eq, ← htrace, ← final_eq] at hdone
  have hran : ∀ {part position : Nat} {phase : Phase}, netlist.Ordinary part position phase →
      .phase part position ∈ netlist.trace second :=
    fun hphase => mem_trace.mpr (mem_tasks_phase hphase)
  refine ⟨hdone.nets, hdone.status, fun index => ?_, fun ref => ?_⟩
  · cases hpart : netlist.parts[index]? with
    | none => rw [State.part_eq_default hdone.sound hpart, State.part_eq_default hdone.sound' hpart]
    | some placed =>
      refine hdone.memory hpart fun hrewrites => ?_
      cases hdevice : placed.device with
      | bridge => exact hran (turn_ordinary hwired hpart hdevice)
      | probe =>
        obtain ⟨phase, hphase, hlatch⟩ := (hwired.regularAt hpart).exists_last
        rw [hdevice] at hphase
        exact hran (phase_of_part hpart hphase hlatch)
      | _ =>
        rw [hdevice] at hrewrites
        cases hrewrites
  · cases hport : netlist.port? ref with
    | none => rw [State.pin_eq_default hdone.sound hport, State.pin_eq_default hdone.sound' hport]
    | some port =>
      obtain ⟨placed, hpart, -⟩ := part_of_port hport
      obtain ⟨phase, hphase, hlatch⟩ := (hwired.regularAt hpart).exists_last
      obtain ⟨hvalue, hresolved⟩ := Prod.mk.inj (hdone.look hport)
      exact Pin.unmarked_eq_iff.mpr ⟨hvalue, hdone.enabled hport,
        hdone.facing hport hpart fun _ => hran (phase_of_part hpart hphase hlatch), hresolved⟩

end Fading

/-- A cleared state and a new one differ in what is written anew. -/
theorem fading_cleared {state : State} (hflat : netlist.Flat) (h : State.Sound netlist state)
    (hproper : State.Proper netlist state) (hupright : State.Upright netlist state) (hard : Bool) :
    netlist.Fading [] (netlist.begun (state.cleared netlist hard))
      (netlist.begun (.restarted netlist hard state)) := by
  obtain ⟨hsound, -⟩ := State.sound_reset h hard
  obtain ⟨hsound', -⟩ := State.sound_restarted h hard
  have hnew := State.new_restarted netlist hard state
  have hnets : (state.cleared netlist hard).nets = (State.restarted netlist hard state).nets := by
    rw [State.cleared, State.restarted]
    refine List.ext_getElem (by simp [h.nets]) fun index _ _ => ?_
    simp
  have hpin : ∀ {ref : PortRef} {port : Port}, netlist.port? ref = some port →
      (netlist.begun (state.cleared netlist hard)).pin ref =
        { state.pin ref with value := 0, resolved := true, enabled := !port.type.tristate } ∧
      (netlist.begun (State.restarted netlist hard state)).pin ref =
        { enabled := !port.type.tristate } := by
    intro ref port hport
    rw [pin_begun hsound hport, pin_begun hsound' hport, State.pin_cleared h hard hport, hnew.pin]
    exact ⟨rfl, rfl⟩
  refine ⟨hsound.mapPins _, hsound'.mapPins _, hnets, rfl, fun hport => ?_, fun hport => ?_,
    fun {ref port placed} hport _ hone => ?_, fun {index placed} hpart hkept => ?_⟩
  · rw [State.look, State.look, (hpin hport).1, (hpin hport).2]
  · rw [(hpin hport).1, (hpin hport).2]
  · rw [(hpin hport).1, (hpin hport).2]
    refine hupright ref port hport (Bool.not_eq_true _ ▸ fun hboth => ?_)
    exact List.not_mem_nil (hone hboth)
  · have hforgets : placed.device.rewrites = false :=
      Bool.not_eq_true _ ▸ fun hrewrites => List.not_mem_nil (hkept hrewrites)
    have hnative := hflat.wired.native placed (List.mem_of_getElem? hpart)
    rw [begun, begun, State.memory_mapPins hsound, State.memory_mapPins hsound',
      State.part_cleared h hard hpart, hnew.memory hpart]
    exact Device.reset_eq_spared hnative (hproper index placed hpart) hard hforgets

end Netlist

/-! ## Reset -/

namespace Simulation

variable {library : Library} {schematic : Schematic} {simulation : Simulation}

/-- A reset settles a cleared state, and a new circuit settles a new one. -/
theorem Reachable.reset_matches (h : simulation.Reachable) (hard : Bool) :
    let netlist := simulation.netlist
    let restarted := ofState netlist (.restarted netlist hard simulation.state)
    (simulation.reset hard).schedule = restarted.schedule ∧
      (simulation.reset hard).state.Matches restarted.state ∧
      (simulation.reset hard).executed = restarted.executed := by
  have hcoherent := h.coherent
  have hflat := hcoherent.flat
  obtain ⟨hsound, hloose⟩ := State.sound_reset hcoherent.sound hard
  obtain ⟨hsound', hloose'⟩ := State.sound_restarted hcoherent.sound hard
  let cleared : Simulation :=
    { simulation with state := simulation.state.cleared simulation.netlist hard }
  let new : Simulation :=
    { netlist := simulation.netlist, schedule := compile simulation.netlist
      state := .restarted simulation.netlist hard simulation.state }
  have hcleared : cleared.Coherent := ⟨hflat, hcoherent.schedule, hsound, hloose⟩
  have hnew : new.Coherent := ⟨hflat, rfl, hsound', hloose'⟩
  have hfading := Netlist.fading_cleared hflat hcoherent.sound h.proper h.upright hard
  refine ⟨?_, ?_, ?_⟩
  · exact (schedule_settle cleared).trans (hcoherent.schedule.trans (schedule_settle new).symm)
  · exact (hcleared.tracked_settle.agrees.trans
      (hfading.final hflat.wired hsound hsound')).trans hnew.tracked_settle.agrees.symm
  · exact hcleared.executed_settle.trans
      ((hfading.executed_eq hflat.wired hsound hsound').symm.trans hnew.executed_settle.symm)

/-- A reset circuit is one that is flattened and started afresh, with the settings of its
inputs and, unless the reset is a hard one, with the contents of its memories: in the state
and in the order in which blocks have run. -/
theorem reset_restarts (h : simulation.Runs library schematic) (hard : Bool) :
    let netlist := flatten library schematic
    let restarted := ofState netlist (.restarted netlist hard simulation.state)
    (simulation.reset hard).netlist = restarted.netlist ∧
      (simulation.reset hard).schedule = restarted.schedule ∧
      (simulation.reset hard).state.Matches restarted.state ∧
      (simulation.reset hard).executed = restarted.executed := by
  rw [← h.netlist]
  refine ⟨?_, h.reachable.reset_matches hard⟩
  rw [netlist_reset, ofState, netlist_settle]

/-- A bridge carries the value of a buffer over to a bus with a probe and a register. -/
def bridgedProbe : Schematic where
  components :=
    [⟨"one", Builtin.constant.id, .obj [("value", .int 1)]⟩,
      ⟨"dir", Builtin.input.id, .null⟩, ⟨"s", Builtin.buffer.id, .null⟩,
      ⟨"br", Builtin.bridge.id, .null⟩, ⟨"p", Builtin.probe.id, .null⟩,
      ⟨"r", Builtin.register.id, .null⟩]
  wires :=
    [⟨"e", [⟨"one", "out"⟩, ⟨"s", "en"⟩, ⟨"s", "in"⟩, ⟨"br", "en"⟩]⟩,
      ⟨"d", [⟨"dir", "out"⟩, ⟨"br", "dir"⟩]⟩, ⟨"a", [⟨"br", "a"⟩, ⟨"s", "out"⟩]⟩,
      ⟨"b", [⟨"br", "b"⟩, ⟨"p", "in"⟩, ⟨"r", "d"⟩]⟩]

/-- After a clock cycle a hard reset leads back to the circuit as it was started. -/
theorem reset_restarts_bridged :
    let simulation := (ofNetlist (flatten Library.builtin bridgedProbe)).step
    (simulation.state.part 5).memory = .register 1 ∧
      ((simulation.reset true).state.part 5).memory = .register 0 ∧
      (simulation.reset true).state.Matches
        (ofNetlist (flatten Library.builtin bridgedProbe)).state := by
  have hruns : (ofNetlist (flatten Library.builtin bridgedProbe)).step.Runs Library.builtin
      bridgedProbe :=
    ⟨none, _, .start Library.native_builtin (start_builtin (by decide +kernel)), .step .refl⟩
  obtain ⟨-, -, hmatches, -⟩ := reset_restarts hruns true
  have hfresh : State.restarted (flatten Library.builtin bridgedProbe) true
      (ofNetlist (flatten Library.builtin bridgedProbe)).step.state =
      .fresh (flatten Library.builtin bridgedProbe) := by decide +kernel
  rw [hfresh] at hmatches
  refine ⟨by decide +kernel, ?_, hmatches⟩
  rw [hmatches.memory 5]
  decide +kernel

end Simulation

end Breadboard
