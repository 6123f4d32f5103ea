import Breadboard.Proofs.Proper
import Breadboard.Proofs.Static
import Breadboard.Proofs.Synchronous
import Breadboard.Proofs.Turning

/-!
# What the readers of a net show

A net gives its value to its readers, and one that is left open keeps its value as they
keep theirs. So a reader shows what its net shows, whether the net is resolved or not
(`Netlist.target_final`). The exception are pins that face both ways: such a pin can drive
a value of its own that its net does not take over, because the net counts other drivers
as well or was resolved before. It then shows its own value until the net is decided
again, and is adrift for as long (`Simulation.Adrift`).
-/

namespace Breadboard

namespace Netlist

variable {netlist : Netlist} {state : State} {ref : PortRef} {port : Port} {placed : Part}
  {index : Nat} {net : Net} {left middle right : List Task}

/-- The last phase of its part lets a pin drive, or lets go of it. -/
theorem exists_drive (hwired : netlist.Wired) (h : State.Sound netlist state)
    (hport : netlist.port? ref = some port) (hpart : netlist.parts[ref.part]? = some placed)
    (hboth : port.type.bidirectional = true) (left : List Task) :
    ∃ value, (netlist.after state (left ++ [.phase ref.part placed.device.last])).pin ref =
      ((netlist.after state left).pin ref).drive port.type.bidirectional value := by
  obtain ⟨owner, howner, hplace⟩ := part_of_port hport
  obtain rfl := Option.some.inj (howner.symm.trans hpart)
  obtain ⟨value, hedit, -⟩ := (hwired.regularAt hpart).bidirectional
    ((netlist.after state left).part ref.part) ((sound_after hwired h left).fits hpart) hplace hboth
  refine ⟨value, ?_⟩
  rw [pin_after_phase hwired h hport, if_pos rfl, State.effect_eq hpart, hedit, hboth]
  rfl

/-! ## The two orders -/

/-- A pin that faces both ways listens to one net. -/
theorem not_target_of_not_mem {tasks : List Task} (hflat : netlist.Flat)
    (hnet : netlist.nets[index]? = some net) (htarget : ref ∈ net.targets)
    (hport : netlist.port? ref = some port) (hboth : port.type.bidirectional = true)
    (hnone : .net index ∉ tasks) (other : Nat) (hother : .net other ∈ tasks) :
    ref ∉ (netlist.nets.getD other default).targets := by
  intro hreads
  obtain rfl := hflat.eq_of_bidirectional hport hboth
    (input_of_mem_targets hflat.wired hport hreads).2 ⟨net, hnet, Or.inr htarget⟩
  exact hnone hother

/-- A pin that is driven before its net is resolved hears its net last. -/
theorem timely_final (hflat : netlist.Flat) (h : State.Sound netlist state)
    (hnet : netlist.nets[index]? = some net) (htarget : ref ∈ net.targets)
    (hport : netlist.port? ref = some port) (hpart : netlist.parts[ref.part]? = some placed)
    (hboth : port.type.bidirectional = true)
    (htrace : netlist.trace state = left ++ .net index :: right)
    (hlast : .phase ref.part placed.device.last ∈ left) :
    ∃ (pin : Pin) (value : Option Word), pin.value = (state.pin ref).value ∧
      (netlist.final state).pin ref = (pin.drive port.type.bidirectional value).hear
        ((netlist.after state left).verdict netlist index).1 := by
  have hwired := hflat.wired
  obtain ⟨hbefore, hbehind⟩ := not_mem_split htrace
  have hquiet {tasks : List Task} (hnone : .net index ∉ tasks) :=
    not_target_of_not_mem hflat hnet htarget hport hboth hnone
  -- the pin is driven between `early` and `middle`, and hears its net behind `left`
  obtain ⟨early, middle, hsplit⟩ := List.append_of_mem hlast
  have hlater : left = early ++ [.phase ref.part placed.device.last] ++ middle := by
    rw [hsplit, List.append_assoc, List.singleton_append]
  have hmiddle : .net index ∉ middle := fun hmem =>
    hbefore (hsplit ▸ List.mem_append_right _ (List.mem_cons_of_mem _ hmem))
  have hearly : .net index ∉ early := fun hmem => hbefore (hsplit ▸ List.mem_append_left _ hmem)
  have hwhole : netlist.trace state =
      early ++ .phase ref.part placed.device.last :: (middle ++ .net index :: right) := by
    rw [htrace, hsplit, List.append_assoc, List.cons_append]
  obtain ⟨value, hdrive⟩ := exists_drive hwired h hport hpart hboth early
  refine ⟨(netlist.after state early).pin ref, value, ?_, ?_⟩
  · exact congrArg Prod.fst (look_early hwired h (fun _ _ => ordinary_of_mem_left hwhole) hport hpart
      (not_mem_split hwhole).1 (hquiet hearly))
  · have hnext : netlist.trace state = (left ++ [.net index]) ++ right := by simp [htrace]
    have hdriven : (netlist.after state left).pin ref =
        ((netlist.after state early).pin ref).drive port.type.bidirectional value := by
      rw [hlater, List.append_assoc] at htrace
      rw [hlater, pin_between hwired h htrace hport hpart (by simp) (hquiet hmiddle), hdrive]
    rw [← pin_final hwired h hnext hport hpart (List.mem_append_left _ hlast) (hquiet hbehind),
      pin_after_net hwired h hport, if_pos (by rwa [getD_nets hnet]), hdriven]

/-- A pin whose net is resolved before it is driven shows what it is driven with. -/
theorem late_final (hflat : netlist.Flat) (h : State.Sound netlist state)
    (hnet : netlist.nets[index]? = some net) (htarget : ref ∈ net.targets)
    (hport : netlist.port? ref = some port) (hpart : netlist.parts[ref.part]? = some placed)
    (hboth : port.type.bidirectional = true)
    (htrace : netlist.trace state = left ++ .net index :: right)
    (hlast : .phase ref.part placed.device.last ∉ left) :
    ∃ (pin : Pin) (value : Option Word),
      pin.value = ((netlist.after state left).verdict netlist index).1.getD (state.pin ref).value ∧
      (netlist.final state).pin ref = pin.drive port.type.bidirectional value := by
  have hwired := hflat.wired
  obtain ⟨hbefore, hbehind⟩ := not_mem_split htrace
  have hquiet {tasks : List Task} (hnone : .net index ∉ tasks) :=
    not_target_of_not_mem hflat hnet htarget hport hboth hnone
  obtain ⟨phase, hphase, hlatch⟩ := (hwired.regularAt hpart).exists_last
  have hmem : .phase ref.part placed.device.last ∈ netlist.trace state :=
    mem_trace.mpr (mem_tasks_phase (phase_of_part hpart hphase hlatch))
  rw [htrace] at hmem
  obtain ⟨middle, late, rfl⟩ := List.append_of_mem
    ((List.mem_cons.mp ((List.mem_append.mp hmem).resolve_left hlast)).resolve_left nofun)
  simp only [List.mem_append, List.mem_cons, not_or] at hbehind
  have hwhole : netlist.trace state = (left ++ [.net index] ++ middle) ++
      .phase ref.part placed.device.last :: late := by simp [htrace]
  have hnot := (not_mem_split hwhole).1
  obtain ⟨value, hdrive⟩ := exists_drive hwired h hport hpart hboth (left ++ [.net index] ++ middle)
  refine ⟨(netlist.after state (left ++ [.net index] ++ middle)).pin ref, value, ?_, ?_⟩
  · have hbetween := look_between hwired h (List.append_assoc .. ▸ hwhole) hport hpart
      (fun hmem => hnot (List.mem_append_right _ hmem)) (hquiet hbehind.1)
    have hbegun := look_early hwired h (fun _ _ => ordinary_of_mem_left htrace) hport hpart hlast
      (hquiet hbefore)
    rw [(Prod.mk.inj hbetween).1, pin_after_net hwired h hport, if_pos (by rwa [getD_nets hnet]),
      Pin.value_hear, (Prod.mk.inj hbegun).1]
  · have hnext : netlist.trace state = (left ++ [.net index] ++ middle ++
        [.phase ref.part placed.device.last]) ++ late := by simp [htrace]
    rw [← pin_final hwired h hnext hport hpart (by simp) (hquiet hbehind.2.2), hdrive]

/-! ## Readers -/

/-- A pin that does not drive shows what its net decided. -/
theorem value_of_input (hwired : netlist.Wired) (hsingle : netlist.Single)
    (h : State.Sound netlist state) (hnet : netlist.nets[index]? = some net)
    (htarget : ref ∈ net.targets) (hport : netlist.port? ref = some port)
    (houtput : port.type.output = false)
    (htrace : netlist.trace state = left ++ .net index :: right) :
    ((netlist.final state).pin ref).value =
      ((netlist.after state left).verdict netlist index).1.getD (state.pin ref).value := by
  obtain ⟨hbefore, hbehind⟩ := not_mem_split htrace
  have hquiet {tasks : List Task} (hnone : .net index ∉ tasks) (other : Nat)
      (hother : .net other ∈ tasks) : ref ∉ (netlist.nets.getD other default).targets := by
    intro hreads
    obtain rfl := hsingle other index ref (input_of_mem_targets hwired hport hreads).2
      ⟨net, hnet, Or.inr htarget⟩
    exact hnone hother
  have hsplit : netlist.trace state = (left ++ [.net index]) ++ right := by simp [htrace]
  have hfinal := look_final hwired h hsplit hport houtput (hquiet hbehind)
  have hbegun := after_eq_begun left (State.look ref) hwired h fun task htask state' hstate => by
    cases task with
    | net other =>
      rw [State.look, State.pin_net hstate hport (hquiet hbefore other htask)]
      rfl
    | phase part position =>
      obtain ⟨phase, hphase⟩ := ordinary_of_mem_left htrace htask
      exact State.look_phase hwired hstate hport houtput hphase
  have hheard : (netlist.after state (left ++ [.net index])).pin ref = _ :=
    pin_after_net hwired h hport
  rw [if_pos (by rwa [getD_nets hnet])] at hheard
  obtain ⟨hvalue, -⟩ := Prod.mk.inj hbegun
  rw [pin_begun h hport] at hvalue
  rw [← (Prod.mk.inj hfinal).1, hheard, Pin.value_hear, hvalue]

/-- A pin that does not drive in the end shows what its net decided. -/
theorem value_released (hflat : netlist.Flat) (hsingle : netlist.Single)
    (h : State.Sound netlist state) (hnet : netlist.nets[index]? = some net)
    (htarget : ref ∈ net.targets) (htrace : netlist.trace state = left ++ .net index :: right)
    (hfree : Net.isDriving netlist (netlist.final state) ref = false) :
    ((netlist.final state).pin ref).value =
      ((netlist.after state left).verdict netlist index).1.getD (state.pin ref).value := by
  have hwired := hflat.wired
  obtain ⟨port, hattached, hinput⟩ := hwired.target hnet htarget
  have hport := hattached.found
  obtain ⟨placed, hpart, -⟩ := part_of_port hport
  cases houtput : port.type.output with
  | false => exact value_of_input hwired hsingle h hnet htarget hport houtput htrace
  | true =>
    have hboth : port.type.bidirectional = true := by simp [PortType.bidirectional, hinput, houtput]
    rw [isDriving_eq hport] at hfree
    by_cases hlast : .phase ref.part placed.device.last ∈ left
    · obtain ⟨pin, value, hbefore, hafter⟩ :=
        timely_final hflat h hnet htarget hport hpart hboth htrace hlast
      rw [hafter, Pin.drives_hear, Pin.drives_drive, houtput] at hfree
      cases value with
      | none => rw [hafter, Pin.value_hear, ← hbefore, Pin.drive]
      | some value => cases hfree
    · obtain ⟨pin, value, hbefore, hafter⟩ :=
        late_final hflat h hnet htarget hport hpart hboth htrace hlast
      rw [hafter, Pin.drives_drive, houtput] at hfree
      cases value with
      | none => rw [hafter, ← hbefore, Pin.drive]
      | some value => cases hfree

/-- A pin that drove in time shows what its net decided, if it decided on something. -/
theorem value_timely (hflat : netlist.Flat) (h : State.Sound netlist state)
    (hnet : netlist.nets[index]? = some net) (htarget : ref ∈ net.targets)
    (htrace : netlist.trace state = left ++ .net index :: right)
    (hdriving : Net.isDriving netlist (netlist.final state) ref = true)
    (htimely : netlist.drivenBefore state index ref = true) {word : Word}
    (hdecided : ((netlist.after state left).verdict netlist index).1 = some word) :
    ((netlist.final state).pin ref).value = word := by
  obtain ⟨port, hattached, hinput⟩ := hflat.wired.target hnet htarget
  have hport := hattached.found
  obtain ⟨placed, hpart, -⟩ := part_of_port hport
  rw [isDriving_eq hport] at hdriving
  have houtput : port.type.output = true := by
    simp only [Pin.drives, Bool.and_eq_true] at hdriving
    exact hdriving.1.1
  have hboth : port.type.bidirectional = true := by simp [PortType.bidirectional, hinput, houtput]
  rw [drivenBefore_eq hflat.wired htrace hport hpart houtput, decide_eq_true_eq] at htimely
  obtain ⟨pin, value, -, hafter⟩ :=
    timely_final hflat h hnet htarget hport hpart hboth htrace htimely
  rw [hafter, hdecided]
  rfl

/-- What a settle makes of a reader of a net: it shows what the net shows, or it drives and
the net has not taken its value over, or both have kept what they showed. -/
theorem target_final (hflat : netlist.Flat) (hsingle : netlist.Single)
    (h : State.Sound netlist state) (hnet : netlist.nets[index]? = some net)
    (htarget : ref ∈ net.targets) :
    let after := netlist.final state
    (after.pin ref).value = (after.net index).value ∨
    (Net.isDriving netlist after ref = true ∧
      ((after.net index).enabledCount = 1 → netlist.drivenBefore state index ref = false)) ∨
    (Net.isDriving netlist after ref = false ∧ (after.net index).enabledCount ≠ 1 ∧
      (after.pin ref).value = (state.pin ref).value ∧
      (after.net index).value = (state.net index).value) := by
  intro after
  obtain ⟨left, right, htrace⟩ := exists_split hnet state
  have hshown := net_final hflat.wired h htrace (List.getElem?_eq_some_iff.mp hnet).1
  have hone := @decides_of_one netlist index net (netlist.after state left) hnet
  cases hdriving : Net.isDriving netlist after ref with
  | false =>
    have hvalue := value_released hflat hsingle h hnet htarget htrace hdriving
    cases hdecided : ((netlist.after state left).verdict netlist index).1 with
    | some word =>
      rw [hdecided] at hvalue hshown
      exact Or.inl (hvalue.trans (congrArg NetState.value hshown).symm)
    | none =>
      rw [hdecided] at hvalue hshown hone
      refine Or.inr <| Or.inr
        ⟨rfl, fun hcount => ?_, hvalue, (congrArg NetState.value hshown).trans rfl⟩
      cases hone ((congrArg NetState.enabledCount hshown).symm.trans hcount)
  | true =>
    by_cases htaken : (after.net index).enabledCount = 1 ∧
        netlist.drivenBefore state index ref = true
    · obtain ⟨hcount, htimely⟩ := htaken
      obtain ⟨word, hdecided⟩ := Option.isSome_iff_exists.mp
        (hone ((congrArg NetState.enabledCount hshown).symm.trans hcount))
      rw [hdecided] at hshown
      exact Or.inl ((value_timely hflat h hnet htarget htrace hdriving htimely hdecided).trans
        (congrArg NetState.value hshown).symm)
    · exact Or.inr (Or.inl ⟨rfl, fun hcount =>
        Bool.not_eq_true _ ▸ fun htimely => htaken ⟨hcount, htimely⟩⟩)

end Netlist

/-! ## Circuits in use -/

namespace Simulation

/-- The pin may show something else than its net. In a settle it drove, but not alone or not
in time, and since then the net has counted no driver that it could take over, nor has
the circuit been reset. -/
inductive Adrift (index : Nat) (ref : PortRef) : Simulation → Prop where
  | drove {simulation : Simulation} : simulation.Coherent →
      Net.isDriving simulation.netlist simulation.settle.state ref = true →
      ((simulation.settle.state.net index).enabledCount = 1 →
        simulation.netlist.drivenBefore simulation.state index ref = false) →
      Adrift index ref simulation.settle
  | settle {simulation : Simulation} : Adrift index ref simulation →
      Net.isDriving simulation.netlist simulation.settle.state ref = false →
      (simulation.settle.state.net index).enabledCount ≠ 1 → Adrift index ref simulation.settle
  | latch {simulation : Simulation} :
      Adrift index ref simulation → Adrift index ref simulation.latch
  | setInput {simulation next : Simulation} {path : String} {value : Word} :
      Adrift index ref simulation → simulation.setInput path value = .ok next →
      Adrift index ref next
  | writeRam {simulation next : Simulation} {path : String} {addr : Nat} {value : Word} :
      Adrift index ref simulation → simulation.writeRam path addr value = .ok next →
      Adrift index ref next
  | withUsageTracking {simulation : Simulation} (enabled : Bool) :
      Adrift index ref simulation → Adrift index ref (simulation.withUsageTracking enabled)
  | traceUsage {simulation : Simulation} :
      Adrift index ref simulation → Adrift index ref simulation.traceUsage

/-- The pin shows what its net shows, or it faces both ways and is adrift. -/
def Follows (index : Nat) (ref : PortRef) (simulation : Simulation) : Prop :=
  (simulation.state.pin ref).value = (simulation.state.net index).value ∨
    (∃ port, simulation.netlist.port? ref = some port ∧ port.type.bidirectional = true) ∧
      Adrift index ref simulation

variable {simulation next first : Simulation} {library : Library} {schematic : Schematic}
  {previous : Option Simulation} {index : Nat} {ref : PortRef} {net : Net}

/-- What changes neither the pin nor the net lets the pin follow. -/
theorem Follows.frame (h : Follows index ref simulation)
    (hnetlist : next.netlist = simulation.netlist)
    (hpin : (next.state.pin ref).value = (simulation.state.pin ref).value)
    (hnet : next.state.net index = simulation.state.net index)
    (hadrift : Adrift index ref simulation → Adrift index ref next) : Follows index ref next := by
  rw [Follows, hpin, hnet, hnetlist]
  exact h.imp_right fun h => ⟨h.1, hadrift h.2⟩

theorem Follows.settle (h : Follows index ref simulation) (hcoherent : simulation.Coherent)
    (hsingle : simulation.netlist.Single) (hnet : simulation.netlist.nets[index]? = some net)
    (htarget : ref ∈ net.targets) : Follows index ref simulation.settle := by
  have hmatches := hcoherent.tracked_settle.agrees
  have hdriving : Net.isDriving simulation.netlist simulation.settle.state ref =
      Net.isDriving simulation.netlist (simulation.netlist.final simulation.state) ref :=
    hmatches.drives ref _
  have hcases := Netlist.target_final hcoherent.flat hsingle hcoherent.sound hnet htarget
  dsimp only at hcases
  rw [← hdriving, ← hmatches.net, ← hmatches.value] at hcases
  rcases hcases with hshown | ⟨hdrives, hmissed⟩ | ⟨hfree, hopen, hpin, hkept⟩
  · exact Or.inl hshown
  · obtain ⟨port, hattached, hinput⟩ := hcoherent.flat.wired.target hnet htarget
    refine Or.inr ⟨⟨port, ?_, ?_⟩, .drove hcoherent hdrives hmissed⟩
    · rw [netlist_settle]
      exact hattached.found
    · rw [Netlist.isDriving_eq hattached.found] at hdrives
      simp only [Pin.drives, Bool.and_eq_true] at hdrives
      rw [PortType.bidirectional, hinput, hdrives.1.1]
      rfl
  · rw [Follows, netlist_settle, hpin, hkept]
    exact h.imp_right fun h => ⟨h.1, .settle h.2 hfree hopen⟩

/-- A clock edge changes memories, and neither pins nor nets. -/
theorem Coherent.shown_latch (h : simulation.Coherent) (ref : PortRef) :
    simulation.latch.state.pin ref = simulation.state.pin ref ∧
      simulation.latch.state.nets = simulation.state.nets := by
  have hsteps : ∀ task ∈ simulation.schedule.latchSteps.map fun step => Task.phase step.1 step.2,
      ∀ state, State.Sound simulation.netlist state →
        ((state.perform simulation.netlist task).pin ref,
          (state.perform simulation.netlist task).nets) = (state.pin ref, state.nets) := by
    intro task htask state hstate
    obtain ⟨step, hstep, rfl⟩ := List.mem_map.mp htask
    rw [h.schedule] at hstep
    obtain ⟨phase, hphase, hlatch⟩ := Netlist.mem_latchSteps.mp hstep
    rw [Netlist.pin_latch h.flat hstate hphase hlatch]
    rfl
  have hframe := State.foldl_frame (f := fun state => (state.pin ref, state.nets))
    h.flat.wired.native hsteps h.sound
  rw [List.foldl_map] at hframe
  exact Prod.mk.inj hframe

theorem Follows.latch (h : Follows index ref simulation) (hcoherent : simulation.Coherent) :
    Follows index ref simulation.latch := by
  obtain ⟨hpin, hnets⟩ := hcoherent.shown_latch ref
  refine h.frame rfl (by rw [hpin]) ?_ .latch
  rw [State.net, hnets, State.net]

theorem Follows.poked (h : Follows index ref simulation) (hcoherent : simulation.Coherent)
    (hpoked : next = simulation ∨ simulation.Poked next)
    (hadrift : Adrift index ref simulation → Adrift index ref next) : Follows index ref next := by
  rcases hpoked with rfl | ⟨changed, placed, memory, hplaced, hdevice, rfl⟩
  · exact h
  · refine h.frame rfl ?_ rfl hadrift
    have hsame := (State.sound_setMemory hcoherent.sound fun owner howner =>
      Option.some.inj (hplaced.symm.trans howner) ▸ hdevice.fits (hcoherent.sound.fits hplaced)).2
    exact congrArg Pin.value (hsame ref)

theorem Follows.traceUsage (h : Follows index ref simulation) (hcoherent : simulation.Coherent) :
    Follows index ref simulation.traceUsage := by
  have hmatches := (State.tracked_traceUsage simulation.schedule simulation.executed
    hcoherent.sound).agrees
  exact h.frame rfl (hmatches.value ref) (hmatches.net index) .traceUsage

theorem Follows.withUsageTracking (h : Follows index ref simulation)
    (hcoherent : simulation.Coherent) (enabled : Bool) :
    Follows index ref (simulation.withUsageTracking enabled) := by
  cases enabled with
  | false => exact h.frame rfl rfl rfl (.withUsageTracking false)
  | true =>
    have hmatches := (State.tracked_traceUsage simulation.schedule simulation.executed
      hcoherent.sound).agrees
    exact h.frame rfl (hmatches.value ref) (hmatches.net index) (.withUsageTracking true)

/-- Whatever is done with a circuit, the readers of its nets follow. -/
theorem Continues.follows (h : first.Continues simulation) (hfirst : first.Reachable)
    (hsingle : first.netlist.Single) (hnet : first.netlist.nets[index]? = some net)
    (htarget : ref ∈ net.targets) (hbegun : Follows index ref first) :
    Follows index ref simulation := by
  induction h with
  | refl => exact hbegun
  | withUsageTracking enabled hbefore ih =>
    exact ih.withUsageTracking (hbefore.reachable hfirst).coherent enabled
  | traceUsage hbefore ih => exact ih.traceUsage (hbefore.reachable hfirst).coherent
  | setInput hbefore hnext ih =>
    exact ih.poked (hbefore.reachable hfirst).coherent (setInput_poked hnext)
      fun h => h.setInput hnext
  | writeRam hbefore hnext ih =>
    exact ih.poked (hbefore.reachable hfirst).coherent (writeRam_poked hnext)
      fun h => h.writeRam hnext
  | settle hbefore ih =>
    rw [← hbefore.netlist] at hsingle hnet
    exact ih.settle (hbefore.reachable hfirst).coherent hsingle hnet htarget
  | latch hbefore ih => exact ih.latch (hbefore.reachable hfirst).coherent
  | @step simulation hbefore ih =>
    have hcoherent := (hbefore.reachable hfirst).coherent
    rw [← hbefore.netlist] at hsingle hnet
    have hlatch := ih.latch hcoherent
    obtain ⟨-, hstep⟩ | ⟨-, -, hstep⟩ | ⟨-, -, hstep⟩ := simulation.step_cases <;> rw [hstep]
    · exact ih
    · exact hlatch
    · exact hlatch.settle hcoherent.latch hsingle hnet htarget
  | @reset simulation hard hbefore ih =>
    have h := (hbefore.reachable hfirst).coherent
    rw [← hbefore.netlist] at hsingle hnet
    obtain ⟨hsound, hloose⟩ := State.sound_reset h.sound hard
    let cleared : Simulation :=
      { simulation with state := simulation.state.cleared simulation.netlist hard }
    -- cleared, pin and net both show zero, so whatever was adrift no longer is
    have hcleared : Follows index ref cleared := by
      obtain ⟨port, hattached, -⟩ := h.flat.wired.target hnet htarget
      refine Or.inl (Eq.trans ?_ (State.value_net_cleared ..).symm)
      exact congrArg Pin.value (State.pin_cleared h.sound hard hattached.found)
    exact hcleared.settle ⟨h.flat, h.schedule, hsound, hloose⟩ hsingle hnet htarget

theorem Reachable.stimulate (h : simulation.Reachable) (stimulus : Stimulus) :
    (simulation.stimulate stimulus).Reachable := by
  cases stimulus with
  | set path value =>
    rw [Simulation.stimulate]
    cases hnext : simulation.setInput path value with
    | error _ => exact h
    | ok next => exact h.setInput hnext
  | clock => exact h.settle.latch

/-- A register listens to a bus that a buffer drives while its input is set. -/
def bufferedRegister : Schematic where
  components :=
    [⟨"one", Builtin.constant.id, .obj [("value", .int 1)]⟩,
      ⟨"en", Builtin.input.id, .obj [("value", .int 1)]⟩, ⟨"s", Builtin.buffer.id, .null⟩,
      ⟨"r", Builtin.register.id, .null⟩]
  wires :=
    [⟨"a", [⟨"one", "out"⟩, ⟨"s", "in"⟩]⟩, ⟨"e", [⟨"en", "out"⟩, ⟨"s", "en"⟩]⟩,
      ⟨"b", [⟨"s", "out"⟩, ⟨"r", "d"⟩]⟩]

/-- The buffer has let go of the bus. -/
def released : Simulation :=
  ((ofNetlist (flatten Library.builtin bufferedRegister)).stimulate (.set "en" 0)).settle

end Simulation

end Breadboard
