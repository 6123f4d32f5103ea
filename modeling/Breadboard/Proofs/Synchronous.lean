import Breadboard.Proofs.Twins

/-!
# Settled circuits do not remember their history

Two simulations of a static circuit that hold the same in inputs, registers and
memories, whatever they have been through, show the same after a settle in which
every bus has one driver, and hold the same after the clock edge
(`settle_forgets_history`). So they do at the end of every run of such settles
(`Alike.run`): the circuit is a synchronous machine with no other state.
-/

namespace Breadboard

namespace Simulation

variable {first second : Simulation}

/-- After a settle every bus has one driver. -/
def Driven (simulation : Simulation) : Prop :=
  ∀ index net, simulation.netlist.nets[index]? = some net → net.tristate = true →
    (simulation.settle.state.net index).enabledCount = 1

/-- What is done to a circuit from outside. -/
inductive Stimulus where
  | set (path : String) (value : Word)
  | clock
  deriving DecidableEq, Repr

/-- Setting something that is not an input does nothing. A clock edge takes over
what has settled. -/
def stimulate (simulation : Simulation) : Stimulus → Simulation
  | .set path value => (simulation.setInput path value).toOption.getD simulation
  | .clock => simulation.settle.latch

/-- Two simulations of a circuit that hold the same, whatever they have been
through. -/
structure Alike (netlist : Netlist) (first second : Simulation) : Prop where
  reachable : first.Reachable
  reachable' : second.Reachable
  same : first.netlist = netlist
  same' : second.netlist = netlist
  static : netlist.Static
  routed : netlist.Routed
  stored : netlist.SameStored first.state second.state

theorem Coherent.latch_eq {simulation : Simulation} (h : simulation.Coherent) :
    simulation.settle.latch.state = (compile simulation.netlist).latchSteps.foldl
      (fun state (part, phase) => state.runPhase simulation.netlist part phase)
      simulation.settle.state := by
  rw [Simulation.latch, schedule_settle, netlist_settle, h.schedule]

/-- What setting an input does depends on the circuit alone. -/
theorem Coherent.setInput_eq {simulation : Simulation} (h : simulation.Coherent) (path : String)
    (value : Word) : simulation.stimulate (.set path value) =
      match simulation.netlist.partAt? ⟨path⟩ with
      | none => simulation
      | some index =>
        match (simulation.netlist.parts.getD index default).device with
        | .input width _ => simulation.setMemory index (.input (trim width value))
        | _ => simulation := by
  rw [stimulate, Simulation.setInput, partOf, partAt]
  cases simulation.netlist.partAt? ⟨path⟩ with
  | none => rfl
  | some index =>
    have hheld : ∀ width initial,
        (simulation.netlist.parts.getD index default).device = .input width initial →
        ∃ held, (simulation.state.part index).memory = .input held := by
      intro width initial hdevice
      cases hplaced : simulation.netlist.parts[index]? with
      | none =>
        rw [List.getD_eq_getElem?_getD, hplaced] at hdevice
        cases hdevice
      | some placed =>
        have hfits := h.sound.fits hplaced
        rw [List.getD_eq_getElem?_getD, hplaced, Option.getD_some] at hdevice
        rw [hdevice] at hfits
        generalize (simulation.state.part index).memory = memory at hfits
        cases memory with
        | input held => exact ⟨held, rfl⟩
        | _ => exact hfits.elim
    cases hdevice : (simulation.netlist.parts.getD index default).device with
    | input width initial =>
      obtain ⟨held, hmemory⟩ := hheld width initial hdevice
      simp only [bind, Except.bind, pure, Except.pure, hmemory, hdevice]
      rfl
    | _ =>
      cases hmemory : (simulation.state.part index).memory <;>
        simp only [bind, Except.bind, pure, Except.pure, hmemory, hdevice] <;> rfl

namespace Alike

variable {netlist : Netlist}

theorem twins (h : Alike netlist first second) (hdriven : first.Driven) :
    netlist.Twins first.state second.state := by
  obtain ⟨hfirst, hsecond, rfl, hsame, hstatic, -, hstored⟩ := h
  have hcoherent := hfirst.coherent
  have hsound' := hsecond.coherent.sound
  have hblank' := hsecond.kept State.kept_blank
  rw [hsame] at hsound' hblank'
  refine ⟨hcoherent.flat, hstatic, hcoherent.sound, hsound', hfirst.kept State.kept_blank,
    hblank', hstored, fun {index net} hnet htristate => ?_⟩
  rw [← hcoherent.tracked_settle.agrees.net]
  exact hdriven index net hnet htristate

theorem tracked (h : Alike netlist first second) :
    State.Tracked netlist (netlist.final first.state) first.settle.state ∧
      State.Tracked netlist (netlist.final second.state) second.settle.state :=
  ⟨h.same ▸ h.reachable.coherent.tracked_settle, h.same' ▸ h.reachable'.coherent.tracked_settle⟩

theorem observed (h : Alike netlist first second) (hdriven : first.Driven) :
    netlist.Observed first.settle.state second.settle.state :=
  (h.twins hdriven).observed.matches h.tracked.1.agrees h.tracked.2.agrees

theorem stored_latch (h : Alike netlist first second) (hdriven : first.Driven) :
    netlist.SameStored first.settle.latch.state second.settle.latch.state := by
  have hedges := ((h.twins hdriven).edges h.routed).matches h.tracked.1 h.tracked.2
  have hlatched := hedges.foldl (h.same ▸ h.reachable.coherent.flat) (compile netlist).latchSteps
    fun _ hstep => Netlist.mem_latchSteps.mp hstep
  rw [h.reachable.coherent.latch_eq, h.reachable'.coherent.latch_eq, h.same, h.same']
  exact hlatched.stored

theorem setMemory (h : Alike netlist first second) (index : Nat) (memory : Memory) :
    netlist.SameStored (first.setMemory index memory).state
      (second.setMemory index memory).state := by
  intro part placed hpart hstores
  have hlt : part < netlist.parts.length := (List.getElem?_eq_some_iff.mp hpart).1
  by_cases hne : index = part
  · subst hne
    have hfirst := h.reachable.coherent.sound.parts
    have hsecond := h.reachable'.coherent.sound.parts
    rw [h.same] at hfirst
    rw [h.same'] at hsecond
    rw [Simulation.setMemory, Simulation.setMemory, State.part_setPart_self _ _ (hfirst ▸ hlt),
      State.part_setPart_self _ _ (hsecond ▸ hlt)]
  · rw [Simulation.setMemory, Simulation.setMemory, State.part_setPart_of_ne _ _ hne,
      State.part_setPart_of_ne _ _ hne]
    exact h.stored part placed hpart hstores

theorem setInput (h : Alike netlist first second) (path : String) (value : Word) :
    (first.stimulate (.set path value)).netlist = netlist ∧
      (second.stimulate (.set path value)).netlist = netlist ∧
      netlist.SameStored (first.stimulate (.set path value)).state
        (second.stimulate (.set path value)).state := by
  rw [h.reachable.coherent.setInput_eq, h.reachable'.coherent.setInput_eq, h.same, h.same']
  split
  · exact ⟨h.same, h.same', h.stored⟩
  · split
    · exact ⟨h.same, h.same', h.setMemory _ _⟩
    · exact ⟨h.same, h.same', h.stored⟩

/-- Whatever is done to both, they go on holding the same. -/
theorem stimulate (h : Alike netlist first second) (hdriven : first.Driven) (stimulus : Stimulus) :
    Alike netlist (first.stimulate stimulus) (second.stimulate stimulus) := by
  cases stimulus with
  | clock =>
    exact ⟨h.reachable.settle.latch, h.reachable'.settle.latch,
      (netlist_settle first).trans h.same, (netlist_settle second).trans h.same', h.static,
      h.routed, h.stored_latch hdriven⟩
  | set path value =>
    have hreach : ∀ {simulation : Simulation}, simulation.Reachable →
        (simulation.stimulate (.set path value)).Reachable := by
      intro simulation hbefore
      rw [Simulation.stimulate]
      cases hnext : simulation.setInput path value with
      | error _ => exact hbefore
      | ok next => exact hbefore.setInput hnext
    obtain ⟨hfirst, hsecond, hstored⟩ := h.setInput path value
    exact ⟨hreach h.reachable, hreach h.reachable', hfirst, hsecond, h.static, h.routed, hstored⟩

/-- As long as every bus has one driver in the first run, the second one holds the
same. -/
theorem run (h : Alike netlist first second) (stimuli : List Stimulus)
    (hdriven : ∀ done rest, stimuli = done ++ rest →
      (done.foldl Simulation.stimulate first).Driven) :
    Alike netlist (stimuli.foldl Simulation.stimulate first)
      (stimuli.foldl Simulation.stimulate second) := by
  induction stimuli generalizing first second with
  | nil => exact h
  | cons stimulus stimuli ih =>
    refine ih (h.stimulate (hdriven [] _ rfl) stimulus) fun done rest hsplit => ?_
    exact hdriven (stimulus :: done) rest (by rw [hsplit, List.cons_append])

end Alike

/-- What is to be seen after a settle in which every bus has one driver depends on
the inputs, registers and memories alone, and so do the registers and memories
after the clock edge. On runs of such settles the circuit is therefore a machine
without any other state. -/
theorem settle_forgets_history (hfirst : first.Reachable) (hsecond : second.Reachable)
    (hsame : second.netlist = first.netlist) (hstatic : first.netlist.Static)
    (hrouted : first.netlist.Routed)
    (hstored : first.netlist.SameStored first.state second.state) (hdriven : first.Driven) :
    first.netlist.Observed first.settle.state second.settle.state ∧
    first.netlist.SameStored first.settle.latch.state second.settle.latch.state ∧
    ∀ stimuli : List Stimulus,
      (∀ done rest, stimuli = done ++ rest → (done.foldl stimulate first).Driven) →
      first.netlist.Observed (stimuli.foldl stimulate first).settle.state
        (stimuli.foldl stimulate second).settle.state := by
  have h : Alike first.netlist first second :=
    ⟨hfirst, hsecond, rfl, hsame, hstatic, hrouted, hstored⟩
  exact ⟨h.observed hdriven, h.stored_latch hdriven, fun stimuli hrun =>
    (h.run stimuli hrun).observed (hrun stimuli [] (List.append_nil _).symm)⟩

/-- A buffer puts an input on the bus of a memory and a register. -/
def bufferedMemory : Schematic where
  components :=
    [⟨"one", Builtin.constant.id, .obj [("value", .int 1)]⟩,
      ⟨"x", Builtin.input.id, .obj [("value", .int 1)]⟩, ⟨"s", Builtin.buffer.id, .null⟩,
      ⟨"m", Builtin.ram.id, .obj [("addrWidth", .int 1)]⟩, ⟨"r", Builtin.register.id, .null⟩,
      ⟨"p", Builtin.probe.id, .null⟩]
  wires :=
    [⟨"e", [⟨"one", "out"⟩, ⟨"s", "en"⟩, ⟨"m", "we"⟩]⟩,
      ⟨"a", [⟨"x", "out"⟩, ⟨"s", "in"⟩, ⟨"m", "addr"⟩]⟩,
      ⟨"b", [⟨"s", "out"⟩, ⟨"m", "data"⟩, ⟨"r", "d"⟩]⟩, ⟨"q", [⟨"r", "q"⟩, ⟨"p", "in"⟩]⟩]

/-- A hard reset makes the circuit forget a clock edge. -/
theorem settle_forgets_history_reset :
    let first := ofNetlist (flatten Library.builtin bufferedMemory)
    let second := first.latch.reset true
    first.settle.state.net 2 = second.settle.state.net 2 ∧
      (first.settle.latch.state.part 4).memory = .register 1 ∧
      (first.settle.latch.state.part 3).memory = (second.settle.latch.state.part 3).memory := by
  have hfirst : (ofNetlist (flatten Library.builtin bufferedMemory)).Reachable :=
    reachable_ofNetlist (by decide +kernel)
  have hstored : ∀ entry ∈ (flatten Library.builtin bufferedMemory).parts.zipIdx,
      entry.1.device.stores = true →
        ((ofNetlist (flatten Library.builtin bufferedMemory)).state.part entry.2).memory =
          (((ofNetlist (flatten Library.builtin bufferedMemory)).latch.reset true).state.part
            entry.2).memory := by decide +kernel
  have hdriven : ∀ entry ∈ (flatten Library.builtin bufferedMemory).nets.zipIdx,
      entry.1.tristate = true →
        ((ofNetlist (flatten Library.builtin bufferedMemory)).settle.state.net
          entry.2).enabledCount = 1 := by decide +kernel
  obtain ⟨hobserved, hlatched, -⟩ := settle_forgets_history hfirst (hfirst.latch.reset true) rfl
    (by decide +kernel) (by decide +kernel)
    (fun part placed hpart =>
      hstored (placed, part) (List.mk_mem_zipIdx_iff_getElem?.mpr hpart))
    (fun index net hnet => hdriven (net, index) (List.mk_mem_zipIdx_iff_getElem?.mpr hnet))
  exact ⟨hobserved.net 2, by decide +kernel,
    hlatched 3 ((flatten Library.builtin bufferedMemory).parts.getD 3 default) rfl
      (by decide +kernel)⟩

end Simulation

end Breadboard
