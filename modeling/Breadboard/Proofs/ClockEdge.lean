import Breadboard.Proofs.Renumbered
import Breadboard.Proofs.Restart

/-!
# The two phases of the clock

A settle moves values and leaves alone what is stored; the clock edge stores values
and moves nothing. `Part.clocked` is what a part makes of the edge when it looks at
nothing but itself, and `clock_edge_commits_at_once` says that the edge is no more
than this, done by all parts at once: no latch phase sees the effect of another one,
so that their order does not matter and a second edge finds nothing left to do.
-/

namespace Breadboard

/-- What a part remembers behind its latch phase, which sees its own pins and memory
alone. -/
def Part.clocked (part : Part) (held : PartState) : Memory :=
  match part.phases.findIdx? (·.latch) with
  | some position => (part.device.run part.ports position held .running).1.memory
  | none => held.memory

theorem Part.Built.clocked_of_latch {part : Part} {phase : Phase} (h : part.Built)
    (hphase : part.phases[1]? = some phase) (hlatch : phase.latch = true) (held : PartState) :
    part.clocked held = (part.device.effect part.ports 1 held).memory := by
  have hfirst : part.phases.findIdx? (·.latch) = some 1 := by
    obtain ⟨hlt, rfl⟩ := List.getElem?_eq_some_iff.mp hphase
    refine List.findIdx?_eq_some_iff_getElem.mpr ⟨hlt, hlatch, fun position hposition hearly => ?_⟩
    have hsecond := (h.position_of_latch (List.getElem?_eq_getElem _) hearly).1
    omega
  have hnative : part.device.Native := h.regular.native
  rw [clocked, hfirst]
  dsimp only
  rw [Device.run_eq hnative]
  rfl

theorem Part.clocked_of_no_latch {part : Part} (hnone : ∀ phase ∈ part.phases, phase.latch = false)
    (held : PartState) : part.clocked held = held.memory := by
  have hfirst : part.phases.findIdx? (·.latch) = none :=
    List.findIdx?_eq_none_iff.mpr hnone
  rw [clocked, hfirst]

/-- An edge that sees the same pins again stores the same again. -/
theorem Device.memory_effect_twice {device : Device} (hstores : device.stores = true)
    (ports : List Port) (held : PartState) :
    (device.effect ports 1 { held with memory := (device.effect ports 1 held).memory }).memory =
      (device.effect ports 1 held).memory := by
  obtain ⟨pins, memory⟩ := held
  cases device with
  | input width initial => cases memory <;> rfl
  | register =>
    cases memory with
    | register value =>
      have hedge : ∀ value, Device.register.effect ports 1 ⟨pins, .register value⟩ =
          .idle (.register (if !(ports.getD 1 default).bound || (pins.getD 1 {}).value ≠ 0 then
            (pins.getD 0 {}).value else value)) := by
        intro value
        simp only [effect, PartState.pin, Nat.one_ne_zero, if_false]
        exact (apply_ite (fun word => Effect.idle (.register word)) _ _ _).symm
      simp only [hedge, Effect.idle]
      split <;> rfl
    | _ => rfl
  | ram addrWidth width =>
    cases memory with
    | ram cells =>
      have hedge : ∀ cells, (Device.ram addrWidth width).effect ports 1 ⟨pins, .ram cells⟩ =
          .idle (.ram (if (pins.getD 2 {}).value ≠ 0 then
            cells.setIfInBounds (cellOf cells (pins.getD 0 {}).value)
              (trim width (pins.getD 1 {}).value) else cells)) := by
        intro cells
        simp only [effect, PartState.pin, Nat.one_ne_zero, if_false]
        exact (apply_ite (fun cells => Effect.idle (.ram cells)) _ _ _).symm
      simp only [hedge, Effect.idle]
      split
      · simp only [cellOf, Array.size_setIfInBounds, Array.setIfInBounds_setIfInBounds]
      · rfl
    | _ => rfl
  | _ => cases hstores

namespace State

variable {netlist : Netlist} {first second : State}

theorem Level.eq (h : first.Level second) (hstatus : first.status = second.status) :
    first = second := by
  obtain ⟨parts, nets, status⟩ := first
  obtain ⟨parts', nets', status'⟩ := second
  obtain rfl : parts = parts' := h.parts
  obtain rfl : nets = nets' := h.nets
  obtain rfl : status = status' := hstatus
  rfl

theorem Sound.pins_congr (h : Sound netlist first) (h' : Sound netlist second)
    (hpin : ∀ ref, first.pin ref = second.pin ref) (index : Nat) :
    (first.part index).pins = (second.part index).pins := by
  cases hpart : netlist.parts[index]? with
  | none => rw [part_eq_default h hpart, part_eq_default h' hpart]
  | some placed =>
    refine List.ext_getElem ((h.pins hpart).trans (h'.pins hpart).symm) fun port hport hport' => ?_
    have heq := hpin ⟨index, port⟩
    simpa [State.pin, PartState.pin, List.getD_eq_getElem?_getD, hport, hport'] using heq

end State

namespace Netlist

variable {netlist : Netlist} {state : State}

/-- Whether a part is among the latch steps depends on its own phases. -/
theorem memory_latched (hflat : netlist.Flat) (h : State.Sound netlist state) {index : Nat}
    {placed : Part} (hpart : netlist.parts[index]? = some placed) :
    ((netlist.latched state).part index).memory = placed.clocked (state.part index) := by
  have hbuilt := hflat.built placed (List.mem_of_getElem? hpart)
  rw [(latched_latched hflat h).memory]
  split
  · next hlatches =>
    obtain ⟨phase, hphase, hlatch⟩ := mem_latchSteps.mp hlatches
    rw [phase?, hpart, Option.bind_some] at hphase
    rw [hbuilt.clocked_of_latch hphase hlatch, State.effect_eq hpart]
  · next hnone =>
    refine (Part.clocked_of_no_latch (fun phase hphase => ?_) _).symm
    obtain ⟨position, hposition⟩ := List.getElem?_of_mem hphase
    by_contra hlatch
    rw [Bool.not_eq_false] at hlatch
    obtain ⟨rfl, -⟩ := hbuilt.position_of_latch hposition hlatch
    exact hnone (mem_latchSteps.mpr ⟨phase, by rw [phase?, hpart]; exact hposition, hlatch⟩)

/-- Where the edge stores a word once more, it stores the same one in the same cell. -/
theorem clocked_clocked {placed : Part} (hbuilt : placed.Built) (held : PartState) :
    placed.clocked { held with memory := placed.clocked held } = placed.clocked held := by
  by_cases hnone : ∀ phase ∈ placed.phases, phase.latch = false
  · rw [Part.clocked_of_no_latch hnone, Part.clocked_of_no_latch hnone]
  · obtain ⟨phase, hmem, hlatch⟩ : ∃ phase ∈ placed.phases, phase.latch = true := by
      simpa using hnone
    obtain ⟨position, hphase⟩ := List.getElem?_of_mem hmem
    obtain ⟨rfl, hstores⟩ := hbuilt.position_of_latch hphase hlatch
    rw [hbuilt.clocked_of_latch hphase hlatch, hbuilt.clocked_of_latch hphase hlatch]
    exact Device.memory_effect_twice hstores placed.ports held

theorem sound_latched (hflat : netlist.Flat) (h : State.Sound netlist state) :
    State.Sound netlist (netlist.latched state) := by
  have hfoldl := State.Sound.foldl_perform hflat.wired.native
    ((compile netlist).latchSteps.map fun step => .phase step.1 step.2) h
  rwa [List.foldl_map] at hfoldl

theorem pins_latched (hflat : netlist.Flat) (h : State.Sound netlist state) (index : Nat) :
    ((netlist.latched state).part index).pins = (state.part index).pins :=
  (sound_latched hflat h).pins_congr h (latched_latched hflat h).pin index

/-- A second clock edge finds nothing left to do. -/
theorem latched_twice (hflat : netlist.Flat) (h : State.Sound netlist state) :
    netlist.latched (netlist.latched state) = netlist.latched state := by
  have hsound := sound_latched hflat h
  have hagain := latched_latched hflat hsound
  refine State.Level.eq (.of_places (sound_latched hflat hsound) hsound
    (fun ref _ _ => hagain.pin ref) (fun index => ?_) hagain.nets
    (congrArg Status.isHalted hagain.status)) hagain.status
  cases hpart : netlist.parts[index]? with
  | none =>
    rw [State.part_eq_default (sound_latched hflat hsound) hpart,
      State.part_eq_default hsound hpart]
  | some placed =>
    have hbuilt := hflat.built placed (List.mem_of_getElem? hpart)
    have hmemory := memory_latched hflat h hpart
    have hself : (netlist.latched state).part index =
        { state.part index with memory := placed.clocked (state.part index) } :=
      PartState.eq_of_pins (fun port => by rw [pins_latched hflat h index]) hmemory
    rw [memory_latched hflat hsound hpart, hself]
    exact clocked_clocked hbuilt _

end Netlist

namespace Simulation

variable {simulation : Simulation}

theorem Coherent.state_latch (h : simulation.Coherent) :
    simulation.latch.state = simulation.netlist.latched simulation.state := by
  rw [Simulation.latch, h.schedule, Netlist.latched]

/-- The clock edge stores, in each part what that part makes of its own pins and
memory, and does nothing else. Its phases may come in any order, and a second edge is
counted but changes nothing. Settling in turn stores nothing. -/
theorem clock_edge_commits_at_once (h : simulation.Reachable) :
    (simulation.latch.state.nets = simulation.state.nets ∧
      simulation.latch.state.status = simulation.state.status ∧
      ∀ index, (simulation.latch.state.part index).pins = (simulation.state.part index).pins) ∧
    (∀ index placed, simulation.netlist.parts[index]? = some placed →
      (simulation.latch.state.part index).memory = placed.clocked (simulation.state.part index)) ∧
    (∀ steps : List (Nat × Nat), steps.Perm simulation.schedule.latchSteps →
      steps.foldl (fun state (part, phase) => state.runPhase simulation.netlist part phase)
        simulation.state = simulation.latch.state) ∧
    simulation.latch.latch = { simulation.latch with ticks := simulation.ticks + 2 } ∧
    ∀ index placed, simulation.netlist.parts[index]? = some placed →
      placed.device.stores = true →
      (simulation.settle.state.part index).memory = (simulation.state.part index).memory := by
  have hcoherent := h.coherent
  have hflat := hcoherent.flat
  have hsound := hcoherent.sound
  have hlatched := Netlist.latched_latched hflat hsound
  have hstate := hcoherent.state_latch
  refine ⟨⟨?_, ?_, fun index => ?_⟩, fun index placed hpart => ?_, fun steps hperm => ?_, ?_,
    fun index placed hpart hstores => ?_⟩
  · rw [hstate]
    exact hlatched.nets
  · rw [hstate]
    exact hlatched.status
  · rw [hstate]
    exact Netlist.pins_latched hflat hsound index
  · rw [hstate]
    exact Netlist.memory_latched hflat hsound hpart
  · rw [hcoherent.schedule] at hperm
    have hother := Netlist.latched_foldl hflat steps
      (hperm.nodup_iff.mpr simulation.netlist.nodup_latchSteps)
      (fun _ hstep => Netlist.mem_latchSteps.mp (hperm.subset hstep)) hsound
    rw [hstate]
    refine ((Netlist.level_latched hflat hsound hperm).eq ?_).symm
    exact hlatched.status.trans hother.status.symm
  · have htwice : simulation.latch.latch.state = simulation.latch.state := by
      rw [h.latch.coherent.state_latch, hstate]
      exact Netlist.latched_twice hflat hsound
    exact congrArg (fun state =>
      ({ simulation.latch with state, ticks := simulation.ticks + 2 } : Simulation)) htwice
  · rw [hcoherent.tracked_settle.agrees.memory]
    exact Netlist.memory_stored hflat.wired hsound hpart hstores

/-- Two registers in a row. -/
def registerChain : Schematic where
  components :=
    [⟨"x", Builtin.input.id, .obj [("value", .int 1)]⟩, ⟨"r1", Builtin.register.id, .null⟩,
      ⟨"r2", Builtin.register.id, .null⟩]
  wires := [⟨"d", [⟨"x", "out"⟩, ⟨"r1", "d"⟩]⟩, ⟨"q", [⟨"r1", "q"⟩, ⟨"r2", "d"⟩]⟩]

/-- The input moves on by one register, in whichever order they are clocked. -/
theorem clock_edge_commits_at_once_chain :
    let simulation := ofNetlist (flatten Library.builtin registerChain)
    [(2, 1), (1, 1)].foldl
        (fun state (part, phase) => state.runPhase simulation.netlist part phase)
        simulation.state = simulation.latch.state ∧
      (simulation.latch.state.part 1).memory = .register 1 ∧
      (simulation.latch.state.part 2).memory = .register 0 ∧
      (simulation.latch.settle.state.part 1).memory = .register 1 := by
  intro simulation
  have hreachable : simulation.Reachable := reachable_ofNetlist (by decide +kernel)
  obtain ⟨-, hmemory, horder, -, -⟩ := clock_edge_commits_at_once hreachable
  obtain ⟨-, -, -, -, hsettle⟩ := clock_edge_commits_at_once hreachable.latch
  have hpart : ∀ index < simulation.netlist.parts.length,
      simulation.netlist.parts[index]? = some (simulation.netlist.parts.getD index default) :=
    fun index hindex => by simp [List.getD_eq_getElem?_getD, hindex]
  have hfirst : (simulation.latch.state.part 1).memory = .register 1 :=
    (hmemory 1 _ (hpart 1 (by decide +kernel))).trans (by decide +kernel)
  refine ⟨horder [(2, 1), (1, 1)] (by decide +kernel), hfirst, ?_, ?_⟩
  · exact (hmemory 2 _ (hpart 2 (by decide +kernel))).trans (by decide +kernel)
  · exact (hsettle 1 _ (hpart 1 (by decide +kernel)) (by decide +kernel)).trans hfirst

end Simulation

end Breadboard
