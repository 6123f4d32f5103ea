import Breadboard.Simulation.Query

/-!
# What the operations do

An operation of a simulation settles a circuit that has not run yet, lets the clock edge pass,
changes one memory, or does nothing. This file says which of these it is, and when: a circuit
without a fault starts and replaces another one (`start_eq_ok_iff`, `startFrom_eq_ok_iff`,
`rebuild_eq_ok_iff`), a step latches and settles unless the circuit has halted (`step_cases`),
and from outside a memory is changed as far as its device allows (`setInput_poked`,
`writeRam_poked`). What simulations have in common is proved from these facts.
-/

namespace Breadboard

/-- A memory is changed from outside, as far as its device allows. -/
inductive Device.Poked : Device → Memory → Memory → Prop where
  | input (width : Nat) (initial value : Word) (before : Memory) :
      Poked (.input width initial) before (.input (trim width value))
  | ram (addrWidth width addr : Nat) (value : Word) (cells : Array Word) :
      Poked (.ram addrWidth width) (.ram cells) (.ram (cells.setIfInBounds addr (trim width value)))

namespace Simulation

variable {simulation next : Simulation} {library : Library} {schematic : Schematic}

/-! ## Circuits -/

theorem start_eq_ok_iff : Simulation.start library schematic = .ok simulation ↔
    (flatten library schematic).fault? = none ∧
      simulation = ofNetlist (flatten library schematic) := by
  rw [Simulation.start]
  cases (flatten library schematic).fault? <;> simp [eq_comm]

theorem start_eq (hfault : (flatten library schematic).fault? = none) :
    Simulation.start library schematic = .ok (ofNetlist (flatten library schematic)) :=
  start_eq_ok_iff.mpr ⟨hfault, rfl⟩

theorem startFrom_eq_ok_iff : simulation.startFrom library schematic = .ok next ↔
    (flatten library schematic).fault? = none ∧
      next = ofState (flatten library schematic)
        (.carriedOver simulation.netlist simulation.state (flatten library schematic)) := by
  rw [Simulation.startFrom]
  cases (flatten library schematic).fault? <;> simp [eq_comm]

/-- The simulation that a rebuild settles. -/
def rebuilt (simulation : Simulation) (library : Library) (schematic : Schematic) : Simulation :=
  { simulation with
    netlist := flatten library schematic
    schedule := compile (flatten library schematic)
    state :=
      { State.carriedOver simulation.netlist simulation.state (flatten library schematic) with
        status := simulation.state.status } }

theorem rebuild_eq_ok_iff : simulation.rebuild library schematic = .ok next ↔
    (flatten library schematic).fault? = none ∧
      next = (simulation.rebuilt library schematic).settle := by
  rw [Simulation.rebuild]
  cases (flatten library schematic).fault? <;> simp [eq_comm, rebuilt]

/-! ## Steps -/

/-- A circuit that has halted stays as it is, and one that the clock edge halts does not settle. -/
theorem step_cases (simulation : Simulation) :
    simulation.isHalted = true ∧ simulation.step = simulation ∨
    simulation.isHalted = false ∧ simulation.latch.isHalted = true ∧
      simulation.step = simulation.latch ∨
    simulation.isHalted = false ∧ simulation.latch.isHalted = false ∧
      simulation.step = simulation.latch.settle := by
  rw [step]
  cases hhalted : simulation.isHalted with
  | true => exact .inl ⟨rfl, rfl⟩
  | false =>
    cases hlatch : simulation.latch.isHalted with
    | true => exact .inr (.inl ⟨rfl, rfl, by simp [hlatch]⟩)
    | false => exact .inr (.inr ⟨rfl, rfl, by simp [hlatch]⟩)

/-! ## Memories -/

theorem partOf_eq_ok_iff {α : Type} {path : String} {kind : PartKind} {read : Memory → Option α}
    {index : Nat} {held : α} : simulation.partOf path kind read = .ok (index, held) ↔
      simulation.partAt path = .ok index ∧
        read (simulation.state.part index).memory = some held := by
  rw [partOf]
  cases simulation.partAt path with
  | error error => simp [bind, Except.bind]
  | ok found =>
    dsimp only [bind, Except.bind]
    cases hread : read (simulation.state.part found).memory with
    | none =>
      simp only [Except.ok.injEq, reduceCtorEq, false_iff, not_and]
      rintro rfl
      simp [hread]
    | some value =>
      simp only [pure, Except.pure, Except.ok.injEq, Prod.mk.injEq]
      constructor
      · rintro ⟨rfl, rfl⟩
        exact ⟨rfl, hread⟩
      · rintro ⟨rfl, hheld⟩
        exact ⟨rfl, Option.some.inj (hread.symm.trans hheld)⟩

/-- Setting an input changes the memory of the part at the path, if it is one. -/
theorem setInput_cases {path : String} {value : Word}
    (hnext : simulation.setInput path value = .ok next) :
    ∃ index, simulation.partAt path = .ok index ∧
      (next = simulation ∨ ∃ width initial,
        (simulation.netlist.parts.getD index default).device = .input width initial ∧
        next = simulation.setMemory index (.input (trim width value))) := by
  rw [setInput] at hnext
  cases hfound : simulation.partOf path .input _ with
  | error error =>
    rw [hfound] at hnext
    cases hnext
  | ok found =>
    rw [hfound] at hnext
    refine ⟨found.1, (partOf_eq_ok_iff.mp hfound).1, ?_⟩
    dsimp only [bind, Except.bind] at hnext
    split at hnext
    · next width initial hdevice => exact .inr ⟨width, initial, hdevice, (Except.ok.inj hnext).symm⟩
    · exact .inl (Except.ok.inj hnext).symm

theorem writeRam_cases {path : String} {addr : Nat} {value : Word}
    (hnext : simulation.writeRam path addr value = .ok next) :
    ∃ index cells, simulation.partAt path = .ok index ∧
      (simulation.state.part index).memory = .ram cells ∧
      (next = simulation ∨ ∃ addrWidth width,
        (simulation.netlist.parts.getD index default).device = .ram addrWidth width ∧
        next = simulation.setMemory index (.ram (cells.setIfInBounds addr (trim width value)))) := by
  rw [writeRam] at hnext
  cases hfound : simulation.partOf path .ram _ with
  | error error =>
    rw [hfound] at hnext
    cases hnext
  | ok found =>
    rw [hfound] at hnext
    obtain ⟨hpart, hread⟩ := partOf_eq_ok_iff.mp hfound
    refine ⟨found.1, found.2, hpart, ?_, ?_⟩
    · split at hread
      · next cells hcells => rw [hcells, Option.some.inj hread]
      · cases hread
    · dsimp only [bind, Except.bind] at hnext
      split at hnext
      · next addrWidth width hdevice =>
        exact .inr ⟨addrWidth, width, hdevice, (Except.ok.inj hnext).symm⟩
      · exact .inl (Except.ok.inj hnext).symm

theorem exists_part_of_device {netlist : Netlist} {index : Nat} {device : Device}
    (h : (netlist.parts.getD index default).device = device) (hactive : device ≠ .inert) :
    ∃ placed, netlist.parts[index]? = some placed ∧ placed.device = device := by
  rw [List.getD_eq_getElem?_getD] at h
  cases hplaced : netlist.parts[index]? with
  | none =>
    rw [hplaced] at h
    exact absurd h.symm hactive
  | some placed =>
    rw [hplaced] at h
    exact ⟨placed, rfl, h⟩

/-- The simulations differ in one memory, which was changed from outside. -/
def Poked (simulation next : Simulation) : Prop :=
  ∃ index placed memory, simulation.netlist.parts[index]? = some placed ∧
    placed.device.Poked (simulation.state.part index).memory memory ∧
    next = simulation.setMemory index memory

theorem setInput_poked {path : String} {value : Word}
    (hnext : simulation.setInput path value = .ok next) :
    next = simulation ∨ simulation.Poked next := by
  obtain ⟨index, -, rfl | ⟨width, initial, hdevice, rfl⟩⟩ := setInput_cases hnext
  · exact .inl rfl
  · obtain ⟨placed, hplaced, hsame⟩ := exists_part_of_device hdevice Device.noConfusion
    exact .inr ⟨index, placed, _, hplaced, hsame ▸ .input .., rfl⟩

theorem writeRam_poked {path : String} {addr : Nat} {value : Word}
    (hnext : simulation.writeRam path addr value = .ok next) :
    next = simulation ∨ simulation.Poked next := by
  obtain ⟨index, cells, -, hcells, rfl | ⟨addrWidth, width, hdevice, rfl⟩⟩ := writeRam_cases hnext
  · exact .inl rfl
  · obtain ⟨placed, hplaced, hsame⟩ := exists_part_of_device hdevice Device.noConfusion
    refine .inr ⟨index, placed, _, hplaced, ?_, rfl⟩
    rw [hsame, hcells]
    exact .ram ..

end Simulation

end Breadboard
