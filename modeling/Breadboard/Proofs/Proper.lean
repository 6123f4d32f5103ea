import Breadboard.Proofs.Parallel
import Breadboard.Proofs.Sessions

/-!
# What parts remember, and which way pins face

Two properties that last while a circuit is in use, and that every circuit has when
it begins. Parts remember what their devices can remember (`State.Proper`): settings
and cells are cut to the width, a memory has its size, and a device without memory
remembers nothing. A part that takes over such a memory from one of its kind takes it
over as it is (`Device.adopt_proper`). And only pins that can face either way do so
(`State.Upright`).
-/

namespace Breadboard

namespace Device

/-- What a device can remember. -/
def Proper : Device → Memory → Prop
  | .input width _, .input value => trim width value = value
  | .probe, .probe .. => True
  | .register, .register _ => True
  | .ram addrWidth width, .ram cells =>
    cells.size = 1 <<< min addrWidth maxAddrWidth ∧ ∀ cell ∈ cells, trim width cell = cell
  | .bridge, .bridge .. => True
  | .input .., _ | .probe, _ | .register, _ | .ram .., _ | .bridge, _ => False
  | .scripted .., _ => True
  | _, memory => memory = .none

variable {device : Device} {before after memory : Memory}

theorem proper_reset (hard : Bool) (h : device.Proper memory) :
    device.Proper (device.reset hard memory) := by
  cases device with
  | register => trivial
  | ram addrWidth width =>
    cases memory with
    | ram cells =>
      cases hard with
      | false => exact h
      | true =>
        refine ⟨Array.size_replicate.trans h.1, fun cell hcell => ?_⟩
        rw [(Array.mem_replicate.mp hcell).2]
        exact Builtin.trim_zero width
    | _ => exact h.elim
  | scripted persistent phases => cases memory <;> trivial
  | _ => exact h

theorem proper_adopt (hfresh : device.Proper device.fresh) (previous : Memory) :
    device.Proper (device.adopt previous) := by
  cases device with
  | input width initial =>
    cases previous with
    | input value => exact trim_trim width value
    | _ => exact hfresh
  | register => cases previous <;> trivial
  | ram addrWidth width =>
    cases previous with
    | ram cells =>
      refine ⟨Array.size_ofFn, fun cell hcell => ?_⟩
      obtain ⟨position, rfl⟩ := Array.mem_ofFn.mp hcell
      exact trim_trim ..
    | _ => exact hfresh
  | scripted persistent phases => cases previous <;> trivial
  | _ => exact hfresh

/-- What was remembered by a part of the same kind need not be cut. -/
theorem adopt_proper (hstores : device.stores = true) (h : device.Proper memory) :
    device.adopt memory = memory := by
  cases device with
  | input width initial =>
    cases memory with
    | input value => exact congrArg Memory.input h
    | _ => exact h.elim
  | register =>
    cases memory with
    | register value => rfl
    | _ => exact h.elim
  | ram addrWidth width =>
    cases memory with
    | ram cells =>
      obtain ⟨hsize, hcells⟩ := h
      refine congrArg Memory.ram <|
        Array.ext (Array.size_ofFn.trans hsize.symm) fun index _ hlt => ?_
      rw [Array.getElem_ofFn, Array.getD_eq_getD_getElem?, Array.getElem?_eq_getElem hlt]
      exact hcells _ (Array.getElem_mem hlt)
    | _ => exact h.elim
  | _ => cases hstores

theorem Poked.proper (h : device.Poked before after) (hbefore : device.Proper before) :
    device.Proper after := by
  cases h with
  | input width initial value => exact trim_trim width value
  | ram addrWidth width addr value cells =>
    obtain ⟨hsize, hcells⟩ := hbefore
    refine ⟨Array.size_setIfInBounds.trans hsize, fun cell hcell => ?_⟩
    rcases Array.mem_or_eq_of_mem_setIfInBounds hcell with hcell | rfl
    · exact hcells cell hcell
    · exact trim_trim ..

theorem proper_effect (ports : List Port) (position : Nat) {held : PartState}
    (h : device.Proper held.memory) :
    device.Proper (device.effect ports position held).memory := by
  obtain ⟨pins, memory⟩ := held
  cases device with
  | input width initial =>
    cases memory with
    | input value => exact h
    | _ => exact h.elim
  | probe => trivial
  | register =>
    cases memory with
    | register value =>
      simp only [effect]
      split
      · trivial
      · split <;> trivial
    | _ => exact h.elim
  | ram addrWidth width =>
    cases memory with
    | ram cells =>
      simp only [effect]
      split
      · exact h
      · split
        · exact (Poked.ram addrWidth width _ _ cells).proper h
        · exact h
    | _ => exact h.elim
  | bridge =>
    cases memory with
    | bridge enabled forward =>
      simp only [effect]
      split <;> trivial
    | _ => exact h.elim
  | adder width carryIn carryOut => cases carryOut <;> exact h
  | boundary inbound tristate value =>
    simp only [effect]
    split
    · exact h
    · split <;> exact h
  | _ => exact h

end Device

theorem Part.Built.proper_fresh {part : Part} (h : part.Built) :
    part.device.Proper part.device.fresh := by
  rcases h.cases with ⟨builtin, args, hmade⟩ | ⟨hinert, -⟩
  · rw [hmade.device]
    cases builtin with
    | input => exact trim_trim ..
    | ram =>
      refine ⟨Array.size_replicate, fun cell hcell => ?_⟩
      rw [(Array.mem_replicate.mp hcell).2]
      exact Builtin.trim_zero _
    | probe | register | bridge => trivial
    | _ => rfl
  · rw [hinert]
    rfl

namespace State

variable {netlist : Netlist} {state : State} {ref : PortRef} {port : Port} {placed : Part}
  {index position : Nat} {phase : Phase} {memory : Memory}

/-! ## Memories -/

/-- Every part remembers something that its device can remember. -/
def Proper (netlist : Netlist) (state : State) : Prop :=
  ∀ (index : Nat) (placed : Part), netlist.parts[index]? = some placed →
    placed.device.Proper (state.part index).memory

theorem memory_phase (hwired : netlist.Wired) (h : Sound netlist state)
    (hpart : netlist.parts[index]? = some placed) (position other : Nat) :
    ((state.perform netlist (.phase index position)).part other).memory =
      if other = index then (state.effect netlist index position).memory
      else (state.part other).memory := by
  have hlt : index < state.parts.length := by
    rw [h.parts]
    exact (List.getElem?_eq_some_iff.mp hpart).1
  rw [perform, part_runPhase (native_getD hwired.native index) hlt]
  split <;> rfl

theorem memory_setPart (h : Sound netlist state) (hpart : netlist.parts[index]? = some placed)
    (memory : Memory) (other : Nat) :
    ((state.setPart index { state.part index with memory }).part other).memory =
      if other = index then memory else (state.part other).memory := by
  have hlt : index < state.parts.length := by
    rw [h.parts]
    exact (List.getElem?_eq_some_iff.mp hpart).1
  by_cases hother : other = index
  · subst hother
    rw [part_setPart_self _ _ hlt, if_pos rfl]
  · rw [part_setPart_of_ne _ _ (Ne.symm hother), if_neg hother]

theorem lasting_proper : Lasting Proper where
  begun _ hsound h index placed hpart := by
    rw [Netlist.begun, memory_mapPins hsound]
    exact h index placed hpart
  perform hflat hsound h task htask index placed hpart := by
    cases task with
    | net net =>
      rw [State.perform, memory_resolve]
      exact h index placed hpart
    | phase part position =>
      obtain ⟨phase, hphase⟩ := htask
      obtain ⟨owner, howner, -⟩ := Option.bind_eq_some_iff.mp hphase
      rw [memory_phase hflat.wired hsound howner]
      split
      · next hindex =>
        subst hindex
        rw [effect_eq hpart]
        exact Device.proper_effect _ _ (h index placed hpart)
      · exact h index placed hpart
  agrees _ h hmatches index placed hpart := by
    rw [hmatches.memory]
    exact h index placed hpart
  poked _ hsound h changed owner memory howner hpoked index placed hpart := by
    rw [memory_setPart hsound howner]
    split
    · next hindex =>
      subst hindex
      obtain rfl := Option.some.inj (howner.symm.trans hpart)
      exact hpoked.proper (h index owner howner)
    · exact h index placed hpart
  cleared _ hsound h hard index placed hpart := by
    rw [part_cleared hsound hard hpart]
    exact Device.proper_reset hard (h index placed hpart)

theorem proper_carriedMemory (hbuilt : placed.Built) (previous : Netlist) (state : State)
    (netlist : Netlist) (index : Nat) :
    placed.device.Proper (carriedMemory previous state netlist index placed) := by
  unfold carriedMemory
  split
  · split
    · exact Device.proper_adopt hbuilt.proper_fresh _
    · exact hbuilt.proper_fresh
  · exact hbuilt.proper_fresh

theorem proper_new {previous : Option Simulation} (hflat : netlist.Flat)
    (h : New netlist (inherited previous netlist) state) : Proper netlist state := by
  intro index placed hpart
  have hbuilt := hflat.built placed (List.mem_of_getElem? hpart)
  rw [h.memory hpart]
  cases previous with
  | none => exact hbuilt.proper_fresh
  | some previous => exact proper_carriedMemory hbuilt ..

/-! ## Facings -/

/-- A pin that cannot face either way faces none. -/
def Upright (netlist : Netlist) (state : State) : Prop :=
  ∀ ref port, netlist.port? ref = some port → port.type.bidirectional = false →
    (state.pin ref).facing = .idle

/-- No phase turns a pin that cannot face either way. -/
theorem facing_phase (hflat : netlist.Flat) (h : Sound netlist state)
    (hphase : netlist.phase? ref.part position = some phase)
    (hport : netlist.port? ref = some port) (hone : port.type.bidirectional = false) :
    ((state.perform netlist (.phase ref.part position)).pin ref).facing =
      (state.pin ref).facing := by
  have hwired := hflat.wired
  obtain ⟨placed, hpart, hplace⟩ := Netlist.part_of_port hport
  cases hlatch : phase.latch with
  | true => rw [Netlist.pin_latch hflat h hphase hlatch]
  | false =>
    obtain ⟨owner, howner, hfound⟩ := Netlist.part_of_phase ⟨hphase, hlatch⟩
    obtain rfl := Option.some.inj (howner.symm.trans hpart)
    have hregular := hwired.regularAt hpart
    rw [pin_phase hwired h hport, effect_eq hpart]
    by_cases hlast : position = owner.device.last
    · subst hlast
      generalize hedit : (owner.device.effect owner.ports owner.device.last
        (state.part ref.part)).edit ref.port = edit
      have hfinal := hregular.final (state.part ref.part) hplace
      rw [hedit] at hfinal
      cases hfinal with
      | drive value => rw [hone]; cases value <;> rfl
      | _ => rfl
    · rcases hregular.early (state.part ref.part) hfound hlatch hlast hplace with
        hedit | ⟨hboth, -⟩
      · rw [hedit]
        rfl
      · rw [hone] at hboth
        cases hboth

theorem pin_cleared (h : Sound netlist state) (hard : Bool)
    (hport : netlist.port? ref = some port) :
    (state.cleared netlist hard).pin ref = { state.pin ref with value := 0, resolved := true } := by
  obtain ⟨placed, hpart, -⟩ := Netlist.part_of_port hport
  have hlt := (h.has hport).2
  rw [State.pin, part_cleared h hard hpart, State.pin, PartState.pin, PartState.pin]
  simp [List.getD_eq_getElem?_getD, hlt]

theorem lasting_upright : Lasting Upright where
  begun _ hsound h ref port hport hone := by
    rw [Netlist.pin_begun hsound hport]
    exact h ref port hport hone
  perform hflat hsound h task htask ref port hport hone := by
    cases task with
    | net index =>
      exact (congrArg Prod.snd (turn_net hsound hport)).trans (h ref port hport hone)
    | phase part position =>
      obtain ⟨phase, hphase⟩ := htask
      by_cases hne : ref.part = part
      · subst hne
        rw [facing_phase hflat hsound hphase hport hone]
        exact h ref port hport hone
      · rw [pin_phase_of_ne hflat.wired hne]
        exact h ref port hport hone
  agrees _ h hmatches ref port hport hone := by
    rw [hmatches.facing]
    exact h ref port hport hone
  poked _ hsound h index placed memory hpart hpoked ref port hport hone := by
    rw [(sound_setMemory hsound fun owner howner =>
      Option.some.inj (hpart.symm.trans howner) ▸ hpoked.fits (hsound.fits hpart)).2]
    exact h ref port hport hone
  cleared _ hsound h hard ref port hport hone := by
    rw [pin_cleared hsound hard hport]
    exact h ref port hport hone

theorem upright_new {held : Nat → Part → Memory} (h : New netlist held state) :
    Upright netlist state := by
  intro ref port _ _
  rw [h.pin]

end State

namespace Simulation

variable {simulation : Simulation}

theorem Reachable.proper (h : simulation.Reachable) :
    State.Proper simulation.netlist simulation.state := by
  obtain ⟨first, ⟨library, schematic, previous, hbegins⟩, hcontinues⟩ := h.exists_run
  exact hbegins.lasting State.lasting_proper State.proper_new hcontinues

theorem Reachable.upright (h : simulation.Reachable) :
    State.Upright simulation.netlist simulation.state := by
  obtain ⟨first, ⟨library, schematic, previous, hbegins⟩, hcontinues⟩ := h.exists_run
  exact hbegins.lasting State.lasting_upright (fun _ hnew => State.upright_new hnew) hcontinues

end Simulation

end Breadboard
