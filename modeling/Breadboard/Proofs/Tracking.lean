import Breadboard.Proofs.Trace
import Breadboard.Simulation.Usage

/-!
# Tracking usage marks pins and does nothing else

`State.Matches` compares two states by all that can be observed of them except
the usage of their pins: the nets, the memories, the halt, and of every pin the
value, the enabled flag, the facing and the resolved flag. Finding out which pins
were used leads from a state to one that matches it (`tracked_traceUsage`).
-/

namespace Breadboard

/-- The pin as if it had not been used. -/
def Pin.unmarked (pin : Pin) : Pin :=
  { pin with used := false }

theorem Pin.unmarked_eq_iff {first second : Pin} : first.unmarked = second.unmarked ↔
    first.value = second.value ∧ first.enabled = second.enabled ∧
      first.facing = second.facing ∧ first.resolved = second.resolved := by
  simp [unmarked]

/-- The states differ in the usage of their pins at most. -/
structure State.Matches (first second : State) : Prop where
  nets : first.nets = second.nets
  status : first.status = second.status
  memory : ∀ part, (first.part part).memory = (second.part part).memory
  pin : ∀ ref, (first.pin ref).unmarked = (second.pin ref).unmarked

namespace State

variable {netlist : Netlist} {first second third state : State} {ref : PortRef}

namespace Matches

theorem refl (state : State) : state.Matches state :=
  ⟨rfl, rfl, fun _ => rfl, fun _ => rfl⟩

theorem symm (h : first.Matches second) : second.Matches first :=
  ⟨h.nets.symm, h.status.symm, fun part => (h.memory part).symm, fun ref => (h.pin ref).symm⟩

theorem trans (h : first.Matches second) (h' : second.Matches third) : first.Matches third :=
  ⟨h.nets.trans h'.nets, h.status.trans h'.status,
    fun part => (h.memory part).trans (h'.memory part), fun ref => (h.pin ref).trans (h'.pin ref)⟩

theorem net (h : first.Matches second) (index : Nat) : first.net index = second.net index := by
  rw [State.net, h.nets, State.net]

theorem value (h : first.Matches second) (ref : PortRef) :
    (first.pin ref).value = (second.pin ref).value :=
  (Pin.unmarked_eq_iff.mp (h.pin ref)).1

theorem enabled (h : first.Matches second) (ref : PortRef) :
    (first.pin ref).enabled = (second.pin ref).enabled :=
  (Pin.unmarked_eq_iff.mp (h.pin ref)).2.1

theorem facing (h : first.Matches second) (ref : PortRef) :
    (first.pin ref).facing = (second.pin ref).facing :=
  (Pin.unmarked_eq_iff.mp (h.pin ref)).2.2.1

theorem resolved (h : first.Matches second) (ref : PortRef) :
    (first.pin ref).resolved = (second.pin ref).resolved :=
  (Pin.unmarked_eq_iff.mp (h.pin ref)).2.2.2

theorem drives (h : first.Matches second) (ref : PortRef) (type : PortType) :
    (first.pin ref).drives type = (second.pin ref).drives type := by
  rw [Pin.drives, Pin.drives, h.enabled ref, h.facing ref]

theorem driving (h : first.Matches second) (net : Net) :
    net.driving netlist first = net.driving netlist second :=
  List.filter_congr fun ref _ => h.drives ref _

end Matches

/-! ## Marking pins -/

/-- A state that became another one by marking pins. -/
structure Tracked (netlist : Netlist) (before after : State) : Prop where
  agrees : after.Matches before
  sound : Sound netlist before → Sound netlist after

theorem Tracked.refl (state : State) : Tracked netlist state state :=
  ⟨.refl state, id⟩

theorem Tracked.trans (h : Tracked netlist first second) (h' : Tracked netlist second third) :
    Tracked netlist first third :=
  ⟨h'.agrees.trans h.agrees, fun hsound => h'.sound (h.sound hsound)⟩

theorem tracked_foldl {α : Type} {mark : State → α → State}
    (hmark : ∀ state item, Tracked netlist state (mark state item)) (items : List α)
    (state : State) : Tracked netlist state (items.foldl mark state) := by
  induction items generalizing state with
  | nil => exact .refl state
  | cons item items ih => exact (hmark state item).trans (ih _)

theorem part_markUsed (state : State) (ref : PortRef) (index : Nat) :
    (state.updatePin Pin.markUsed ref).part index =
      if index = ref.part then (state.part index).update ref.port Pin.markUsed
      else state.part index := by
  by_cases hpart : index = ref.part
  · subst hpart
    rw [if_pos rfl]
    by_cases hlt : ref.part < state.parts.length
    · exact part_updatePin_self state _ hlt
    · simp [updatePin, part, List.getD_eq_getElem?_getD,
        List.getElem?_eq_none (Nat.not_lt.mp hlt), PartState.update, default, instInhabitedPartState.default]
  · rw [if_neg hpart]
    exact part_updatePin_of_ne state _ (Ne.symm hpart)

theorem unmarked_update (held : PartState) (position index : Nat) :
    ((held.update position Pin.markUsed).pin index).unmarked = (held.pin index).unmarked := by
  by_cases hne : position = index
  · subst hne
    by_cases hlt : position < held.pins.length
    · rw [PartState.pin_update_self _ _ hlt]
      rfl
    · simp [PartState.update, PartState.pin, List.getD_eq_getElem?_getD,
        List.getElem?_eq_none (Nat.not_lt.mp hlt)]
  · rw [PartState.pin_update_of_ne _ _ hne]

theorem tracked_markUsed (netlist : Netlist) (state : State) (ref : PortRef) :
    Tracked netlist state (state.updatePin Pin.markUsed ref) := by
  have hpart := part_markUsed state ref
  refine ⟨⟨rfl, rfl, fun index => ?_, fun other => ?_⟩, fun h => ⟨?_, h.nets, ?_, ?_⟩⟩
  · rw [hpart]
    split <;> rfl
  · rw [State.pin, hpart]
    split
    · exact unmarked_update ..
    · rfl
  · simpa [updatePin] using h.parts
  · intro index placed hplaced
    rw [hpart]
    split
    · rw [PartState.length_pins_update]
      exact h.pins hplaced
    · exact h.pins hplaced
  · intro index placed hplaced
    rw [hpart]
    split
    · exact h.fits hplaced
    · exact h.fits hplaced

theorem tracked_markPin (p : PortType → Pin → Bool) (state : State) (ref : PortRef) :
    Tracked netlist state (state.markPin netlist p ref) := by
  unfold markPin
  split
  · exact tracked_markUsed ..
  · exact .refl state

theorem tracked_traceTask (state : State) (task : Task) :
    Tracked netlist state (state.traceTask netlist task) := by
  cases task with
  | phase part position =>
    exact tracked_foldl (fun state port => tracked_markPin _ state ⟨part, port⟩) _ state
  | net index =>
    simp only [traceTask, traceNet]
    split
    · exact tracked_foldl (tracked_markPin _) _ state
    · exact .refl state

theorem pin_eq_default (h : Sound netlist state) (hport : netlist.port? ref = none) :
    state.pin ref = {} := by
  rw [State.pin, PartState.pin, List.getD_eq_getElem?_getD, List.getElem?_eq_none]
  · rfl
  by_cases hlt : ref.part < netlist.parts.length
  · rw [h.pins (List.getElem?_eq_getElem hlt)]
    simpa [Netlist.port?, hlt] using hport
  · rw [State.part, List.getD_eq_getElem?_getD, List.getElem?_eq_none]
    · exact Nat.zero_le _
    · rw [h.parts]
      exact Nat.not_lt.mp hlt

/-- Finding out what was used changes nothing that `Matches` compares. -/
theorem tracked_traceUsage (schedule : Schedule) (executed : List Nat)
    (h : Sound netlist state) :
    Tracked netlist state (state.traceUsage netlist schedule executed) := by
  have hclear : Tracked netlist state
      (state.mapPins netlist fun _ pin => { pin with used := false }) := by
    refine ⟨⟨rfl, rfl, memory_mapPins h _, fun ref => ?_⟩, fun h => h.mapPins _⟩
    cases hport : netlist.port? ref with
    | some port =>
      rw [pin_mapPins h hport]
      rfl
    | none => rw [pin_eq_default h hport, pin_eq_default (h.mapPins _) hport]
  refine (hclear.trans ?_).trans (tracked_foldl (fun state step => tracked_traceTask state _) _ _)
  exact tracked_foldl (fun state step => tracked_foldl (fun state _ => tracked_markUsed ..) _ state)
    _ _

end State

end Breadboard
