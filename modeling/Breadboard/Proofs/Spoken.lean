import Breadboard.Proofs.Blank
import Breadboard.Proofs.Fixpoint

/-!
# What a settle tells the pins

In a static circuit the last phase of a part does in the end what it did when it ran
(`effect_static`), so everything about a pin can be read off that edit
(`Netlist.lastEdit`): whether the pin drives (`drives_last`), what it shows if no net
tells it anything (`look_spoken`), and what a net shows that it alone drives
(`verdict_spoken`). Nothing of that depends on the state in which the settle began,
for a pin that is not told a value is one that never has been.
-/

namespace Breadboard

namespace Netlist

variable {netlist : Netlist} {state : State} {ref : PortRef} {port : Port} {placed : Part}
  {index part position : Nat} {net : Net} {phase : Phase} {left right : List Task}

/-- What the last phase of its part does to a pin. -/
def lastEdit (netlist : Netlist) (state : State) (ref : PortRef) : Edit :=
  let last := (netlist.parts.getD ref.part default).device.last
  (state.effect netlist ref.part last).edit ref.port

theorem lastEdit_eq (hpart : netlist.parts[ref.part]? = some placed) (state : State) :
    netlist.lastEdit state ref =
      (state.effect netlist ref.part placed.device.last).edit ref.port := by
  rw [lastEdit, List.getD_eq_getElem?_getD, hpart]
  rfl

/-- The pin gets a value whenever its part runs, or never and from nowhere. -/
def Spoken (netlist : Netlist) (state : State) (ref : PortRef) : Prop :=
  (netlist.lastEdit state ref).told.isSome = true ∨
    netlist.Untold ref ∧ ∃ placed, netlist.parts[ref.part]? = some placed ∧
      placed.device.Mute placed.ports ref.port

theorem mem_targets_getD : ref ∈ (netlist.nets.getD index default).targets ↔
    ∃ net, netlist.nets[index]? = some net ∧ ref ∈ net.targets := by
  rw [List.getD_eq_getElem?_getD]
  cases netlist.nets[index]? with
  | none => exact iff_of_false List.not_mem_nil (fun ⟨_, hnet, _⟩ => nomatch hnet)
  | some net => simp

theorem untold_of_unbound (hwired : netlist.Wired) (hport : netlist.port? ref = some port)
    (hunbound : port.net = none) : netlist.Untold ref := fun _ htarget =>
  not_lists_of_unbound hwired hport hunbound (input_of_mem_targets hwired hport htarget).2

theorem untold_of_output (hwired : netlist.Wired) (hport : netlist.port? ref = some port)
    (hinput : port.type.input = false) : netlist.Untold ref := by
  intro index htarget
  rw [(input_of_mem_targets hwired hport htarget).1] at hinput
  cases hinput

theorem exists_split_last (hwired : netlist.Wired) (hpart : netlist.parts[part]? = some placed)
    (state : State) : ∃ left right,
      netlist.trace state = left ++ .phase part placed.device.last :: right := by
  obtain ⟨phase, hphase, hlatch⟩ := (hwired.regularAt hpart).exists_last
  exact exists_split_phase (phase_of_part hpart hphase hlatch) state

/-! ## One settle -/

/-- The memory of a part is what its last phase made of it. -/
theorem memory_last (hwired : netlist.Wired) (hstatic : netlist.Static)
    (h : State.Sound netlist state) (hpart : netlist.parts[part]? = some placed) :
    ((netlist.final state).part part).memory =
      ((netlist.final state).effect netlist part placed.device.last).memory := by
  obtain ⟨left, right, htrace⟩ := exists_split_last hwired hpart state
  have hsplit : netlist.trace state = (left ++ [.phase part placed.device.last]) ++ right := by
    rw [htrace, List.append_assoc, List.singleton_append]
  rw [← memory_final hwired h hsplit (not_mem_behind hwired hsplit hpart
    (List.mem_append_right _ (List.mem_singleton_self _))), memory_after_phase hwired h hpart,
    if_pos rfl, effect_static hwired hstatic h htrace hpart]

/-- A settle does not change what is stored. -/
theorem memory_stored (hwired : netlist.Wired) (h : State.Sound netlist state)
    (hpart : netlist.parts[part]? = some placed) (hstores : placed.device.stores = true) :
    ((netlist.final state).part part).memory = (state.part part).memory := by
  refine memory_kept hwired h hpart ?_ ?_ <;>
  · intro hdevice
    rw [hdevice] at hstores
    cases hstores

theorem blank_final (hflat : netlist.Flat) (h : State.Sound netlist state)
    (hblank : State.Blank netlist state) : State.Blank netlist (netlist.final state) := by
  rw [final_eq]
  exact State.kept_blank.after hflat h hblank _

variable (hflat : netlist.Flat) (hstatic : netlist.Static) (h : State.Sound netlist state)

include hflat hstatic h

/-- A pin drives in the end if it is a plain output or was told a value. -/
theorem drives_last (hport : netlist.port? ref = some port) :
    ((netlist.final state).pin ref).drives port.type =
      (port.type.output &&
        (!port.type.tristate || (netlist.lastEdit (netlist.final state) ref).told.isSome)) := by
  have hwired := hflat.wired
  cases houtput : port.type.output with
  | false => simp [Pin.drives, houtput]
  | true =>
    cases htristate : port.type.tristate with
    | false =>
      rw [final_eq]
      exact drives_plain hwired h (List.append_nil _).symm hport houtput htristate
    | true =>
      obtain ⟨placed, hpart, hplace⟩ := part_of_port hport
      obtain ⟨left, right, htrace⟩ := exists_split_last hwired hpart state
      have hsplit : netlist.trace state =
          (left ++ [.phase ref.part placed.device.last]) ++ right := by
        rw [htrace, List.append_assoc, List.singleton_append]
      have henabled := enabled_early hwired h htrace hport hpart (not_mem_split htrace).1
      have hturn := turn_final hwired h hsplit hport hpart
        (List.mem_append_right _ (List.mem_singleton_self _))
      obtain ⟨henabled', hfacing⟩ := Prod.mk.inj hturn
      have hdrives : ((netlist.final state).pin ref).drives port.type =
          ((netlist.after state (left ++ [.phase ref.part placed.device.last])).pin ref).drives
            port.type := by
        rw [Pin.drives, Pin.drives, henabled', hfacing]
      rw [hdrives, pin_after_phase hwired h hport, if_pos rfl,
        effect_static hwired hstatic h htrace hpart, lastEdit_eq hpart]
      have hfinal := (hwired.regularAt hpart).final ((netlist.final state).part ref.part) hplace
      rw [← State.effect_eq hpart (netlist.final state) placed.device.last] at hfinal
      generalize ((netlist.final state).effect netlist ref.part placed.device.last).edit ref.port =
        edit at hfinal
      cases hfinal with
      | keep => simp [Edit.apply, Edit.told, Pin.drives, henabled, htristate]
      | ignore hnone => rw [houtput] at hnone; cases hnone
      | set value _ _ hplain => rw [htristate] at hplain; cases hplain
      | drive value => exact (Pin.drives_drive ..).trans (by rw [houtput]; rfl)

variable (hblank : State.Blank netlist state)

include hblank

/-- Behind the last phase of its part a pin shows what it was told. -/
theorem value_spoken (hport : netlist.port? ref = some port)
    (hpart : netlist.parts[ref.part]? = some placed)
    (htrace : netlist.trace state = left ++ .phase ref.part placed.device.last :: right)
    (hspoken : netlist.Spoken (netlist.final state) ref) :
    ((netlist.after state (left ++ [.phase ref.part placed.device.last])).pin ref).value =
      (netlist.lastEdit (netlist.final state) ref).told.getD 0 := by
  have hwired := hflat.wired
  rw [pin_after_phase hwired h hport, if_pos rfl, Edit.value_apply,
    effect_static hwired hstatic h htrace hpart, ← lastEdit_eq hpart]
  rcases hspoken with hsome | ⟨huntold, owner, howner, hmute⟩
  · obtain ⟨word, hword⟩ := Option.isSome_iff_exists.mp hsome
    rw [hword]
    rfl
  · have hzero := (State.kept_blank.after hflat h hblank left).value hport howner huntold hmute
    rw [hzero]

/-- The only driver of a net decides it by what it was told. -/
theorem verdict_spoken (hnet : netlist.nets[index]? = some net) (href : ref ∈ net.sources)
    (halone : if net.tristate then net.driving netlist (netlist.final state) = [ref]
      else net.sources = [ref])
    (hspoken : netlist.Spoken (netlist.final state) ref) :
    (netlist.final state).verdict netlist index =
      (some (trim net.width ((netlist.lastEdit (netlist.final state) ref).told.getD 0)), 1) := by
  have hwired := hflat.wired
  obtain ⟨port, hattached, houtput⟩ := hwired.source hnet href
  have hport := hattached.found
  obtain ⟨placed, hpart, -⟩ := part_of_port hport
  obtain ⟨left, right, htrace⟩ := exists_split hnet state
  have hdriven := drivenBefore_static hwired hstatic hnet href state
  rw [drivenBefore_eq hwired htrace hport hpart houtput, decide_eq_true_eq] at hdriven
  obtain ⟨front, middle, rfl⟩ := List.append_of_mem hdriven
  have hphase : netlist.trace state = front ++ .phase ref.part placed.device.last ::
      (middle ++ .net index :: right) := by
    rw [htrace, List.append_assoc, List.cons_append]
  have hsplit : netlist.trace state = (front ++ [.phase ref.part placed.device.last]) ++
      (middle ++ .net index :: right) := by
    rw [hphase, List.append_assoc, List.singleton_append]
  -- between the phase and the net nothing else tells the pin anything
  have hpin := pin_between hwired h hsplit hport hpart
    (List.mem_append_right _ (List.mem_singleton_self _)) fun other hother htarget => by
      have heq : other = index := hstatic.single other index ref
        (input_of_mem_targets hwired hport htarget).2 ⟨net, hnet, Or.inl href⟩
      rw [heq] at hother
      exact (not_mem_split htrace).1 (List.mem_append_right _ (List.mem_cons_of_mem _ hother))
  rw [List.append_assoc, List.singleton_append] at hpin
  have hvalue := value_spoken hflat hstatic h hblank hport hpart hphase hspoken
  rw [← verdict_static hflat hstatic h htrace hnet]
  cases htristate : net.tristate with
  | true =>
    rw [htristate, if_pos rfl] at halone
    have hdriving := driving_after hwired h htrace hnet
    rw [counted_static hwired hstatic hnet, halone] at hdriving
    have hverdict := verdict_tristate hnet htristate
      (netlist.after state (front ++ .phase ref.part placed.device.last :: middle))
    rw [hdriving] at hverdict
    rw [hverdict, ← hvalue, ← hpin]
  | false =>
    rw [htristate, if_neg (by decide)] at halone
    have hverdict := verdict_plain hnet htristate
      (netlist.after state (front ++ .phase ref.part placed.device.last :: middle))
    rw [halone] at hverdict
    rw [hverdict, ← hvalue, ← hpin]

/-- What a pin that no net tells anything shows in the end. -/
theorem look_spoken (hport : netlist.port? ref = some port) (huntold : netlist.Untold ref)
    (hspoken : netlist.Spoken (netlist.final state) ref) :
    (netlist.final state).look ref =
      ((netlist.lastEdit (netlist.final state) ref).told.getD 0, true) := by
  have hwired := hflat.wired
  obtain ⟨placed, hpart, -⟩ := part_of_port hport
  obtain ⟨left, right, htrace⟩ := exists_split_last hwired hpart state
  have hsplit : netlist.trace state = (left ++ [.phase ref.part placed.device.last]) ++ right := by
    rw [htrace, List.append_assoc, List.singleton_append]
  have hpin := pin_final hwired h hsplit hport hpart
    (List.mem_append_right _ (List.mem_singleton_self _)) fun index _ => huntold index
  rw [State.look, ← hpin, value_spoken hflat hstatic h hblank hport hpart htrace hspoken, hpin,
    (blank_final hflat h hblank).resolved hport huntold]

end Netlist

end Breadboard
