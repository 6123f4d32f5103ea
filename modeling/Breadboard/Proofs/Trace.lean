import Breadboard.Proofs.Perform
import Breadboard.Proofs.Turning

/-!
# Along a settle

A settle is its trace of tasks carried out in turn (`final_eq`). What a cell
holds at the end is therefore what it holds after any part of the trace behind
which no task touches it (`after_eq_final`). This file says for pins, nets and
memories which tasks these are: before the last phase of a part its pins change
at most in the way they face (`pin_foldl_early`), after it nothing enables or
turns them any more (`turn_final`), an input changes only by the nets that list
it (`look_final`), a net only by its own resolution (`net_final`), and a memory
only if a probe or a bridge remembers it (`memory_frame`).

Throughout, a trace is cut in two: `left` has run, `right` is to come.
-/

namespace Breadboard

namespace State

variable {netlist : Netlist} {state : State} {ref : PortRef} {port : Port} {task : Task}
  {part position index : Nat}

/-! ## Changing every pin -/

theorem Sound.getElem?_zip {placed : Part} (h : Sound netlist state)
    (hpart : netlist.parts[part]? = some placed) :
    (netlist.parts.zip state.parts)[part]? = some (placed, state.part part) := by
  have hlt : part < state.parts.length := by
    rw [h.parts]
    exact (List.getElem?_eq_some_iff.mp hpart).1
  rw [List.getElem?_zip_eq_some]
  refine ⟨hpart, ?_⟩
  rw [State.part, List.getD_eq_getElem?_getD, List.getElem?_eq_getElem hlt]
  rfl

theorem part_mapPins {placed : Part} (h : Sound netlist state)
    (hpart : netlist.parts[part]? = some placed) (f : Port → Pin → Pin) :
    (state.mapPins netlist f).part part =
      { state.part part with
        pins := (placed.ports.zip (state.part part).pins).map fun held => f held.1 held.2 } := by
  rw [State.part, State.mapPins]
  simp [List.getD_eq_getElem?_getD, h.getElem?_zip hpart]

theorem pin_mapPins (h : Sound netlist state) (hport : netlist.port? ref = some port)
    (f : Port → Pin → Pin) : (state.mapPins netlist f).pin ref = f port (state.pin ref) := by
  obtain ⟨placed, hpart, hplace⟩ := Netlist.part_of_port hport
  have hpin : (state.part ref.part).pins[ref.port]? = some (state.pin ref) := by
    rw [State.pin, PartState.pin, List.getD_eq_getElem?_getD,
      List.getElem?_eq_getElem (h.has hport).2]
    rfl
  have hpins : (placed.ports.zip (state.part ref.part).pins)[ref.port]? =
      some (port, state.pin ref) := by
    rw [List.getElem?_zip_eq_some]
    exact ⟨hplace, hpin⟩
  rw [State.pin, part_mapPins h hpart, PartState.pin]
  simp [List.getD_eq_getElem?_getD, hpins]

theorem memory_mapPins (h : Sound netlist state) (f : Port → Pin → Pin) (index : Nat) :
    ((state.mapPins netlist f).part index).memory = (state.part index).memory := by
  cases hpart : netlist.parts[index]? with
  | some placed => rw [part_mapPins h hpart]
  | none =>
    have hle : netlist.parts.length ≤ index := List.getElem?_eq_none_iff.mp hpart
    have hnone : state.parts[index]? = none := List.getElem?_eq_none (h.parts ▸ hle)
    have hnone' : (state.mapPins netlist f).parts[index]? = none :=
      List.getElem?_eq_none (by simp [State.mapPins, h.parts, hle])
    rw [State.part, State.part, List.getD_eq_getElem?_getD, List.getD_eq_getElem?_getD, hnone,
      hnone']

theorem Sound.mapPins (h : Sound netlist state) (f : Port → Pin → Pin) :
    Sound netlist (state.mapPins netlist f) := by
  refine ⟨?_, h.nets, ?_, ?_⟩
  · simp [State.mapPins, h.parts]
  · intro index placed hpart
    rw [part_mapPins h hpart]
    simp [h.pins hpart]
  · intro index placed hpart
    rw [part_mapPins h hpart]
    exact h.fits hpart

/-! ## Frames -/

/-- What every task of a list leaves alone, the list leaves alone. -/
theorem foldl_frame {α : Type} {f : State → α} (hnative : ∀ part ∈ netlist.parts, part.device.Native)
    {tasks : List Task}
    (hframe : ∀ task ∈ tasks, ∀ state, Sound netlist state → f (state.perform netlist task) = f state)
    (h : Sound netlist state) :
    f (tasks.foldl (State.perform netlist) state) = f state := by
  induction tasks generalizing state with
  | nil => rfl
  | cons task tasks ih =>
    rw [List.foldl_cons, ih (fun other hother => hframe other (List.mem_cons_of_mem _ hother))
      (h.perform hnative)]
    exact hframe task (List.mem_cons_self ..) state h

theorem Sound.foldl_perform (hnative : ∀ part ∈ netlist.parts, part.device.Native)
    (tasks : List Task) : ∀ {state : State}, Sound netlist state →
      Sound netlist (tasks.foldl (State.perform netlist) state) := by
  induction tasks with
  | nil => exact fun h => h
  | cons task tasks ih => exact fun h => ih (h.perform hnative)

/-- Whether a pin drives and which way it faces. -/
def turn (ref : PortRef) (state : State) : Bool × Facing :=
  ((state.pin ref).enabled, (state.pin ref).facing)

/-- What a phase can see of a pin. -/
def look (ref : PortRef) (state : State) : Word × Bool :=
  ((state.pin ref).value, (state.pin ref).resolved)

theorem turn_net (h : Sound netlist state) (hport : netlist.port? ref = some port) :
    (state.perform netlist (.net index)).turn ref = state.turn ref := by
  rw [turn, perform, pin_resolve (h.has hport)]
  split
  · simp [turn]
  · rfl

theorem pin_net (h : Sound netlist state) (hport : netlist.port? ref = some port)
    (href : ref ∉ (netlist.nets.getD index default).targets) :
    (state.perform netlist (.net index)).pin ref = state.pin ref := by
  rw [perform, pin_resolve (h.has hport), if_neg href]

theorem part_phase (hwired : netlist.Wired) {other : Nat} (hne : other ≠ part) :
    (state.perform netlist (.phase part position)).part other = state.part other := by
  by_cases hlt : part < state.parts.length
  · rw [perform, part_runPhase (native_getD hwired.native part) hlt, if_neg hne]
  · rw [perform, runPhase_eq _ _ (native_getD hwired.native part), setPart,
      List.set_eq_of_length_le (Nat.not_lt.mp hlt)]
    rfl

theorem pin_phase_of_ne (hwired : netlist.Wired) (hne : ref.part ≠ part) :
    (state.perform netlist (.phase part position)).pin ref = state.pin ref := by
  rw [State.pin, part_phase hwired hne, State.pin]

theorem pin_phase (hwired : netlist.Wired) (h : Sound netlist state)
    (hport : netlist.port? ref = some port) (position : Nat) :
    (state.perform netlist (.phase ref.part position)).pin ref =
      ((state.effect netlist ref.part position).edit ref.port).apply (state.pin ref) := by
  rw [perform, pin_runPhase (native_getD hwired.native _) (h.has hport).1 (h.has hport), if_pos rfl]

theorem effect_eq {placed : Part} (hpart : netlist.parts[part]? = some placed) (state : State)
    (position : Nat) : state.effect netlist part position =
      placed.device.effect placed.ports position (state.part part) := by
  rw [effect, List.getD_eq_getElem?_getD, hpart]
  rfl

/-- Before the last phase of its part a task changes of a pin at most the way it
faces, unless the task is a net that lists it. -/
theorem pin_early {placed : Part} {phase : Phase} (hwired : netlist.Wired)
    (h : Sound netlist state) (hport : netlist.port? ref = some port)
    (hpart : netlist.parts[ref.part]? = some placed)
    (hphase : netlist.Ordinary part position phase)
    (hlast : Task.phase part position ≠ .phase ref.part placed.device.last) :
    ∃ facing, (state.perform netlist (.phase part position)).pin ref =
      { state.pin ref with facing } := by
  by_cases hne : ref.part = part
  · subst hne
    obtain ⟨owner, howner, hfound⟩ := Netlist.part_of_phase hphase
    obtain rfl := Option.some.inj (howner.symm.trans hpart)
    obtain ⟨owner', howner', hplace⟩ := Netlist.part_of_port hport
    obtain rfl := Option.some.inj (howner'.symm.trans hpart)
    have hearly : position ≠ owner'.device.last := fun heq => hlast (by rw [heq])
    rw [pin_phase hwired h hport, effect_eq hpart]
    rcases (hwired.regularAt hpart).early (state.part ref.part) hfound hphase.2 hearly hplace
      with hedit | ⟨-, facing, hedit⟩
    · rw [hedit]
      exact ⟨_, rfl⟩
    · rw [hedit]
      exact ⟨facing, rfl⟩
  · exact ⟨_, pin_phase_of_ne hwired hne⟩

/-- Where neither the last phase of its part nor a net that lists it runs, a pin
changes at most in the way it faces. -/
theorem pin_foldl_early {placed : Part} {tasks : List Task} (hwired : netlist.Wired)
    (h : Sound netlist state) (hport : netlist.port? ref = some port)
    (hpart : netlist.parts[ref.part]? = some placed)
    (hordinary : ∀ part position, .phase part position ∈ tasks →
      ∃ phase, netlist.Ordinary part position phase)
    (hlast : .phase ref.part placed.device.last ∉ tasks)
    (hnets : ∀ index, .net index ∈ tasks → ref ∉ (netlist.nets.getD index default).targets) :
    ∃ facing, (tasks.foldl (State.perform netlist) state).pin ref =
      { state.pin ref with facing } := by
  induction tasks generalizing state with
  | nil => exact ⟨_, rfl⟩
  | cons task tasks ih =>
    have hstep : ∃ facing, (state.perform netlist task).pin ref =
        { state.pin ref with facing } := by
      cases task with
      | net index => exact ⟨_, pin_net h hport (hnets index (List.mem_cons_self ..))⟩
      | phase part position =>
        obtain ⟨phase, hphase⟩ := hordinary part position (List.mem_cons_self ..)
        refine pin_early hwired h hport hpart hphase fun heq => hlast ?_
        rw [heq]
        exact List.mem_cons_self ..
    obtain ⟨first, hfirst⟩ := hstep
    obtain ⟨second, hsecond⟩ := ih (h.perform hwired.native)
      (fun part position hmem => hordinary part position (List.mem_cons_of_mem _ hmem))
      (fun hmem => hlast (List.mem_cons_of_mem _ hmem))
      (fun index hmem => hnets index (List.mem_cons_of_mem _ hmem))
    refine ⟨second, ?_⟩
    rw [List.foldl_cons, hsecond, hfirst]

/-- A phase leaves alone what can be seen of an input. -/
theorem look_phase (hwired : netlist.Wired) (h : Sound netlist state)
    (hport : netlist.port? ref = some port) (houtput : port.type.output = false)
    {phase : Phase} (hphase : netlist.Ordinary part position phase) :
    (state.perform netlist (.phase part position)).look ref = state.look ref := by
  obtain ⟨placed, hpart, hplace⟩ := Netlist.part_of_port hport
  by_cases hlast : Task.phase part position = .phase ref.part placed.device.last
  · obtain ⟨rfl, rfl⟩ := Task.phase.inj hlast
    rw [look, pin_phase hwired h hport, effect_eq hpart]
    generalize hedit : (placed.device.effect placed.ports placed.device.last
      (state.part ref.part)).edit ref.port = edit
    have hfinal := (hwired.regularAt hpart).final (state.part ref.part) hplace
    rw [hedit] at hfinal
    cases hfinal with
    | keep => rfl
    | ignore => rfl
    | set value hout => rw [houtput] at hout; cases hout
    | drive value hout => rw [houtput] at hout; cases hout
  · obtain ⟨facing, hpin⟩ := pin_early hwired h hport hpart hphase hlast
    rw [look, hpin]
    rfl

end State

/-! ## Runs -/

namespace Netlist

variable {netlist : Netlist} {state : State} {ref : PortRef} {port : Port} {task : Task}
  {placed : Part} {part position index : Nat} {left middle right : List Task}

/-- The state in which a settle begins. -/
def begun (netlist : Netlist) (state : State) : State :=
  state.mapPins netlist fun port pin => { pin with enabled := !port.type.tristate }

/-- The state of a settle after some of its tasks. -/
def after (netlist : Netlist) (state : State) (tasks : List Task) : State :=
  tasks.foldl (State.perform netlist) (netlist.begun state)

/-- The state that a settle leads to. -/
def final (netlist : Netlist) (state : State) : State :=
  (settle netlist (compile netlist) state).1

theorem final_eq (netlist : Netlist) (state : State) :
    netlist.final state = netlist.after state (netlist.trace state) :=
  netlist.settle_eq_foldl state

theorem after_append (tasks more : List Task) : netlist.after state (tasks ++ more) =
    more.foldl (State.perform netlist) (netlist.after state tasks) :=
  List.foldl_append

theorem after_snoc (tasks : List Task) (task : Task) : netlist.after state (tasks ++ [task]) =
    (netlist.after state tasks).perform netlist task := by
  rw [after_append, List.foldl_cons, List.foldl_nil]

theorem sound_after (hwired : netlist.Wired) (h : State.Sound netlist state)
    (tasks : List Task) : State.Sound netlist (netlist.after state tasks) :=
  State.Sound.foldl_perform hwired.native tasks (h.mapPins _)

theorem sound_final (hwired : netlist.Wired) (h : State.Sound netlist state) :
    State.Sound netlist (netlist.final state) := by
  rw [final_eq]
  exact sound_after hwired h _

theorem after_eq_final {α : Type} (f : State → α) (hwired : netlist.Wired)
    (h : State.Sound netlist state) (htrace : netlist.trace state = left ++ right)
    (hframe : ∀ task ∈ right, ∀ state, State.Sound netlist state →
      f (state.perform netlist task) = f state) :
    f (netlist.after state left) = f (netlist.final state) := by
  rw [final_eq, htrace, after_append]
  exact (State.foldl_frame hwired.native hframe (sound_after hwired h left)).symm

theorem after_eq_begun {α : Type} (left : List Task) (f : State → α) (hwired : netlist.Wired)
    (h : State.Sound netlist state)
    (hframe : ∀ task ∈ left, ∀ state, State.Sound netlist state →
      f (state.perform netlist task) = f state) :
    f (netlist.after state left) = f (netlist.begun state) :=
  State.foldl_frame hwired.native hframe (h.mapPins _)

/-! ### One task more -/

theorem pin_after_net (hwired : netlist.Wired) {state : State} (h : State.Sound netlist state)
    (hport : netlist.port? ref = some port) :
    (netlist.after state (left ++ [.net index])).pin ref =
      if ref ∈ (netlist.nets.getD index default).targets then
        ((netlist.after state left).pin ref).hear ((netlist.after state left).verdict netlist index).1
      else (netlist.after state left).pin ref := by
  rw [after_snoc, State.perform, State.pin_resolve ((sound_after hwired h left).has hport)]

theorem net_after_net (hwired : netlist.Wired) {state : State} (h : State.Sound netlist state)
    (hindex : index < netlist.nets.length) (other : Nat) :
    (netlist.after state (left ++ [.net index])).net other =
      if other = index then
        ⟨((netlist.after state left).verdict netlist index).1.getD
          ((netlist.after state left).net index).value,
          ((netlist.after state left).verdict netlist index).2⟩
      else (netlist.after state left).net other := by
  rw [after_snoc, State.perform, State.net_resolve]
  rw [(sound_after hwired h left).nets]
  exact hindex

theorem pin_after_phase (hwired : netlist.Wired) {state : State} (h : State.Sound netlist state)
    (hport : netlist.port? ref = some port) :
    (netlist.after state (left ++ [.phase part position])).pin ref =
      if ref.part = part then
        (((netlist.after state left).effect netlist part position).edit ref.port).apply
          ((netlist.after state left).pin ref)
      else (netlist.after state left).pin ref := by
  rw [after_snoc]
  split
  · next hpart =>
    subst hpart
    exact State.pin_phase hwired (sound_after hwired h left) hport position
  · next hpart => exact State.pin_phase_of_ne hwired hpart

theorem memory_after_phase (hwired : netlist.Wired) {state : State} (h : State.Sound netlist state)
    (hpart : netlist.parts[part]? = some placed) (other : Nat) :
    ((netlist.after state (left ++ [.phase part position])).part other).memory =
      if other = part then ((netlist.after state left).effect netlist part position).memory
      else ((netlist.after state left).part other).memory := by
  have hlt : part < (netlist.after state left).parts.length := by
    rw [(sound_after hwired h left).parts]
    exact (List.getElem?_eq_some_iff.mp hpart).1
  rw [after_snoc, State.perform, State.part_runPhase (State.native_getD hwired.native part) hlt]
  split <;> rfl

theorem status_after_phase (hwired : netlist.Wired) {state : State} :
    (netlist.after state (left ++ [.phase part position])).status =
      ((netlist.after state left).effect netlist part position).status
        (netlist.after state left).status := by
  rw [after_snoc, State.perform, State.runPhase_eq _ _ (State.native_getD hwired.native part)]

/-! ### Pins -/

theorem pin_begun (h : State.Sound netlist state) (hport : netlist.port? ref = some port) :
    (netlist.begun state).pin ref =
      { state.pin ref with enabled := !port.type.tristate } :=
  State.pin_mapPins h hport _

/-- Behind the last phase of its part a pin is not turned any more. -/
theorem turn_between (hwired : netlist.Wired) (h : State.Sound netlist state)
    (htrace : netlist.trace state = left ++ (middle ++ right))
    (hport : netlist.port? ref = some port) (hpart : netlist.parts[ref.part]? = some placed)
    (hlast : .phase ref.part placed.device.last ∈ left) :
    (netlist.after state (left ++ middle)).turn ref = (netlist.after state left).turn ref := by
  rw [after_append]
  refine State.foldl_frame (f := State.turn ref) hwired.native (fun task htask state' hstate => ?_)
    (sound_after hwired h left)
  cases task with
  | net index => exact State.turn_net hstate hport
  | phase part position =>
    have hne : ref.part ≠ part := by
      rintro rfl
      exact not_mem_behind hwired htrace hpart hlast position (List.mem_append_left _ htask)
    rw [State.turn, State.pin_phase_of_ne hwired hne]
    rfl

theorem turn_final (hwired : netlist.Wired) (h : State.Sound netlist state)
    (htrace : netlist.trace state = left ++ right)
    (hport : netlist.port? ref = some port) (hpart : netlist.parts[ref.part]? = some placed)
    (hlast : .phase ref.part placed.device.last ∈ left) :
    (netlist.after state left).turn ref = (netlist.final state).turn ref := by
  have hall : netlist.trace state = left ++ (right ++ []) := by
    rw [htrace, List.append_nil]
  rw [final_eq, htrace]
  exact (turn_between hwired h hall hport hpart hlast).symm

/-- Before the last phase of its part a pin is enabled unless it is tri-state. -/
theorem enabled_early (hwired : netlist.Wired) (h : State.Sound netlist state)
    (htrace : netlist.trace state = left ++ right) (hport : netlist.port? ref = some port)
    (hpart : netlist.parts[ref.part]? = some placed)
    (hlast : .phase ref.part placed.device.last ∉ left) :
    ((netlist.after state left).pin ref).enabled = !port.type.tristate := by
  have hframe := after_eq_begun left (fun state => (state.pin ref).enabled) hwired h ?_
  · rw [hframe, pin_begun h hport]
  · intro task htask state' hstate
    cases task with
    | net index => exact congrArg Prod.fst (State.turn_net hstate hport)
    | phase part position =>
      obtain ⟨phase, hphase⟩ := ordinary_of_mem_left htrace htask
      obtain ⟨facing, hpin⟩ := State.pin_early hwired hstate hport hpart hphase
        fun heq => hlast (heq ▸ htask)
      rw [hpin]

/-- An input shows at the end what it shows behind the nets that list it. -/
theorem look_final (hwired : netlist.Wired) (h : State.Sound netlist state)
    (htrace : netlist.trace state = left ++ right) (hport : netlist.port? ref = some port)
    (houtput : port.type.output = false)
    (hnets : ∀ index, .net index ∈ right → ref ∉ (netlist.nets.getD index default).targets) :
    (netlist.after state left).look ref = (netlist.final state).look ref := by
  refine after_eq_final (State.look ref) hwired h htrace fun task htask state' hstate => ?_
  cases task with
  | net index =>
    rw [State.look, State.pin_net hstate hport (hnets index htask)]
    rfl
  | phase part position =>
    obtain ⟨phase, hphase⟩ := ordinary_of_mem_right htrace htask
    exact State.look_phase hwired hstate hport houtput hphase

/-- Behind the last phase of its part a pin changes only by the nets that list it. -/
theorem pin_between (hwired : netlist.Wired) (h : State.Sound netlist state)
    (htrace : netlist.trace state = left ++ (middle ++ right))
    (hport : netlist.port? ref = some port) (hpart : netlist.parts[ref.part]? = some placed)
    (hlast : .phase ref.part placed.device.last ∈ left)
    (hnets : ∀ index, .net index ∈ middle → ref ∉ (netlist.nets.getD index default).targets) :
    (netlist.after state (left ++ middle)).pin ref = (netlist.after state left).pin ref := by
  rw [after_append]
  refine State.foldl_frame (f := (State.pin · ref)) hwired.native (fun task htask state' hstate => ?_)
    (sound_after hwired h left)
  cases task with
  | net index => exact State.pin_net hstate hport (hnets index htask)
  | phase part position =>
    refine State.pin_phase_of_ne hwired ?_
    rintro rfl
    exact not_mem_behind hwired htrace hpart hlast position (List.mem_append_left _ htask)

theorem pin_final (hwired : netlist.Wired) (h : State.Sound netlist state)
    (htrace : netlist.trace state = left ++ right)
    (hport : netlist.port? ref = some port) (hpart : netlist.parts[ref.part]? = some placed)
    (hlast : .phase ref.part placed.device.last ∈ left)
    (hnets : ∀ index, .net index ∈ right → ref ∉ (netlist.nets.getD index default).targets) :
    (netlist.after state left).pin ref = (netlist.final state).pin ref := by
  have hall : netlist.trace state = left ++ (right ++ []) := by
    rw [htrace, List.append_nil]
  rw [final_eq, htrace]
  exact (pin_between hwired h hall hport hpart hlast hnets).symm

/-- Where neither the last phase of its part nor a net that lists it runs, a pin
shows what it showed before. -/
theorem look_between (hwired : netlist.Wired) (h : State.Sound netlist state)
    (htrace : netlist.trace state = left ++ (middle ++ right))
    (hport : netlist.port? ref = some port) (hpart : netlist.parts[ref.part]? = some placed)
    (hlast : .phase ref.part placed.device.last ∉ middle)
    (hnets : ∀ index, .net index ∈ middle → ref ∉ (netlist.nets.getD index default).targets) :
    (netlist.after state (left ++ middle)).look ref = (netlist.after state left).look ref := by
  rw [after_append]
  obtain ⟨facing, hpin⟩ := State.pin_foldl_early hwired (sound_after hwired h left) hport hpart
    (fun part position hmem => ordinary_of_mem_right htrace (List.mem_append_left _ hmem))
    hlast hnets
  rw [State.look, hpin]
  rfl

/-- Before the last phase of its part and the nets that list it, a pin shows what
it showed before the settle. -/
theorem look_early (hwired : netlist.Wired) (h : State.Sound netlist state)
    (hordinary : ∀ part position, .phase part position ∈ left →
      ∃ phase, netlist.Ordinary part position phase)
    (hport : netlist.port? ref = some port) (hpart : netlist.parts[ref.part]? = some placed)
    (hlast : .phase ref.part placed.device.last ∉ left)
    (hnets : ∀ index, .net index ∈ left → ref ∉ (netlist.nets.getD index default).targets) :
    (netlist.after state left).look ref = state.look ref := by
  have hbegun : State.Sound netlist (netlist.begun state) := h.mapPins _
  obtain ⟨facing, hpin⟩ := State.pin_foldl_early hwired hbegun hport hpart hordinary hlast hnets
  rw [State.look, after, hpin, pin_begun h hport]
  rfl

/-! ### Nets -/

theorem net_frame {other : Task} {state : State} (hne : other ≠ .net index) :
    (state.perform netlist other).net index = state.net index := by
  cases other with
  | phase part position => rfl
  | net other =>
    have hdiffer : index ≠ other := by
      rintro rfl
      exact hne rfl
    by_cases hlt : other < state.nets.length
    · rw [State.perform, State.net_resolve hlt, if_neg hdiffer]
    · rw [State.perform, State.resolve_eq, State.net, (State.tell_eq ..).1, State.setNet,
        List.set_eq_of_length_le (Nat.not_lt.mp hlt)]
      rfl

/-- A net is decided once, and until then keeps what it was before the settle. -/
theorem net_final (hwired : netlist.Wired) (h : State.Sound netlist state)
    (htrace : netlist.trace state = left ++ .net index :: right)
    (hindex : index < netlist.nets.length) :
    (netlist.final state).net index =
      ⟨((netlist.after state left).verdict netlist index).1.getD (state.net index).value,
        ((netlist.after state left).verdict netlist index).2⟩ := by
  obtain ⟨hleft, hright⟩ := not_mem_split htrace
  have hlater : ∀ task ∈ right, task ≠ .net index := by
    rintro task htask rfl
    exact hright htask
  have hearlier : ∀ task ∈ left, task ≠ .net index := by
    rintro task htask rfl
    exact hleft htask
  have hsplit : netlist.trace state = (left ++ [.net index]) ++ right := by
    rw [htrace, List.append_assoc, List.singleton_append]
  rw [← after_eq_final (State.net · index) hwired h hsplit
    fun task htask _ _ => net_frame (hlater task htask)]
  have hbefore := after_eq_begun left (State.net · index) hwired h
    fun task htask _ _ => net_frame (hearlier task htask)
  have hlt : index < (netlist.after state left).nets.length := by
    rw [(sound_after hwired h left).nets]
    exact hindex
  rw [after_snoc, State.perform, State.net_resolve hlt, if_pos rfl, hbefore]
  rfl

/-! ### Memories -/

/-- Only a probe changes what it remembers, and a bridge that turns. -/
theorem memory_frame (hwired : netlist.Wired) (h : State.Sound netlist state)
    (hpart : netlist.parts[part]? = some placed)
    (hordinary : ∀ position, task = .phase part position →
      ∃ phase, netlist.Ordinary part position phase)
    (hprobe : placed.device ≠ .probe) (hturn : placed.device = .bridge → task ≠ .phase part 0) :
    ((state.perform netlist task).part part).memory = (state.part part).memory := by
  cases task with
  | net index => exact State.memory_resolve
  | phase other position =>
    by_cases hne : part = other
    · subst hne
      obtain ⟨phase, hphase⟩ := hordinary position rfl
      obtain ⟨owner, howner, hfound⟩ := part_of_phase hphase
      obtain rfl := Option.some.inj (howner.symm.trans hpart)
      have hlt : part < state.parts.length := by
        rw [h.parts]
        exact (List.getElem?_eq_some_iff.mp hpart).1
      rw [State.perform, State.part_runPhase (State.native_getD hwired.native part) hlt,
        if_pos rfl, State.effect_eq hpart, Effect.apply]
      rcases (hwired.regularAt hpart).memory (state.part part) hfound hphase.2
        with hkeep | hdevice | ⟨hbridge, rfl⟩
      · exact hkeep
      · exact absurd hdevice hprobe
      · exact absurd rfl (hturn hbridge)
    · rw [State.part_phase hwired hne]

/-- What is neither a probe nor a bridge remembers behind a settle what it did before. -/
theorem memory_kept (hwired : netlist.Wired) (h : State.Sound netlist state)
    (hpart : netlist.parts[part]? = some placed) (hprobe : placed.device ≠ .probe)
    (hbridge : placed.device ≠ .bridge) :
    ((netlist.final state).part part).memory = (state.part part).memory := by
  rw [final_eq]
  refine (after_eq_begun (netlist.trace state) (fun state => (state.part part).memory) hwired h
    fun task htask state' hstate => ?_).trans (State.memory_mapPins h _ part)
  exact memory_frame hwired hstate hpart (fun position heq => ordinary_of_mem_trace (heq ▸ htask))
    hprobe fun hdevice => absurd hdevice hbridge

theorem memory_final (hwired : netlist.Wired) (h : State.Sound netlist state)
    (htrace : netlist.trace state = left ++ right)
    (hphases : ∀ position, .phase part position ∉ right) :
    ((netlist.after state left).part part).memory =
      ((netlist.final state).part part).memory := by
  refine after_eq_final (fun state => (state.part part).memory) hwired h htrace
    fun task htask state' hstate => ?_
  cases task with
  | net index => exact State.memory_resolve
  | phase other position =>
    rw [State.part_phase hwired]
    rintro rfl
    exact hphases position htask

end Netlist

end Breadboard
