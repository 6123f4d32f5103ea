import Breadboard.Proofs.Calm

/-!
# A circuit inside another one

An `Embedding` says where the parts and nets of one circuit stand in another
one. It `Places` the first in the second if every part comes with its device,
phases and ports, and every net with its drivers and with those of its readers
that are parts of the first. Then a task does to the places of the first
circuit what its image does in the second (`Extends.perform`), and so does any
list of tasks (`Extends.foldl`): all that a task goes by moves with it.

Nothing is asked of the other parts here, and devices may be scripted.
-/

namespace Breadboard

/-! ## Devices -/

namespace Device

/-- Where its ports are wired to does not matter to a device, except whether they
are. -/
theorem run_ports (device : Device) {first second : List Port} (phase : Nat) (held : PartState)
    (status : Status) (hports : ∀ index,
      (first.getD index default).bound = (second.getD index default).bound ∧
        (first.getD index default).toPortDecl = (second.getD index default).toPortDecl) :
    device.run first phase held status = device.run second phase held status := by
  have htype : ∀ index, (first.getD index default).type = (second.getD index default).type :=
    fun index => congrArg PortDecl.type (hports index).2
  have hwidth : ∀ index, (first.getD index default).width = (second.getD index default).width :=
    fun index => congrArg PortDecl.width (hports index).2
  have haction : ∀ action state, Action.run first action state = Action.run second action state := by
    intro action state
    cases action <;> simp only [Action.run, htype, hwidth]
  obtain ⟨pins, memory⟩ := held
  cases device with
  | register =>
    cases memory with
    | register value => simp only [run, (hports 1).1]
    | _ => rfl
  | boundary inbound tristate value =>
    simp only [run, fun index => (hports index).1, htype]
  | scripted persistent phases => simp only [run, haction]
  | input | ram | bridge => cases memory <;> rfl
  | _ => rfl

/-- What a device does to its part does not depend on whether the circuit has
stopped, and whether it has stopped behind a phase not on the reason. -/
theorem run_status (device : Device) (ports : List Port) (phase : Nat) (held : PartState)
    {status other : Status} (hstatus : status.isHalted = other.isHalted) :
    (device.run ports phase held status).1 = (device.run ports phase held other).1 ∧
      (device.run ports phase held status).2.isHalted =
        (device.run ports phase held other).2.isHalted := by
  by_cases hnative : device.Native
  · rw [run_eq hnative, run_eq hnative]
    exact ⟨rfl, by simp only [Effect.isHalted_status, hstatus]⟩
  · cases device with
    | scripted persistent phases =>
      have haction : ∀ (action : Action Nat) {state state' : PartState × Status},
          state.1 = state'.1 ∧ state.2.isHalted = state'.2.isHalted →
          (action.run ports state).1 = (action.run ports state').1 ∧
            (action.run ports state).2.isHalted = (action.run ports state').2.isHalted := by
        rintro action ⟨part, status⟩ ⟨_, status'⟩ ⟨rfl, hsame⟩
        cases action with
        | load target =>
          obtain ⟨pins, memory⟩ := part
          cases memory <;> exact ⟨rfl, hsame⟩
        | halt pin reason =>
          simp only [Action.run]
          split
          · exact ⟨rfl, hsame⟩
          · exact ⟨rfl, rfl⟩
        | _ => exact ⟨rfl, hsame⟩
      have hfoldl : ∀ (actions : List (Action Nat)) {state state' : PartState × Status},
          state.1 = state'.1 ∧ state.2.isHalted = state'.2.isHalted →
          (actions.foldl (fun state action => action.run ports state) state).1 =
              (actions.foldl (fun state action => action.run ports state) state').1 ∧
            (actions.foldl (fun state action => action.run ports state) state).2.isHalted =
              (actions.foldl (fun state action => action.run ports state) state').2.isHalted := by
        intro actions
        induction actions with
        | nil => exact fun h => h
        | cons action actions ih => exact fun h => ih (haction action h)
      exact hfoldl _ ⟨rfl, hstatus⟩
    | _ => exact absurd trivial hnative

end Device

/-! ## Embeddings -/

/-- Where the parts and the nets of one circuit stand in another one. -/
structure Embedding where
  part : Nat → Nat
  net : Nat → Nat

namespace Embedding

variable (e : Embedding)

def ref (ref : PortRef) : PortRef :=
  ⟨e.part ref.part, ref.port⟩

def task : Task → Task
  | .phase part phase => .phase (e.part part) phase
  | .net net => .net (e.net net)

def port (port : Port) : Port :=
  { port with net := port.net.map e.net }

/-- The parts of `inner` stand in `outer` with their ports, and its nets with
their drivers and with those readers that are parts of `inner`. The width of a net
without drivers shows nowhere. -/
structure Places (inner outer : Netlist) : Prop where
  part_inj : ∀ p < inner.parts.length, ∀ q < inner.parts.length, e.part p = e.part q → p = q
  net_inj : ∀ n < inner.nets.length, ∀ m < inner.nets.length, e.net n = e.net m → n = m
  part : ∀ {p : Nat} {placed : Part}, inner.parts[p]? = some placed → ∃ host,
    outer.parts[e.part p]? = some host ∧ host.device = placed.device ∧
      host.phases = placed.phases ∧ host.ports = placed.ports.map e.port
  net : ∀ {n : Nat} {joined : Net}, inner.nets[n]? = some joined → ∃ host,
    outer.nets[e.net n]? = some host ∧ (joined.sources ≠ [] → host.width = joined.width) ∧
      host.tristate = joined.tristate ∧ host.sources.Perm (joined.sources.map e.ref) ∧
      ∀ ref, ref.part < inner.parts.length → (e.ref ref ∈ host.targets ↔ ref ∈ joined.targets)
  listed : inner.Placed

/-- Two states hold the same where the first circuit stands in the second. -/
structure Extends (inner : Netlist) (small big : State) : Prop where
  part : ∀ p < inner.parts.length, small.parts[p]? = big.parts[e.part p]?
  net : ∀ n < inner.nets.length, small.nets[n]? = big.nets[e.net n]?
  halted : small.status.isHalted = big.status.isHalted

end Embedding

/-! ## Telling the readers of a net -/

/-- The pins of a part when all that are listed have been told. -/
def PartState.told (decided : Option Word) (targets : List PortRef) (index : Nat)
    (held : PartState) : PartState :=
  { held with
    pins := held.pins.mapIdx fun port pin =>
      if (⟨index, port⟩ : PortRef) ∈ targets then pin.hear decided else pin }

theorem PartState.eq_of_pins {first second : PartState}
    (hpins : ∀ port : Nat, first.pins[port]? = second.pins[port]?)
    (hmemory : first.memory = second.memory) : first = second := by
  obtain ⟨pins, memory⟩ := first
  obtain ⟨pins', memory'⟩ := second
  exact congrArg₂ PartState.mk (List.ext_getElem? hpins) hmemory

theorem PartState.getElem?_told (decided : Option Word) (targets : List PortRef) (index : Nat)
    (held : PartState) (port : Nat) : (held.told decided targets index).pins[port]? =
      held.pins[port]?.map fun pin =>
        if (⟨index, port⟩ : PortRef) ∈ targets then pin.hear decided else pin := by
  rw [told, List.getElem?_mapIdx]

theorem PartState.told_nil (decided : Option Word) (index : Nat) (held : PartState) :
    held.told decided [] index = held :=
  eq_of_pins (fun port => by simp [getElem?_told]) rfl

theorem PartState.told_cons (decided : Option Word) (ref : PortRef) (targets : List PortRef)
    (index : Nat) (held : PartState) : held.told decided (ref :: targets) index =
      ((if ref.part = index then held.update ref.port (Pin.hear decided) else held).told decided
        targets index) := by
  obtain ⟨part, place⟩ := ref
  refine eq_of_pins (fun port => ?_) (by split <;> rfl)
  rw [getElem?_told, getElem?_told]
  by_cases hpart : part = index
  · subst hpart
    by_cases hport : place = port
    · subst hport
      cases h : held.pins[place]? <;> simp [update, h, Pin.hear_hear]
    · have hne : (⟨part, port⟩ : PortRef) ≠ ⟨part, place⟩ := by simp [Ne.symm hport]
      simp [update, hport, Ne.symm hport]
  · simp [hpart, Ne.symm hpart]

theorem State.parts_tell (decided : Option Word) (index : Nat) :
    ∀ (targets : List PortRef) (state : State),
      (state.tell decided targets).parts[index]? =
        state.parts[index]?.map (PartState.told decided targets index) := by
  intro targets
  induction targets with
  | nil =>
    intro state
    cases h : state.parts[index]? with
    | none => simp [tell, h]
    | some held => simp [tell, h, PartState.told_nil]
  | cons ref targets ih =>
    intro state
    refine (ih (state.updatePin (Pin.hear decided) ref)).trans ?_
    rw [updatePin, List.getElem?_modify]
    cases h : state.parts[index]? with
    | none => rfl
    | some held =>
      simp only [Option.map_some, PartState.told_cons]
      split <;> rfl

/-! ## Tasks -/

theorem getElem?_zip {α β : Type} {list : List α} {index : Nat} {a : α}
    (h : list[index]? = some a) (list' : List β) :
    (list.zip list')[index]? = list'[index]?.map (a, ·) := by
  rw [List.zip, List.getElem?_zipWith, h]
  cases list'[index]? <;> rfl

theorem State.parts_runPhase (netlist : Netlist) (part phase : Nat) (state : State) :
    (state.runPhase netlist part phase).parts = state.parts.set part
      ((netlist.parts.getD part default).device.run (netlist.parts.getD part default).ports phase
        (state.part part) state.status).1 := rfl

/-- Setting an entry and setting its image comes to the same. -/
theorem getElem?_set_image {α : Type} {list list' : List α} {f : Nat → Nat} {p q : Nat}
    (hp : list[p]? = list'[f p]?) (hq : list[q]? = list'[f q]?) (hinj : f p = f q → p = q)
    (a : α) : (list.set p a)[q]? = (list'.set (f p) a)[f q]? := by
  by_cases hpq : p = q
  · subst hpq
    simp only [List.getElem?_set_self', hp]
  · rw [List.getElem?_set_ne hpq, List.getElem?_set_ne fun heq => hpq (hinj heq), hq]

namespace Net

/-- What a net hears from a list of drivers: a single one decides, given what each
would show, and otherwise `others` does. -/
def heard (shown : PortRef → Word) (others : Option Word) (drivers : List PortRef) :
    Option Word × Nat :=
  if drivers.length = 1 then (drivers.head?.map shown, 1) else (others, drivers.length)

/-- The images of the drivers, in any order, are heard alike if they show the same. -/
theorem heard_image {image : PortRef → PortRef} {shown shown' : PortRef → Word}
    {others : Option Word} {drivers drivers' : List PortRef}
    (hperm : drivers'.Perm (drivers.map image))
    (hshown : ∀ driver ∈ drivers, shown driver = shown' (image driver)) :
    heard shown others drivers = heard shown' others drivers' := by
  have hlength : drivers'.length = drivers.length := hperm.length_eq.trans (List.length_map _)
  by_cases hone : drivers.length = 1
  · obtain ⟨driver, rfl⟩ := List.length_eq_one_iff.mp hone
    obtain rfl := List.perm_singleton.mp hperm
    simp [heard, hshown]
  · rw [heard, heard, hlength, if_neg hone, if_neg hone]

variable {netlist : Netlist} {index : Nat} {net : Net} {state : State}

theorem verdict_eq_heard_driving (hnet : netlist.nets[index]? = some net)
    (htristate : net.tristate = true) : state.verdict netlist index =
      heard (fun source => trim net.width (state.pin source).value) none
        (net.driving netlist state) := by
  rw [Netlist.verdict_tristate hnet htristate]
  rcases net.driving netlist state with _ | ⟨source, _ | _⟩ <;> rfl

theorem verdict_eq_heard_sources (hnet : netlist.nets[index]? = some net)
    (hplain : net.tristate = false) : state.verdict netlist index =
      heard (fun source => trim net.width (state.pin source).value) (some 0) net.sources := by
  rw [Netlist.verdict_plain hnet hplain]
  rcases net.sources with _ | ⟨source, _ | _⟩ <;> rfl

end Net

namespace Embedding

variable {e : Embedding} {inner outer : Netlist} {small big : State} {p n position : Nat}
  {ref : PortRef}

/-- A task of the parts and nets that are placed. -/
def Known (inner : Netlist) : Task → Prop
  | .phase part _ => part < inner.parts.length
  | .net net => net < inner.nets.length

namespace Extends

theorem part_eq (h : e.Extends inner small big) (hp : p < inner.parts.length) :
    small.part p = big.part (e.part p) := by
  rw [State.part, State.part, List.getD_eq_getElem?_getD, List.getD_eq_getElem?_getD, h.part p hp]

theorem net_eq (h : e.Extends inner small big) (hn : n < inner.nets.length) :
    small.net n = big.net (e.net n) := by
  rw [State.net, State.net, List.getD_eq_getElem?_getD, List.getD_eq_getElem?_getD, h.net n hn]

theorem pin_eq (h : e.Extends inner small big) (href : ref.part < inner.parts.length) :
    small.pin ref = big.pin (e.ref ref) := by
  rw [State.pin, State.pin, h.part_eq href]
  rfl

end Extends

namespace Places

variable (h : e.Places inner outer)

include h

theorem exists_host (hp : p < inner.parts.length) : ∃ placed host, inner.parts[p]? = some placed ∧
    outer.parts[e.part p]? = some host ∧ host.device = placed.device ∧
      host.phases = placed.phases ∧ host.ports = placed.ports.map e.port := by
  have hplaced := List.getElem?_eq_getElem hp
  obtain ⟨host, hhost⟩ := h.part hplaced
  exact ⟨_, host, hplaced, hhost⟩

theorem port? (href : ref.part < inner.parts.length) :
    outer.port? (e.ref ref) = (inner.port? ref).map e.port := by
  obtain ⟨placed, host, hplaced, hhost, -, -, hports⟩ := h.exists_host href
  rw [Netlist.port?, Netlist.port?, hplaced, Embedding.ref, hhost]
  simp [hports]

theorem run_eq (hstate : e.Extends inner small big) (hp : p < inner.parts.length) :
    (((inner.parts.getD p default).device.run (inner.parts.getD p default).ports position
        (small.part p) small.status).1 =
      ((outer.parts.getD (e.part p) default).device.run (outer.parts.getD (e.part p) default).ports
        position (big.part (e.part p)) big.status).1) ∧
    (((inner.parts.getD p default).device.run (inner.parts.getD p default).ports position
        (small.part p) small.status).2.isHalted =
      ((outer.parts.getD (e.part p) default).device.run (outer.parts.getD (e.part p) default).ports
        position (big.part (e.part p)) big.status).2.isHalted) := by
  obtain ⟨placed, host, hplaced, hhost, hdevice, -, hports⟩ := h.exists_host hp
  rw [List.getD_eq_getElem?_getD, List.getD_eq_getElem?_getD, hplaced, hhost, hstate.part_eq hp]
  dsimp only [Option.getD_some]
  have hsame : ∀ index,
      (host.ports.getD index default).bound = (placed.ports.getD index default).bound ∧
        (host.ports.getD index default).toPortDecl =
          (placed.ports.getD index default).toPortDecl := by
    intro index
    rw [hports, List.getD_eq_getElem?_getD, List.getD_eq_getElem?_getD, List.getElem?_map]
    cases placed.ports[index]? with
    | none => exact ⟨rfl, rfl⟩
    | some port => exact ⟨Option.isSome_map, rfl⟩
  rw [hdevice, Device.run_ports placed.device position (big.part (e.part p)) big.status hsame]
  exact Device.run_status _ _ _ _ hstate.halted

theorem isDriving (hstate : e.Extends inner small big) (href : ref.part < inner.parts.length) :
    Net.isDriving inner small ref = Net.isDriving outer big (e.ref ref) := by
  rw [Net.isDriving, Net.isDriving, h.port? href, hstate.pin_eq href]
  cases inner.port? ref <;> rfl

theorem verdict (hstate : e.Extends inner small big) (hn : n < inner.nets.length) :
    small.verdict inner n = big.verdict outer (e.net n) := by
  have hjoined := List.getElem?_eq_getElem hn
  generalize inner.nets[n] = joined at hjoined
  obtain ⟨host, hhost, hwidth, htristate, hsources, -⟩ := h.net hjoined
  have hlisted : ∀ ref ∈ joined.sources, ref.part < inner.parts.length := fun ref href =>
    h.listed n ref ⟨joined, hjoined, Or.inl href⟩
  have hshown : ∀ source ∈ joined.sources,
      trim joined.width (small.pin source).value = trim host.width (big.pin (e.ref source)).value :=
    fun source hsource => by
      rw [hwidth (List.ne_nil_of_mem hsource), hstate.pin_eq (hlisted source hsource)]
  have hdriving : (host.driving outer big).Perm ((joined.driving inner small).map e.ref) := by
    refine (hsources.filter _).trans ?_
    rw [List.filter_map]
    refine .of_eq (congrArg _ (List.filter_congr fun ref href => ?_))
    exact (h.isDriving hstate (hlisted ref href)).symm
  cases hkind : joined.tristate with
  | true =>
    rw [Net.verdict_eq_heard_driving hjoined hkind,
      Net.verdict_eq_heard_driving hhost (htristate.trans hkind)]
    exact Net.heard_image hdriving fun source hsource => hshown source (List.mem_of_mem_filter hsource)
  | false =>
    rw [Net.verdict_eq_heard_sources hjoined hkind,
      Net.verdict_eq_heard_sources hhost (htristate.trans hkind)]
    exact Net.heard_image hsources hshown

/-- A task and its image do the same to the places of the inner circuit. -/
theorem perform (hstate : e.Extends inner small big) {task : Task} (hknown : Known inner task) :
    e.Extends inner (small.perform inner task) (big.perform outer (e.task task)) := by
  cases task with
  | phase p position =>
    obtain ⟨hpart, hhalted⟩ := @run_eq _ _ _ _ _ _ position h hstate hknown
    refine ⟨fun q hq => ?_, hstate.net, hhalted⟩
    rw [task, State.perform, State.perform, State.parts_runPhase, State.parts_runPhase, hpart]
    exact getElem?_set_image (hstate.part p hknown) (hstate.part q hq) (h.part_inj p hknown q hq) _
  | net n =>
    have hverdict := h.verdict hstate hknown
    obtain ⟨host, hhost, -, -, -, htargets⟩ := h.net (List.getElem?_eq_getElem hknown)
    rw [task, State.perform, State.perform, State.resolve_eq, State.resolve_eq, hverdict,
      hstate.net_eq hknown]
    refine ⟨fun p hp => ?_, fun m hm => ?_, ?_⟩
    · rw [State.parts_tell, State.parts_tell, State.parts_setNet, State.parts_setNet, hstate.part p hp]
      refine congrArg (Option.map · _) (funext fun held => PartState.eq_of_pins (fun port => ?_) rfl)
      rw [PartState.getElem?_told, PartState.getElem?_told]
      have htarget := htargets ⟨p, port⟩ hp
      simp only [List.getD_eq_getElem?_getD, List.getElem?_eq_getElem hknown, hhost,
        Option.getD_some, ← htarget, Embedding.ref]
    · rw [(State.tell_eq _ _ _).1, (State.tell_eq _ _ _).1]
      exact getElem?_set_image (hstate.net n hknown) (hstate.net m hm) (h.net_inj n hknown m hm) _
    · rw [(State.tell_eq _ _ _).2.1, (State.tell_eq _ _ _).2.1]
      exact hstate.halted

theorem foldl (tasks : List Task) : ∀ {small big : State}, e.Extends inner small big →
    (∀ task ∈ tasks, Known inner task) →
    e.Extends inner (tasks.foldl (State.perform inner) small)
      ((tasks.map e.task).foldl (State.perform outer) big) := by
  induction tasks with
  | nil => exact fun h _ => h
  | cons task tasks ih =>
    intro small big hstate hknown
    exact ih (h.perform hstate (hknown task (List.mem_cons_self ..)))
      fun task htask => hknown task (List.mem_cons_of_mem _ htask)

/-! ## Whole operations -/

/-- No tri-state pin is enabled when a settle begins. -/
theorem begun (hstate : e.Extends inner small big) :
    e.Extends inner (inner.begun small) (outer.begun big) := by
  refine ⟨fun p hp => ?_, hstate.net, hstate.halted⟩
  obtain ⟨placed, host, hplaced, hhost, -, -, hports⟩ := h.exists_host hp
  rw [Netlist.begun, Netlist.begun, State.mapPins, State.mapPins]
  dsimp only
  rw [List.getElem?_map, List.getElem?_map, getElem?_zip hplaced, getElem?_zip hhost,
    hstate.part p hp]
  cases big.parts[e.part p]? with
  | none => rfl
  | some held => simp [hports, List.zip_map_left, port]

/-- A reset forgets the same on both sides. -/
theorem cleared (hstate : e.Extends inner small big) (hard : Bool) :
    e.Extends inner (small.cleared inner hard) (big.cleared outer hard) := by
  refine ⟨fun p hp => ?_, fun n hn => ?_, rfl⟩
  · obtain ⟨placed, host, hplaced, hhost, hdevice, -, -⟩ := h.exists_host hp
    rw [State.cleared, State.cleared]
    dsimp only
    rw [List.getElem?_map, List.getElem?_map, getElem?_zip hplaced, getElem?_zip hhost,
      hstate.part p hp]
    cases big.parts[e.part p]? with
    | none => rfl
    | some held => simp [hdevice]
  · rw [State.cleared, State.cleared]
    dsimp only
    rw [List.getElem?_map, List.getElem?_map, hstate.net n hn]

theorem fresh : e.Extends inner (.fresh inner) (.fresh outer) := by
  refine ⟨fun p hp => ?_, fun n hn => ?_, rfl⟩
  · obtain ⟨placed, host, hplaced, hhost, hdevice, -, hports⟩ := h.exists_host hp
    rw [State.fresh, State.fresh]
    dsimp only
    rw [List.getElem?_map, List.getElem?_map, hplaced, hhost]
    simp [hdevice, hports]
  · obtain ⟨host, hhost, -⟩ := h.net (List.getElem?_eq_getElem hn)
    rw [State.fresh, State.fresh]
    dsimp only
    rw [List.getElem?_map, List.getElem?_map, List.getElem?_eq_getElem hn, hhost]
    rfl

/-- What a part remembers is changed on both sides. -/
theorem setPart (hstate : e.Extends inner small big) (hp : p < inner.parts.length)
    (held : PartState) : e.Extends inner (small.setPart p held) (big.setPart (e.part p) held) :=
  ⟨fun q hq => getElem?_set_image (hstate.part p hp) (hstate.part q hq) (h.part_inj p hp q hq) held,
    hstate.net, hstate.halted⟩

end Places

end Embedding

end Breadboard
