import Breadboard.Proofs.Directory
import Breadboard.Proofs.GuardedSettle

/-!
# Operating a simulation meets no trap

The operations of a simulation once more, as guarded computations: `guardedSettle`,
`guardedLatch`, `guardedStep`, `guardedReset` and `guardedRebuild` do what `settle`,
`latch`, `step`, `reset` and `rebuild` do, and the parts that are set and read from
outside are found by index as well. Usage is traced along the blocks that ran. What they
rely on is that there is a place for everything in the state (`State.Held`); the clock
must not pass the largest word.
-/

namespace Breadboard

namespace Guarded

/-! ## Usage -/

/-- Mark a pin as used if a condition on its port and its state holds. -/
def markPin (netlist : Netlist) (p : PortType → Pin → Bool) (state : State) (ref : PortRef) :
    Guarded State := do
  let port ← portAt netlist ref
  if p port.type (← pinAt state ref) then updatePin state Pin.markUsed ref else return state

/-- A phase of a part. -/
def phaseAt (netlist : Netlist) (part position : Nat) : Guarded Phase := do
  let placed ← entry netlist.parts part
  entry placed.phases position

/-- From the outputs of a phase to its inputs. -/
def tracePhase (netlist : Netlist) (part position : Nat) (state : State) : Guarded State := do
  let phase ← phaseAt netlist part position
  let written ← any (fun port => do return (← pinAt state ⟨part, port⟩).used) phase.writes
  let needed := phase.writes.isEmpty || written
  (phase.reads ++ phase.anyOf).foldlM
    (fun state port =>
      markPin netlist (fun type pin => type.ctrl || (needed && !pin.isIgnored type)) state
        ⟨part, port⟩)
    state

/-- From the readers of a net to its sources. -/
def traceNet (netlist : Netlist) (index : Nat) (state : State) : Guarded State := do
  let net ← entry netlist.nets index
  if ← any (fun ref => do return (← pinAt state ref).used) net.targets then
    net.sources.foldlM (markPin netlist fun type pin => !net.tristate || pin.drives type) state
  else return state

def traceTask (netlist : Netlist) (state : State) : Task → Guarded State
  | .phase part phase => tracePhase netlist part phase state
  | .net net => traceNet netlist net state

/-- The inputs of a latch phase. -/
def markLatched (netlist : Netlist) (state : State) (step : Nat × Nat) : Guarded State := do
  let phase ← phaseAt netlist step.1 step.2
  phase.reads.foldlM (fun state port => updatePin state Pin.markUsed ⟨step.1, port⟩) state

/-- Find out which pins contributed, given the blocks in the order in which they ran. -/
def traceUsage (netlist : Netlist) (schedule : Schedule) (executed : List Nat) (state : State) :
    Guarded State := do
  let state ← schedule.latchSteps.foldlM (markLatched netlist)
    (state.mapPins netlist fun _ pin => { pin with used := false })
  let steps ← join (fun block => do return (← entry schedule.blocks block).steps) executed
  steps.reverse.foldlM (fun state step => traceTask netlist state step.task) state

/-! ## Memories -/

/-- The memory of a part that was just built. -/
def freshMemory (device : Device) : Guarded Memory :=
  match device with
  | .ram addrWidth _ => do
    let size ← shiftLeft 64 1 (min addrWidth Device.maxAddrWidth)
    return .ram (Array.replicate size 0)
  | device => return device.fresh

/-- The memory of a part in a circuit that replaces `previous`. -/
def carriedMemory (previous : Netlist) (state : State) (netlist : Netlist) (index : Nat)
    (part : Part) : Guarded Memory := do
  let fresh ← freshMemory part.device
  match previous.partAt? (← partPath netlist index) with
  | none => return fresh
  | some before =>
    let replaced ← entry previous.parts before
    let held ← entry state.parts before
    return if replaced.definition = part.definition then part.device.adopt held.memory else fresh

/-- The state of a circuit that has not run yet, given what its parts remember. -/
def newState (netlist : Netlist) (memory : Nat → Part → Guarded Memory) (status : Status) :
    Guarded State := do
  let parts ← netlist.parts.zipIdx.mapM fun pair => do
    return (⟨pair.1.ports.map fun _ => {}, ← memory pair.2 pair.1⟩ : PartState)
  return { parts, nets := netlist.nets.map fun _ => {}, status }

end Guarded

/-! ## Operations -/

namespace Simulation

open Guarded (entry)

variable (simulation : Simulation)

def guardedTrace : Guarded Simulation := do
  return { simulation with
    state := ← Guarded.traceUsage simulation.netlist simulation.schedule simulation.executed
      simulation.state }

def guardedSettle : Guarded Simulation := do
  let (state, firings) ← Guarded.settle simulation.netlist simulation.schedule simulation.state
  let simulation := { simulation with state, firings }
  if simulation.trackUsage then simulation.guardedTrace else return simulation

def guardedLatch : Guarded Simulation := do
  let ticks ← Guarded.count simulation.ticks
  let state ← simulation.schedule.latchSteps.foldlM
    (fun state step => Guarded.runPhase simulation.netlist step.1 step.2 state) simulation.state
  return { simulation with ticks, state }

def guardedStep : Guarded Simulation := do
  if simulation.isHalted then return simulation
  else
    let simulation ← simulation.guardedLatch
    if simulation.isHalted then return simulation else simulation.guardedSettle

def guardedReset (hard : Bool) : Guarded Simulation :=
  { simulation with state := simulation.state.cleared simulation.netlist hard }.guardedSettle

def guardedRebuild (library : Library) (schematic : Schematic) : Guarded Simulation := do
  let netlist ← Guarded.flatten library schematic
  let state ← Guarded.newState netlist
    (Guarded.carriedMemory simulation.netlist simulation.state netlist) simulation.state.status
  let schedule ← Guarded.compile netlist
  { simulation with netlist, schedule, state }.guardedSettle

def guardedStart (library : Library) (schematic : Schematic) : Guarded Simulation := do
  let netlist ← Guarded.flatten library schematic
  let state ← Guarded.newState netlist (fun _ part => Guarded.freshMemory part.device) .running
  let schedule ← Guarded.compile netlist
  { netlist, schedule, state : Simulation }.guardedSettle

/-- The part at a path, with what `read` finds in its memory. -/
def guardedPartOf {α : Type} (path : String) (kind : PartKind) (read : Memory → Option α) :
    Guarded (Except LookupError (Nat × α)) :=
  match simulation.partAt path with
  | .error error => return .error error
  | .ok index => do
    let held ← entry simulation.state.parts index
    return match read held.memory with
      | some found => .ok (index, found)
      | none => .error (.wrongKind path kind)

def guardedSetMemory (index : Nat) (memory : Memory) : Guarded Simulation := do
  let part ← entry simulation.state.parts index
  let parts ← Guarded.replace simulation.state.parts index { part with memory }
  return { simulation with state := { simulation.state with parts } }

/-- The value of an input. -/
def inputOf : Memory → Option Word
  | .input value => some value
  | _ => none

def cellsOf : Memory → Option (Array Word)
  | .ram cells => some cells
  | _ => none

def guardedSetInput (path : String) (value : Word) : Guarded (Except LookupError Simulation) := do
  match ← simulation.guardedPartOf path .input inputOf with
  | .error error => return .error error
  | .ok (index, _) =>
    let placed ← entry simulation.netlist.parts index
    match placed.device with
    | .input width _ =>
      return .ok (← simulation.guardedSetMemory index (.input (← Guarded.trim width value)))
    | _ => return .ok simulation

def guardedReadRam (path : String) (addr : Nat) : Guarded (Except LookupError (Option Word)) := do
  return (← simulation.guardedPartOf path .ram cellsOf).map fun found => found.2[addr]?

def guardedWriteRam (path : String) (addr : Nat) (value : Word) :
    Guarded (Except LookupError Simulation) := do
  match ← simulation.guardedPartOf path .ram cellsOf with
  | .error error => return .error error
  | .ok (index, cells) =>
    let placed ← entry simulation.netlist.parts index
    match placed.device with
    | .ram _ width =>
      return .ok (← simulation.guardedSetMemory index
        (.ram (cells.setIfInBounds addr (← Guarded.trim width value))))
    | _ => return .ok simulation

end Simulation

namespace Guarded

variable {netlist : Netlist} {state : State} {part position index : Nat} {phase : Phase}
  {ref : PortRef} {port : Port} {task : Task}

/-! ## Tracing usage meets no trap -/

theorem markPin_eq (h : State.Sound netlist state) (hport : netlist.port? ref = some port)
    (p : PortType → Pin → Bool) :
    markPin netlist p state ref = .ok (state.markPin netlist p ref) := by
  have hhas := h.has hport
  rw [markPin, portAt_eq hport, ok_bind, pinAt_eq hhas, ok_bind, State.markPin, hport]
  dsimp only [Option.getD_some]
  split
  · exact updatePin_eq hhas _
  · rfl

theorem foldlM_markPin {refs : List PortRef} (h : State.Sound netlist state)
    (hports : ∀ ref ∈ refs, ∃ port, netlist.port? ref = some port)
    (p : PortType → Pin → Bool) : refs.foldlM (markPin netlist p) state =
      .ok (refs.foldl (State.markPin netlist p) state) ∧
        State.Sound netlist (refs.foldl (State.markPin netlist p) state) :=
  foldlM_eq (State.Sound netlist) (fun next ref href hnext => by
    obtain ⟨port, hport⟩ := hports ref href
    exact ⟨markPin_eq hnext hport p, (State.tracked_markPin p next ref).sound hnext⟩) h

/-- A phase uses ports that its part has. -/
theorem port_of_phase (hflat : netlist.Flat) (hphase : netlist.phase? part position = some phase)
    {index : Nat} (hindex : index ∈ phase.reads ++ phase.writes ++ phase.anyOf) :
    ∃ port, netlist.port? ⟨part, index⟩ = some port := by
  obtain ⟨placed, hpart, hfound⟩ := Option.bind_eq_some_iff.mp hphase
  have hlt := (hflat.built placed (List.mem_of_getElem? hpart)).equipped.phases phase
    (List.mem_of_getElem? hfound) index hindex
  exact ⟨_, Netlist.port_of_part hpart (List.getElem?_eq_getElem hlt)⟩

theorem phaseAt_eq (hphase : netlist.phase? part position = some phase) :
    phaseAt netlist part position = .ok phase := by
  obtain ⟨placed, hpart, hfound⟩ := Option.bind_eq_some_iff.mp hphase
  rw [phaseAt, entry_eq hpart, ok_bind, entry_eq hfound]

theorem getD_phases (hphase : netlist.phase? part position = some phase) :
    (netlist.parts.getD part default).phases.getD position default = phase := by
  obtain ⟨placed, hpart, hfound⟩ := Option.bind_eq_some_iff.mp hphase
  simp [List.getD_eq_getElem?_getD, hpart, hfound]

theorem tracePhase_eq (h : State.Sound netlist state) (hflat : netlist.Flat)
    (hphase : netlist.phase? part position = some phase) :
    tracePhase netlist part position state = .ok (state.tracePhase netlist part position) := by
  have hwritten : any (fun port => do return (← pinAt state ⟨part, port⟩).used) phase.writes =
      .ok (phase.writes.any fun port => (state.pin ⟨part, port⟩).used) :=
    any_eq fun index hindex => by
      obtain ⟨port, hport⟩ := port_of_phase hflat hphase
        (List.mem_append_left _ (List.mem_append_right _ hindex))
      rw [pinAt_eq (h.has hport)]
      rfl
  rw [tracePhase, phaseAt_eq hphase, ok_bind, hwritten, ok_bind, State.tracePhase,
    getD_phases hphase]
  refine (foldlM_eq (State.Sound netlist) (fun next index hindex hnext => ?_) h).1
  obtain ⟨port, hport⟩ := port_of_phase hflat hphase (by
    rcases List.mem_append.mp hindex with hread | hany
    · exact List.mem_append_left _ (List.mem_append_left _ hread)
    · exact List.mem_append_right _ hany)
  exact ⟨markPin_eq hnext hport _, (State.tracked_markPin _ next _).sound hnext⟩

theorem traceNet_eq (h : State.Sound netlist state) (hwired : netlist.Wired)
    (hindex : index < netlist.nets.length) :
    traceNet netlist index state = .ok (state.traceNet netlist index) := by
  have hnet := List.getElem?_eq_getElem hindex
  have hsome : netlist.nets.getD index default = netlist.nets[index] := by
    rw [List.getD_eq_getElem?_getD, hnet, Option.getD_some]
  generalize netlist.nets[index] = net at hnet hsome
  have hused : any (fun ref => do return (← pinAt state ref).used) net.targets =
      .ok (net.targets.any fun ref => (state.pin ref).used) :=
    any_eq fun ref href => by
      obtain ⟨port, hattached, -⟩ := hwired.target hnet href
      rw [pinAt_eq (h.has hattached.found)]
      rfl
  have hsources : ∀ ref ∈ net.sources, ∃ port, netlist.port? ref = some port := fun ref href => by
    obtain ⟨port, hattached, -⟩ := hwired.source hnet href
    exact ⟨port, hattached.found⟩
  rw [traceNet, entry_eq hnet, ok_bind, hused, ok_bind, State.traceNet, hsome]
  split
  · exact (foldlM_markPin h hsources _).1
  · rfl

theorem traceTask_eq (h : State.Sound netlist state) (hflat : netlist.Flat)
    (htask : netlist.Includes task) :
    traceTask netlist state task = .ok (state.traceTask netlist task) := by
  cases task with
  | net index => exact traceNet_eq h hflat.wired htask
  | phase part position =>
    obtain ⟨phase, hphase⟩ := htask
    exact tracePhase_eq h hflat hphase

theorem markLatched_eq (h : State.Sound netlist state) (hflat : netlist.Flat)
    (hphase : netlist.phase? part position = some phase) :
    markLatched netlist state (part, position) =
        .ok (state.markLatched netlist (part, position)) ∧
      State.Sound netlist (state.markLatched netlist (part, position)) := by
  rw [markLatched, phaseAt_eq hphase, ok_bind, State.markLatched, getD_phases hphase]
  refine foldlM_eq (State.Sound netlist) (fun next index hindex hnext => ?_) h
  obtain ⟨port, hport⟩ := port_of_phase hflat hphase
    (List.mem_append_left _ (List.mem_append_left _ hindex))
  exact ⟨updatePin_eq (hnext.has hport) _, (State.tracked_markUsed netlist next _).sound hnext⟩

theorem traceUsage_eq (h : State.Sound netlist state) (hflat : netlist.Flat) {executed : List Nat}
    (hexecuted : ∀ block ∈ executed, block < (Breadboard.compile netlist).blocks.length) :
    traceUsage netlist (Breadboard.compile netlist) executed state =
      .ok (state.traceUsage netlist (Breadboard.compile netlist) executed) := by
  let blocks := (Breadboard.compile netlist).blocks
  have hsteps : join (fun block => do return (← entry blocks block).steps) executed =
      .ok (executed.flatMap fun block => (blocks.getD block default).steps) :=
    join_eq fun block hblock => by
      rw [entry_eq_getD (hexecuted block hblock) default]
      rfl
  have htasks : ∀ step ∈ (executed.flatMap fun block => (blocks.getD block default).steps).reverse,
      netlist.Includes step.task := fun step hstep => by
    obtain ⟨block, hblock, hmem⟩ := List.mem_flatMap.mp (List.mem_reverse.mp hstep)
    have hfound := List.getElem?_eq_getElem (hexecuted block hblock)
    rw [List.getD_eq_getElem?_getD, hfound, Option.getD_some] at hmem
    exact (Netlist.runnable_compile netlist _ (List.mem_of_getElem? hfound)).tasks step hmem
  have hunused : State.Sound netlist
      (state.mapPins netlist fun _ pin => { pin with used := false }) := h.mapPins _
  obtain ⟨hlatched, hafter⟩ := foldlM_eq (State.Sound netlist) (fun next step hstep hnext => by
    obtain ⟨phase, hphase, -⟩ := Netlist.mem_latchSteps.mp hstep
    exact markLatched_eq hnext hflat hphase) hunused
  rw [traceUsage, hlatched, ok_bind, hsteps, ok_bind]
  exact (foldlM_eq (State.Sound netlist) (fun next step hstep hnext =>
    ⟨traceTask_eq hnext hflat (htasks step hstep),
      (State.tracked_traceTask next step.task).sound hnext⟩) hafter).1

/-! ## Memories meet no trap -/

theorem freshMemory_eq (device : Device) : freshMemory device = .ok device.fresh := by
  cases device with
  | ram addrWidth width =>
    have hsize : min addrWidth Device.maxAddrWidth < 64 :=
      Nat.lt_of_le_of_lt (Nat.min_le_right ..) (by decide)
    rw [freshMemory, shiftLeft_eq hsize]
    rfl
  | _ => rfl

theorem carriedMemory_eq {previous : Netlist} {state : State}
    (h : state.parts.length = previous.parts.length) (hhoused : netlist.Housed) (hindex : index < netlist.parts.length) (part : Part) :
    carriedMemory previous state netlist index part =
      .ok (State.carriedMemory previous state netlist index part) := by
  rw [carriedMemory, freshMemory_eq, ok_bind, partPath_eq hhoused hindex, ok_bind,
    State.carriedMemory]
  cases hfound : previous.partAt? (netlist.partPath index) with
  | none => rfl
  | some before =>
    have hbefore := (Netlist.partPath_of_partAt? hfound).1
    dsimp only
    rw [entry_eq_getD hbefore default, ok_bind, entry_eq_getD (h ▸ hbefore) default, ok_bind]
    rfl

theorem newState_eq {memory : Nat → Part → Guarded Memory} {plain : Nat → Part → Memory}
    (hmemory : ∀ index part, index < netlist.parts.length →
      memory index part = .ok (plain index part)) (status : Status) :
    newState netlist memory status = .ok
      { parts := netlist.parts.zipIdx.map fun pair =>
          ⟨pair.1.ports.map fun _ => {}, plain pair.2 pair.1⟩
        nets := netlist.nets.map fun _ => {}
        status } := by
  have hparts : netlist.parts.zipIdx.mapM (fun pair => do
      return (⟨pair.1.ports.map fun _ => {}, ← memory pair.2 pair.1⟩ : PartState)) =
      .ok (netlist.parts.zipIdx.map fun pair =>
        ⟨pair.1.ports.map fun _ => {}, plain pair.2 pair.1⟩) :=
    mapM_eq fun pair hpair => by
      have hindex := (List.getElem?_eq_some_iff.mp (List.mem_zipIdx_iff_getElem?.mp hpair)).1
      rw [hmemory pair.2 pair.1 hindex]
      rfl
  rw [newState, hparts]
  rfl

theorem freshState_eq (netlist : Netlist) :
    newState netlist (fun _ part => freshMemory part.device) .running = .ok (.fresh netlist) := by
  have hparts : (netlist.parts.zipIdx.map fun pair =>
      (⟨pair.1.ports.map fun _ => {}, pair.1.device.fresh⟩ : PartState)) =
      (State.fresh netlist).parts := by
    conv_rhs => rw [State.fresh, ← List.zipIdx_map_fst 0 netlist.parts, List.map_map]
    rfl
  rw [newState_eq fun _ part _ => freshMemory_eq part.device, hparts]
  rfl

theorem carriedState_eq {previous : Netlist} {state : State}
    (h : state.parts.length = previous.parts.length) (hhoused : netlist.Housed)
    (status : Status) : newState netlist (carriedMemory previous state netlist) status =
      .ok { State.carriedOver previous state netlist with status } :=
  newState_eq (fun _ part hindex => carriedMemory_eq h hhoused hindex part) status

end Guarded

namespace Simulation

open Guarded (ok_bind)

variable {simulation next : Simulation} {library : Library} {schematic : Schematic}

/-! ## Operations meet no trap -/

/-- What settling a simulation relies on. -/
structure Sturdy (simulation : Simulation) : Prop where
  flat : simulation.netlist.Flat
  fault : simulation.netlist.fault? = none
  schedule : simulation.schedule = compile simulation.netlist
  held : State.Held simulation.netlist simulation.state

theorem guardedTrace_eq (hflat : simulation.netlist.Flat)
    (hschedule : simulation.schedule = compile simulation.netlist)
    (hsound : State.Sound simulation.netlist simulation.state)
    (hexecuted : ∀ block ∈ simulation.executed, block < simulation.schedule.blocks.length) :
    simulation.guardedTrace = .ok simulation.traceUsage := by
  rw [hschedule] at hexecuted
  rw [guardedTrace, traceUsage, hschedule, Guarded.traceUsage_eq hsound hflat hexecuted]
  rfl

theorem guardedSettle_eq (h : simulation.Sturdy) :
    simulation.guardedSettle = .ok simulation.settle := by
  have hsettle := Guarded.settle_eq h.held h.flat h.fault
  have hbound := (Netlist.fired_settled simulation.netlist simulation.state).1.bound
  have hsound := Netlist.sound_after h.flat.wired h.held.sound
    (simulation.netlist.trace simulation.state)
  rw [← Netlist.final_eq, Netlist.final, Netlist.settle_eq] at hsound
  rw [guardedSettle, settle, h.schedule, hsettle, ok_bind, Netlist.settle_eq]
  dsimp only
  split
  · exact guardedTrace_eq h.flat rfl hsound hbound
  · rfl

theorem Sturdy.cleared (h : simulation.Sturdy) {hard : Bool} :
    Sturdy { simulation with state := simulation.state.cleared simulation.netlist hard } :=
  ⟨h.flat, h.fault, h.schedule, (State.sound_reset h.held.sound hard).1,
    State.lasting_proper.cleared h.flat h.held.sound h.held.proper hard⟩

theorem guardedLatch_eq (h : simulation.Sturdy) (hticks : simulation.ticks + 1 < UInt64.size) :
    simulation.guardedLatch = .ok simulation.latch := by
  have hsteps := (Guarded.foldlM_eq (State.Held simulation.netlist)
    (fun state step (hstep : step ∈ (compile simulation.netlist).latchSteps) hstate => by
      obtain ⟨phase, hphase, -⟩ := Netlist.mem_latchSteps.mp hstep
      have hincludes : simulation.netlist.Includes (.phase step.1 step.2) := ⟨phase, hphase⟩
      exact ⟨Guarded.perform_eq h.flat h.fault hstate hincludes,
        hstate.perform h.flat hincludes⟩) h.held).1
  have hfold : simulation.schedule.latchSteps.foldlM
      (fun state step => Guarded.runPhase simulation.netlist step.1 step.2 state)
      simulation.state = .ok (simulation.schedule.latchSteps.foldl
        (fun state step => state.runPhase simulation.netlist step.1 step.2) simulation.state) := by
    rw [h.schedule]
    exact hsteps
  rw [guardedLatch, Guarded.count_eq hticks, ok_bind, hfold]
  rfl

theorem guardedReset_eq (h : simulation.Sturdy) (hard : Bool) :
    simulation.guardedReset hard = .ok (simulation.reset hard) :=
  guardedSettle_eq h.cleared

/-- A circuit that has not run yet is found to be ready for it. -/
theorem sturdy_new {previous : Option Simulation} {state : State}
    {trackUsage : Bool} {ticks : Nat} {firings : List Firing} (hnative : library.Native)
    (hfault : (flatten library schematic).fault? = none)
    (hsound : State.Sound (flatten library schematic) state)
    (hnew : State.New (flatten library schematic)
      (State.inherited previous (flatten library schematic)) state) :
    Sturdy ⟨flatten library schematic, compile (flatten library schematic), state, firings,
      trackUsage, ticks⟩ :=
  have hflat : (flatten library schematic).Flat := ⟨library, schematic, hnative, rfl⟩
  ⟨hflat, hfault, rfl, hsound, State.proper_new hflat hnew⟩

theorem sturdy_fresh (hnative : library.Native)
    (hfault : (flatten library schematic).fault? = none) :
    Sturdy
      { netlist := flatten library schematic
        schedule := compile (flatten library schematic)
        state := .fresh (flatten library schematic) } :=
  sturdy_new hnative hfault (State.sound_fresh _).1 (State.new_fresh _)

theorem guardedStart_eq (hnative : library.Native) (hacyclic : library.Acyclic)
    (hfault : (flatten library schematic).fault? = none) :
    guardedStart library schematic = .ok (ofNetlist (flatten library schematic)) := by
  obtain ⟨hflatten, hhoused⟩ := Guarded.flatten_eq hacyclic schematic
  have hflat : (flatten library schematic).Flat := ⟨library, schematic, hnative, rfl⟩
  rw [guardedStart, hflatten, ok_bind, Guarded.freshState_eq, ok_bind,
    Guarded.compile_eq hhoused hflat.wired.isBound, ok_bind]
  exact guardedSettle_eq (sturdy_fresh hnative hfault)

theorem exists_sturdy_rebuild (hnative : library.Native)
    (hnext : simulation.rebuild library schematic = .ok next) : ∃ state : State,
      state = { State.carriedOver simulation.netlist simulation.state (flatten library schematic) with
        status := simulation.state.status } ∧
      Sturdy { simulation with
        netlist := flatten library schematic, schedule := compile (flatten library schematic), state } ∧
      next = Simulation.settle { simulation with
        netlist := flatten library schematic, schedule := compile (flatten library schematic), state } := by
  cases hfault : (flatten library schematic).fault? with
  | some fault => simp [rebuild, hfault] at hnext
  | none =>
    simp only [rebuild, hfault, Except.ok.injEq] at hnext
    exact ⟨_, rfl, sturdy_new hnative hfault (State.sound_carriedOver ..).1
      (State.new_carriedOver ..), hnext.symm⟩

theorem guardedRebuild_eq (h : simulation.Sturdy) (hnative : library.Native)
    (hacyclic : library.Acyclic) (hnext : simulation.rebuild library schematic = .ok next) :
    simulation.guardedRebuild library schematic = .ok next := by
  obtain ⟨hflatten, hhoused⟩ := Guarded.flatten_eq hacyclic schematic
  have hflat : (flatten library schematic).Flat := ⟨library, schematic, hnative, rfl⟩
  obtain ⟨state, hstate, hsturdy, rfl⟩ := exists_sturdy_rebuild hnative hnext
  rw [guardedRebuild, hflatten, ok_bind, Guarded.carriedState_eq h.held.sound.parts hhoused,
    ok_bind, Guarded.compile_eq hhoused hflat.wired.isBound, ok_bind, ← hstate]
  exact guardedSettle_eq hsturdy

theorem guardedPartOf_eq {α : Type} (h : simulation.Sturdy) (path : String) (kind : PartKind)
    (read : Memory → Option α) :
    simulation.guardedPartOf path kind read = .ok (simulation.partOf path kind read) := by
  rw [guardedPartOf, partOf]
  cases hindex : simulation.partAt path with
  | error error => rfl
  | ok index =>
    have hlt : index < simulation.state.parts.length := by
      rw [h.held.sound.parts]
      exact lt_of_partAt hindex
    dsimp only
    rw [Guarded.entry_eq_getD hlt default, ok_bind, ← State.part]
    cases hread : read (simulation.state.part index).memory <;>
      simp only [bind, Except.bind, hread] <;> rfl

theorem guardedSetMemory_eq {index : Nat} (h : index < simulation.state.parts.length)
    (memory : Memory) :
    simulation.guardedSetMemory index memory = .ok (simulation.setMemory index memory) := by
  rw [guardedSetMemory, Guarded.entry_eq_getD h default, ok_bind, Guarded.replace_eq h]
  rfl

theorem inputOf_eq : inputOf = fun | .input value => some value | _ => none := by
  funext memory
  cases memory <;> rfl

theorem cellsOf_eq : cellsOf = fun | .ram cells => some cells | _ => none := by
  funext memory
  cases memory <;> rfl

theorem guardedSetInput_eq (h : simulation.Sturdy) (path : String) (value : Word) :
    simulation.guardedSetInput path value = .ok (simulation.setInput path value) := by
  rw [guardedSetInput, guardedPartOf_eq h, ok_bind, setInput, inputOf_eq]
  cases hfound : simulation.partOf path .input _ with
  | error error => rfl
  | ok found =>
    obtain ⟨index, before⟩ := found
    have hpart := lt_of_partOf hfound
    have hheld : index < simulation.state.parts.length := h.held.sound.parts ▸ hpart
    dsimp only
    rw [Guarded.entry_eq_getD hpart default, ok_bind]
    cases hdevice : (simulation.netlist.parts.getD index default).device <;>
      simp only [bind, Except.bind, hdevice, Guarded.trim_eq, guardedSetMemory_eq hheld] <;> rfl

theorem guardedReadRam_eq (h : simulation.Sturdy) (path : String) (addr : Nat) :
    simulation.guardedReadRam path addr = .ok (simulation.readRam path addr) := by
  rw [guardedReadRam, guardedPartOf_eq h, ok_bind, readRam, ramCells, cellsOf_eq]
  cases simulation.partOf path .ram _ <;> rfl

theorem guardedWriteRam_eq (h : simulation.Sturdy) (path : String) (addr : Nat) (value : Word) :
    simulation.guardedWriteRam path addr value = .ok (simulation.writeRam path addr value) := by
  rw [guardedWriteRam, guardedPartOf_eq h, ok_bind, writeRam, cellsOf_eq]
  cases hfound : simulation.partOf path .ram _ with
  | error error => rfl
  | ok found =>
    obtain ⟨index, cells⟩ := found
    have hpart := lt_of_partOf hfound
    have hheld : index < simulation.state.parts.length := h.held.sound.parts ▸ hpart
    dsimp only
    rw [Guarded.entry_eq_getD hpart default, ok_bind]
    cases hdevice : (simulation.netlist.parts.getD index default).device <;>
      simp only [bind, Except.bind, hdevice, Guarded.trim_eq, guardedSetMemory_eq hheld] <;> rfl

/-- What operating a simulation relies on, between any two requests. -/
structure Ready (simulation : Simulation) : Prop where
  reachable : simulation.Reachable
  fault : simulation.netlist.fault? = none
  executed : ∀ block ∈ simulation.executed, block < simulation.schedule.blocks.length

namespace Ready

theorem sturdy (h : simulation.Ready) : simulation.Sturdy :=
  ⟨h.reachable.coherent.flat, h.fault, h.reachable.coherent.schedule,
    h.reachable.coherent.sound, h.reachable.proper⟩

/-- Behind a settle only blocks of the schedule have run. -/
theorem of_settle (h : simulation.Sturdy) (hreachable : simulation.settle.Reachable) :
    simulation.settle.Ready where
  reachable := hreachable
  fault := by rw [netlist_settle]; exact h.fault
  executed := by
    rw [executed_settle h.schedule, Netlist.executed_eq, schedule_settle, h.schedule]
    exact (Netlist.fired_settled simulation.netlist simulation.state).1.bound

theorem settle (h : simulation.Ready) : simulation.settle.Ready :=
  of_settle h.sturdy h.reachable.settle

theorem latch (h : simulation.Ready) : simulation.latch.Ready :=
  ⟨h.reachable.latch, h.fault, h.executed⟩

theorem step (h : simulation.Ready) : simulation.step.Ready := by
  rw [Simulation.step]
  dsimp only
  split
  · exact h
  · split
    · exact h.latch
    · exact h.latch.settle

theorem traceUsage (h : simulation.Ready) : simulation.traceUsage.Ready :=
  ⟨h.reachable.traceUsage, h.fault, h.executed⟩

theorem reset (h : simulation.Ready) (hard : Bool) : (simulation.reset hard).Ready :=
  of_settle h.sturdy.cleared (h.reachable.reset hard)

theorem rebuild (h : simulation.Ready) (hnative : library.Native)
    (hnext : simulation.rebuild library schematic = .ok next) : next.Ready := by
  have hreachable := h.reachable.rebuild hnative hnext
  obtain ⟨state, -, hsturdy, rfl⟩ := exists_sturdy_rebuild hnative hnext
  exact of_settle hsturdy hreachable

theorem start (hnative : library.Native) (hfault : (flatten library schematic).fault? = none) :
    (ofNetlist (flatten library schematic)).Ready :=
  of_settle (sturdy_fresh hnative hfault) (.start hnative (start_eq hfault))

theorem withUsageTracking (h : simulation.Ready) (enabled : Bool) :
    (simulation.withUsageTracking enabled).Ready := by
  have hreachable := h.reachable.withUsageTracking enabled
  cases enabled with
  | false => exact ⟨hreachable, h.fault, h.executed⟩
  | true => exact ⟨hreachable, h.fault, h.executed⟩

theorem poked (h : simulation.Ready) (hreachable : next.Reachable) (hpoked : simulation.Poked next) :
    next.Ready := by
  obtain ⟨index, placed, memory, -, -, rfl⟩ := hpoked
  exact ⟨hreachable, h.fault, h.executed⟩

theorem setInput (h : simulation.Ready) {path : String} {value : Word}
    (hnext : simulation.setInput path value = .ok next) : next.Ready := by
  rcases setInput_poked hnext with rfl | hpoked
  · exact h
  · exact h.poked (h.reachable.setInput hnext) hpoked

theorem writeRam (h : simulation.Ready) {path : String} {addr : Nat} {value : Word}
    (hnext : simulation.writeRam path addr value = .ok next) : next.Ready := by
  rcases writeRam_poked hnext with rfl | hpoked
  · exact h
  · exact h.poked (h.reachable.writeRam hnext) hpoked

end Ready

end Simulation

end Breadboard
