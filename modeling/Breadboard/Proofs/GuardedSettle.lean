import Breadboard.Proofs.GuardedDevice
import Breadboard.Proofs.GuardedSchedule

/-!
# Settling meets no trap

`Guarded.settle` runs the blocks of a schedule as `settle` does. A part, a pin, a net, a
block and a counter are all found by index, and where the queue is empty and every block
that is left waits, the first one that waits for nothing but a dynamic node is looked
for by its first counter. The tables keep their sizes while tasks run (`Guarded.Held`)
and while blocks do (`Guarded.Settles`), and the schedule names nothing beyond them
(`Netlist.Scheduled`), so that no trap is met (`Guarded.settle_eq`).
-/

namespace Breadboard

namespace Guarded

/-! ## Tasks -/

def portAt (netlist : Netlist) (ref : PortRef) : Guarded Port := do
  let part ← entry netlist.parts ref.part
  entry part.ports ref.port

def pinAt (state : State) (ref : PortRef) : Guarded Pin := do
  let part ← entry state.parts ref.part
  entry part.pins ref.port

def updatePin (state : State) (f : Pin → Pin) (ref : PortRef) : Guarded State := do
  let part ← entry state.parts ref.part
  return { state with parts := ← replace state.parts ref.part (← updatePart part ref.port f) }

def setNet (state : State) (index : Nat) (net : NetState) : Guarded State := do
  return { state with nets := ← replace state.nets index net }

def isDriving (netlist : Netlist) (state : State) (ref : PortRef) : Guarded Bool := do
  let port ← portAt netlist ref
  return (← pinAt state ref).drives port.type

/-- Give a value to a net and to every pin that reads it. -/
def fanOut (state : State) (index : Nat) (net : Net) (value : Word) (count : Nat) :
    Guarded State := do
  net.targets.foldlM (updatePin · fun pin => { pin with value, resolved := true })
    (← setNet state index ⟨value, count⟩)

/-- Leave a net as it is, and tell every pin that reads it that it is not resolved. -/
def leaveOpen (state : State) (index : Nat) (net : Net) (count : Nat) : Guarded State := do
  let held ← entry state.nets index
  net.targets.foldlM (updatePin · fun pin => { pin with resolved := false })
    (← setNet state index ⟨held.value, count⟩)

/-- What a net of some width takes from a source. -/
def shown (net : Net) (state : State) (source : PortRef) : Guarded Word := do
  trim net.width (← pinAt state source).value

/-- Settle one net from its sources. -/
def resolve (netlist : Netlist) (index : Nat) (state : State) : Guarded State := do
  let net ← entry netlist.nets index
  if net.tristate then
    match ← keep (isDriving netlist state) net.sources with
    | [source] => fanOut state index net (← shown net state source) 1
    | driving => leaveOpen state index net driving.length
  else
    match net.sources with
    | [source] => fanOut state index net (← shown net state source) 1
    | sources => fanOut state index net 0 sources.length

/-- Run one phase of a part. -/
def runPhase (netlist : Netlist) (part phase : Nat) (state : State) : Guarded State := do
  let placed ← entry netlist.parts part
  let held ← entry state.parts part
  let (after, status) ← runDevice placed.ports phase held state.status placed.device
  return { state with parts := ← replace state.parts part after, status }

/-- Do one unit of work. -/
def perform (netlist : Netlist) (state : State) : Task → Guarded State
  | .phase part phase => runPhase netlist part phase state
  | .net net => resolve netlist net state

/-! ## Blocks -/

/-- Bring a counter of a block down, and queue the block if that was the last one. -/
def decrement (settling : Settling) (block counter : Nat) : Guarded Settling := do
  let found ← entry settling.progress block
  let lowered := { found with remaining := ← change found.remaining counter (· - 1) }
  let progress ← replace settling.progress block lowered
  let due := lowered.isDue && block ∉ settling.queue
  return { settling with
    progress, queue := if due then settling.queue ++ [block] else settling.queue }

/-- Whether a decrement applies after its step has run. -/
def applies (netlist : Netlist) (state : State) (task : Task) : Trigger → Guarded Bool
  | .fired => return true
  | .driving port =>
    match task with
    | .phase part _ => isDriving netlist state ⟨part, port⟩
    | .net _ => return true

/-- Run one step and bring down the counters it names. -/
def runStep (netlist : Netlist) (settling : Settling) (step : Step) : Guarded Settling := do
  let state ← perform netlist settling.state step.task
  let applying ← keep (fun target => applies netlist state step.task target.trigger) step.decrements
  applying.foldlM (fun settling target => decrement settling target.block target.counter)
    { settling with state }

/-- Run one block, and let the blocks that wait for it know. -/
def runBlock (netlist : Netlist) (schedule : Schedule) (firing : Firing) (settling : Settling) :
    Guarded Settling := do
  let block ← entry schedule.blocks firing.block
  let progress ← change settling.progress firing.block fun progress =>
    { progress with executed := true }
  let settling ← block.steps.foldlM (runStep netlist)
    { settling with progress, firings := settling.firings ++ [firing] }
  block.successors.foldlM (decrement · · 0) settling

/-- The block to run next, taken from the queue or forced. -/
def nextFiring (settling : Settling) : Guarded (Option (Firing × Settling)) :=
  match settling.queue with
  | block :: queue => return some (⟨block, false⟩, { settling with queue })
  | [] => do
    let waiting ← settling.progress.mapM fun progress => do
      return !progress.executed && (← entry progress.remaining 0) = 0
    return (waiting.findIdx? id).map fun block => (⟨block, true⟩, settling)

/-- Run blocks until none is left, and give up if some is left after `turns` of them. -/
def runBlocks (netlist : Netlist) (schedule : Schedule) :
    (turns : Nat) → Settling → Guarded Settling
  | 0, settling => do
    match ← nextFiring settling with
    | some _ => .error .endless
    | none => return settling
  | turns + 1, settling => do
    match ← nextFiring settling with
    | some (firing, settling) =>
      runBlocks netlist schedule turns (← runBlock netlist schedule firing settling)
    | none => return settling

/-- Propagate values until every block has run. -/
def settle (netlist : Netlist) (schedule : Schedule) (state : State) :
    Guarded (State × List Firing) := do
  let done ← runBlocks netlist schedule schedule.blocks.length
    (Settling.start netlist schedule state)
  return (done.state, done.firings)

end Guarded

/-! ## What stays in place -/

namespace State

variable {netlist : Netlist} {state : State} {ref other : PortRef} {task : Task}

theorem Has.updatePin (h : state.Has other) (f : Pin → Pin) (ref : PortRef) :
    (state.updatePin f ref).Has other := by
  refine ⟨Nat.lt_of_lt_of_eq h.1 (List.length_modify ..).symm, ?_⟩
  by_cases hpart : ref.part = other.part
  · rw [← hpart, part_updatePin_self state f (hpart ▸ h.1), PartState.length_pins_update, hpart]
    exact h.2
  · rw [part_updatePin_of_ne state f hpart]
    exact h.2

/-- What running a task relies on: there is a place for everything, and the parts
remember what their devices can remember. -/
structure Held (netlist : Netlist) (state : State) : Prop where
  sound : Sound netlist state
  proper : Proper netlist state

theorem Held.perform (h : Held netlist state) (hflat : netlist.Flat)
    (htask : netlist.Includes task) : Held netlist (state.perform netlist task) :=
  ⟨h.sound.perform hflat.wired.native, lasting_proper.perform hflat h.sound h.proper htask⟩

end State

namespace Guarded

variable {netlist : Netlist} {state : State} {ref : PortRef} {index : Nat} {net : Net}
  {task : Task}

/-! ## Tasks meet no trap -/

theorem portAt_eq {port : Port} (h : netlist.port? ref = some port) :
    portAt netlist ref = .ok port := by
  obtain ⟨part, hpart, hport⟩ := Netlist.part_of_port h
  rw [portAt, entry_eq hpart, ok_bind, entry_eq hport]

theorem pinAt_eq (h : state.Has ref) : pinAt state ref = .ok (state.pin ref) := by
  rw [pinAt, entry_eq_getD h.1 default, ok_bind]
  exact pin_eq h.2

theorem updatePin_eq (h : state.Has ref) (f : Pin → Pin) :
    updatePin state f ref = .ok (state.updatePin f ref) := by
  have hpart : state.parts[ref.part]? = some (state.part ref.part) := by
    rw [State.part, List.getD_eq_getElem?_getD, List.getElem?_eq_getElem h.1, Option.getD_some]
  rw [updatePin, entry_eq hpart, ok_bind, updatePart_eq h.2, ok_bind, replace_eq h.1,
    State.updatePin, modify_eq_set hpart]
  rfl

theorem foldlM_updatePin {targets : List PortRef} (h : ∀ ref ∈ targets, state.Has ref)
    (f : Pin → Pin) : targets.foldlM (updatePin · f) state =
      .ok (targets.foldl (·.updatePin f) state) :=
  (foldlM_eq (fun next : State => ∀ ref ∈ targets, next.Has ref)
    (fun _ ref href hnext =>
      ⟨updatePin_eq (hnext ref href) f, fun other hother => (hnext other hother).updatePin f ref⟩)
    h).1

theorem isDriving_eq (h : State.Sound netlist state) {port : Port}
    (hport : netlist.port? ref = some port) :
    isDriving netlist state ref = .ok (Net.isDriving netlist state ref) := by
  rw [isDriving, portAt_eq hport, ok_bind, pinAt_eq (h.has hport), Net.isDriving, hport]
  rfl

theorem setNet_eq (hindex : index < state.nets.length) (held : NetState) :
    setNet state index held = .ok (state.setNet index held) := by
  rw [setNet, replace_eq hindex]
  rfl

theorem fanOut_eq (hindex : index < state.nets.length)
    (htargets : ∀ ref ∈ net.targets, state.Has ref) (value : Word) (count : Nat) :
    fanOut state index net value count = .ok (state.fanOut index net value count) := by
  have hset : ∀ ref ∈ net.targets, (state.setNet index ⟨value, count⟩).Has ref := htargets
  rw [fanOut, setNet_eq hindex]
  exact foldlM_updatePin hset _

theorem leaveOpen_eq (hindex : index < state.nets.length)
    (htargets : ∀ ref ∈ net.targets, state.Has ref) (count : Nat) :
    leaveOpen state index net count = .ok (state.leaveOpen index net count) := by
  have hset : ∀ ref ∈ net.targets,
      (state.setNet index ⟨(state.net index).value, count⟩).Has ref := htargets
  rw [leaveOpen, entry_eq_getD hindex default, ok_bind, setNet_eq hindex]
  exact foldlM_updatePin hset _

theorem shown_eq (h : state.Has ref) : shown net state ref =
    .ok (Breadboard.trim net.width (state.pin ref).value) := by
  rw [shown, pinAt_eq h, ok_bind, trim_eq]

theorem resolve_eq (hwired : netlist.Wired) (h : State.Sound netlist state)
    (hindex : index < netlist.nets.length) :
    resolve netlist index state = .ok (state.resolve netlist index) := by
  have hnet := List.getElem?_eq_getElem hindex
  have hstate : index < state.nets.length := h.nets ▸ hindex
  generalize netlist.nets[index] = net at hnet
  have htargets : ∀ ref ∈ net.targets, state.Has ref := fun ref href => by
    obtain ⟨port, hattached, -⟩ := hwired.target hnet href
    exact h.has hattached.found
  have hsources : ∀ ref ∈ net.sources, ∃ port, netlist.port? ref = some port := fun ref href => by
    obtain ⟨port, hattached, -⟩ := hwired.source hnet href
    exact ⟨port, hattached.found⟩
  have hfan : ∀ ref ∈ net.sources, (do
      fanOut state index net (← shown net state ref) 1 : Guarded State) =
        .ok (state.fanOut index net (Breadboard.trim net.width (state.pin ref).value) 1) :=
    fun ref href => by
      obtain ⟨port, hport⟩ := hsources ref href
      rw [shown_eq (h.has hport), ok_bind]
      exact fanOut_eq hstate htargets _ _
  have hdriving : keep (isDriving netlist state) net.sources = .ok (net.driving netlist state) :=
    keep_eq fun ref href => by
      obtain ⟨port, hport⟩ := hsources ref href
      exact isDriving_eq h hport
  have hsome : netlist.nets.getD index default = net := by
    rw [List.getD_eq_getElem?_getD, hnet]
    rfl
  rw [resolve, entry_eq hnet, ok_bind, State.resolve, hsome]
  dsimp only
  cases net.tristate with
  | true =>
    rw [if_pos rfl, if_pos rfl, hdriving, ok_bind]
    rcases hdrivers : net.driving netlist state with _ | ⟨source, _ | ⟨other, rest⟩⟩
    · exact leaveOpen_eq hstate htargets _
    · have hmem : source ∈ net.driving netlist state := hdrivers ▸ List.mem_singleton_self _
      exact hfan source (List.mem_filter.mp hmem).1
    · exact leaveOpen_eq hstate htargets _
  | false =>
    rw [if_neg Bool.false_ne_true, if_neg Bool.false_ne_true]
    rcases hlist : net.sources with _ | ⟨source, _ | ⟨other, rest⟩⟩
    · exact fanOut_eq hstate htargets _ _
    · exact hfan source (hlist ▸ List.mem_singleton_self _)
    · exact fanOut_eq hstate htargets _ _

theorem runPhase_eq (hflat : netlist.Flat) (hfault : netlist.fault? = none)
    (h : State.Held netlist state) {part : Nat} (hpart : part < netlist.parts.length)
    (phase : Nat) : runPhase netlist part phase state = .ok (state.runPhase netlist part phase) := by
  have hstate : part < state.parts.length := h.sound.parts ▸ hpart
  have hplaced := List.getElem?_eq_getElem hpart
  have hmem := List.getElem_mem hpart
  generalize netlist.parts[part] = placed at hplaced hmem
  have hpins := h.sound.pins hplaced
  have hshift : placed.device.overshifts = false := by
    unfold Netlist.fault? at hfault
    split at hfault
    · cases hfault
    · next hnone => simpa using fun hover => hnone (List.any_eq_true.mpr ⟨placed, hmem, hover⟩)
  have hrun := runDevice_eq (hpins ▸ (hflat.built placed hmem).equipped.pins) hpins.symm
    (h.proper part placed hplaced) hshift phase state.status
  have hsome : netlist.parts.getD part default = placed := by
    rw [List.getD_eq_getElem?_getD, hplaced]
    rfl
  rw [State.part] at hrun
  rw [runPhase, entry_eq hplaced, ok_bind, entry_eq_getD hstate default, ok_bind, hrun, ok_bind]
  dsimp only
  rw [replace_eq hstate, State.runPhase, hsome]
  rfl

theorem perform_eq (hflat : netlist.Flat) (hfault : netlist.fault? = none)
    (h : State.Held netlist state) (htask : netlist.Includes task) :
    perform netlist state task = .ok (state.perform netlist task) := by
  cases task with
  | net index => exact resolve_eq hflat.wired h.sound htask
  | phase part position =>
    obtain ⟨phase, hphase⟩ := htask
    exact runPhase_eq hflat hfault h (Netlist.part_lt hphase) position

end Guarded

/-! ## What a schedule names -/

/-- A block of a schedule names nothing that the schedule and the netlist do not have: it
has a first counter, its steps are tasks, and the blocks and counters that it brings down
exist, as do the ports that decide whether it does. -/
structure Block.Runnable (netlist : Netlist) (blocks : List Block) (block : Block) : Prop where
  counter : 0 < block.counters.length
  successors : ∀ other ∈ block.successors, ∃ found, blocks[other]? = some found ∧
    0 < found.counters.length
  tasks : ∀ step ∈ block.steps, netlist.Includes step.task
  decrements : ∀ step ∈ block.steps, ∀ target ∈ step.decrements, ∃ found,
    blocks[target.block]? = some found ∧ target.counter < found.counters.length
  drivers : ∀ step ∈ block.steps, ∀ target ∈ step.decrements, ∀ part position port,
    step.task = .phase part position → target.trigger = .driving port →
      ∃ found, netlist.port? ⟨part, port⟩ = some found

namespace Netlist

variable {netlist : Netlist} {part position port source node index : Nat}

theorem includes_of_mem_tasks {task : Task} (h : task ∈ netlist.tasks) : netlist.Includes task := by
  rcases mem_tasks.mp h with ⟨part, position, phase, hphase, rfl⟩ | ⟨index, hindex, rfl⟩
  · exact ⟨phase, hphase.1⟩
  · exact hindex

/-- An edge that is decided by a port leads from a phase of the part that has the port. -/
theorem port_of_drive (hedge : ⟨node, .drive port⟩ ∈ (Graph.ofNetlist netlist).edges source)
    (htask : (Graph.ofNetlist netlist).task source = .phase part position) :
    ∃ found, netlist.port? ⟨part, port⟩ = some found := by
  have hsource := Graph.lt_of_mem_edges hedge
  have hfound := List.getElem?_eq_getElem hsource
  rw [Graph.task_ofNetlist hfound] at htask
  rw [htask] at hfound
  rcases Graph.mem_edges.mp hedge with horder | hwrite
  · obtain ⟨-, heq⟩ := (Graph.mem_orderEdges_phase hfound).mp horder
    cases heq
  · obtain ⟨write, deferred, hmem, hnode, hkind⟩ := Graph.mem_writeEdges.mp hwrite
    obtain ⟨owner, phase, howner, -, -, -, hdriven⟩ :=
      Netlist.mem_writes.mp (Graph.mem_deferral.mp hmem).1
    rcases hkind with ⟨-, heq⟩ | ⟨-, heq⟩
    · cases heq
    · cases heq
      rw [hnode, hfound] at howner
      obtain ⟨rfl, -⟩ := Task.phase.inj (Option.some.inj howner)
      obtain ⟨found, hfound, -⟩ := Option.bind_eq_some_iff.mp (Option.filter_eq_some_iff.mp hdriven).1
      exact ⟨found, hfound⟩

theorem runnable_compile (netlist : Netlist) : ∀ block ∈ (compile netlist).blocks,
    block.Runnable netlist (compile netlist).blocks := by
  intro block hblock
  obtain ⟨index, hindex⟩ := List.mem_iff_getElem?.mp hblock
  have hclosed := Graph.closed_ofNetlist netlist
  have hsound := (Graph.sound_place hclosed).1
  have hlayered := layered_compile netlist
  have hcounter : ∀ {other : Nat} {found : Block}, (compile netlist).blocks[other]? = some found →
      0 < found.counters.length := fun hfound => by
    rw [(Placement.getElem?_blocks hfound).2.2]
    exact Nat.succ_pos _
  have hdecrement : ∀ step ∈ block.steps, ∀ target ∈ step.decrements, _ :=
    fun step hstep target htarget =>
      ((Graph.opened_place hclosed).decrements hsound hindex hstep htarget).2
  refine ⟨hcounter hindex, fun other hother => ?_, fun step hstep => ?_,
    fun step hstep target htarget => ?_, fun step hstep target htarget part position port htask htrigger => ?_⟩
  · have hlt := (List.getElem?_eq_some_iff.mp hindex).1
    have hsuccessor := (hlayered.mem_successors index hlt other).mp (by
      rw [List.getD_eq_getElem?_getD, hindex]
      exact hother)
    have hfound := List.getElem?_eq_getElem hsuccessor.1
    exact ⟨_, hfound, hcounter hfound⟩
  · refine includes_of_mem_tasks ((tasks_compile_perm netlist).mem_iff.mp ?_)
    exact List.mem_map_of_mem (List.mem_flatMap.mpr ⟨block, hblock, hstep⟩)
  · obtain ⟨source, node, other, first, -, -, hother, -, -, hone⟩ :=
      hdecrement step hstep target htarget
    exact ⟨other, hother, (List.getElem?_eq_some_iff.mp hone).1⟩
  · obtain ⟨source, node, other, first, hsource, hedge, -⟩ := hdecrement step hstep target htarget
    rw [htrigger] at hedge
    exact port_of_drive hedge (hsource.symm.trans htask)

end Netlist

namespace Guarded

variable {netlist : Netlist} {state : State} {settling after : Settling} {firing : Firing}
  {step : Step} {blocks : List Block}

/-! ## Blocks meet no trap -/

/-- A settle under way has a counter for each counter of the schedule, queues blocks only,
and has a state in which tasks can run. -/
structure Settles (netlist : Netlist) (settling : Settling) : Prop where
  shape : settling.progress.map (·.remaining.length) =
    (Breadboard.compile netlist).blocks.map (·.counters.length)
  queue : ∀ block ∈ settling.queue, block < (Breadboard.compile netlist).blocks.length
  held : State.Held netlist settling.state

namespace Settles

theorem length (h : Settles netlist settling) :
    settling.progress.length = (Breadboard.compile netlist).blocks.length := by
  rw [← List.length_map (f := fun progress : Progress => progress.remaining.length), h.shape,
    List.length_map]

theorem modify (h : Settles netlist settling) {f : Progress → Progress}
    (hlength : ∀ progress, (f progress).remaining.length = progress.remaining.length)
    (index : Nat) : (settling.progress.modify index f).map (·.remaining.length) =
      (Breadboard.compile netlist).blocks.map (·.counters.length) := by
  rw [← h.shape]
  exact map_modify_of_blind hlength ..

theorem progress (h : Settles netlist settling) {block : Nat} {found : Block}
    (hblock : (Breadboard.compile netlist).blocks[block]? = some found) : ∃ progress,
      settling.progress[block]? = some progress ∧
        progress.remaining.length = found.counters.length := by
  have hshape := congrArg (·[block]?) h.shape
  rw [List.getElem?_map, List.getElem?_map, hblock, Option.map_some] at hshape
  exact Option.map_eq_some_iff.mp hshape

/-- A block has a first counter. -/
theorem counter (h : Settles netlist settling) {progress : Progress}
    (hprogress : progress ∈ settling.progress) : 0 < progress.remaining.length := by
  have hmem := List.mem_map_of_mem (f := fun progress : Progress => progress.remaining.length)
    hprogress
  rw [h.shape] at hmem
  obtain ⟨block, hblock, hlength⟩ := List.mem_map.mp hmem
  exact hlength ▸ (Netlist.runnable_compile netlist block hblock).counter

theorem withState (h : Settles netlist settling) {state : State} (hstate : state.Held netlist) :
    Settles netlist { settling with state } :=
  ⟨h.shape, h.queue, hstate⟩

theorem decrement (h : Settles netlist settling) {block counter : Nat} {found : Block}
    (hblock : (Breadboard.compile netlist).blocks[block]? = some found)
    (hcounter : counter < found.counters.length) :
    Guarded.decrement settling block counter = .ok (settling.decrement block counter) ∧
      Settles netlist (settling.decrement block counter) := by
  obtain ⟨progress, hprogress, hlength⟩ := h.progress hblock
  have hlt := (List.getElem?_eq_some_iff.mp hprogress).1
  refine ⟨?_, h.modify (fun _ => List.length_modify ..) block,
    fun other hother => ?_, h.held⟩
  · rw [Guarded.decrement, entry_eq hprogress, ok_bind, change_eq (hlength ▸ hcounter), ok_bind]
    dsimp only
    rw [replace_eq hlt, ok_bind, Settling.decrement, modify_eq_set hprogress]
    simp only [List.getElem?_set_self hlt, Option.any_some]
    rfl
  · rcases Settling.queue_decrement settling block counter with hqueue | ⟨hqueue, -⟩
    · exact h.queue other (hqueue ▸ hother)
    · rcases List.mem_append.mp (hqueue ▸ hother) with hother | hother
      · exact h.queue other hother
      · rw [List.mem_singleton.mp hother]
        exact (List.getElem?_eq_some_iff.mp hblock).1

theorem runStep (h : Settles netlist settling) (hflat : netlist.Flat)
    (hfault : netlist.fault? = none) {block : Block}
    (hblock : block.Runnable netlist (Breadboard.compile netlist).blocks)
    (hstep : step ∈ block.steps) :
    Guarded.runStep netlist settling step = .ok (settling.runStep netlist step) ∧
      Settles netlist (settling.runStep netlist step) := by
  have htask := hblock.tasks step hstep
  have hafter := h.held.perform hflat htask
  have happlies : ∀ target ∈ step.decrements,
      Guarded.applies netlist (settling.state.perform netlist step.task) step.task target.trigger =
        .ok (Settling.applies netlist (settling.state.perform netlist step.task) step.task
          target.trigger) := fun target htarget => by
    cases htrigger : target.trigger with
    | fired => rfl
    | driving port =>
      cases hphase : step.task with
      | net index => rfl
      | phase part position =>
        obtain ⟨found, hport⟩ :=
          hblock.drivers step hstep target htarget part position port hphase htrigger
        rw [hphase] at hafter
        exact isDriving_eq hafter.sound hport
  rw [Guarded.runStep, perform_eq hflat hfault h.held htask, ok_bind, keep_eq happlies, ok_bind]
  refine foldlM_eq (Settles netlist) (fun next target htarget hnext => ?_) (h.withState hafter)
  obtain ⟨found, hfound, hcounter⟩ :=
    hblock.decrements step hstep target (List.mem_filter.mp htarget).1
  exact hnext.decrement hfound hcounter

theorem runBlock (h : Settles netlist settling) (hflat : netlist.Flat)
    (hfault : netlist.fault? = none)
    (hfiring : firing.block < (Breadboard.compile netlist).blocks.length) :
    Guarded.runBlock netlist (Breadboard.compile netlist) firing settling =
        .ok (settling.runBlock netlist (Breadboard.compile netlist) firing) ∧
      Settles netlist (settling.runBlock netlist (Breadboard.compile netlist) firing) := by
  have hfound := List.getElem?_eq_getElem hfiring
  have hrunnable := Netlist.runnable_compile netlist _ (List.getElem_mem hfiring)
  generalize (Breadboard.compile netlist).blocks[firing.block] = block at hfound hrunnable
  let mark (progress : Progress) : Progress := { progress with executed := true }
  have hmark : Settles netlist { settling with
      progress := settling.progress.modify firing.block mark
      firings := settling.firings ++ [firing] } :=
    ⟨@modify _ _ h mark (fun _ => rfl) firing.block, h.queue, h.held⟩
  obtain ⟨hsteps, hran⟩ := foldlM_eq (Settles netlist)
    (fun _ _ hstep hnext => hnext.runStep hflat hfault hrunnable hstep) hmark
  have hsome : (Breadboard.compile netlist).blocks.getD firing.block default = block := by
    rw [List.getD_eq_getElem?_getD, hfound]
    rfl
  rw [Guarded.runBlock, entry_eq hfound, ok_bind, change_eq (h.length ▸ hfiring), ok_bind, hsteps,
    ok_bind, Settling.runBlock, hsome]
  refine foldlM_eq (Settles netlist) (fun next other hother hnext => ?_) hran
  obtain ⟨successor, hsuccessor, hcounter⟩ := hrunnable.successors other hother
  exact hnext.decrement hsuccessor hcounter

/-- The block to run next is one of the schedule. -/
theorem nextFiring (h : Settles netlist settling) :
    Guarded.nextFiring settling = .ok settling.next ∧
      ∀ firing after, settling.next = some (firing, after) →
        firing.block < (Breadboard.compile netlist).blocks.length ∧ Settles netlist after := by
  unfold Guarded.nextFiring Settling.next
  cases hqueue : settling.queue with
  | cons block queue =>
    refine ⟨rfl, fun firing after hnext => ?_⟩
    cases hnext
    have hall := h.queue
    rw [hqueue] at hall
    exact ⟨hall block (List.mem_cons_self ..), h.shape,
      fun other hother => hall other (List.mem_cons_of_mem _ hother), h.held⟩
  | nil =>
    have hwaiting : settling.progress.mapM (fun progress => do
        return !progress.executed && (← entry progress.remaining 0) = 0) =
        .ok (settling.progress.map fun progress =>
          !progress.executed && progress.remaining.head? = some 0) :=
      mapM_eq fun progress hprogress => by
        obtain ⟨first, rest, hremaining⟩ := List.exists_cons_of_length_pos (h.counter hprogress)
        rw [hremaining]
        exact congrArg Except.ok (congrArg _ (decide_eq_decide.mpr (by simp)))
    dsimp only
    rw [hwaiting, ok_bind]
    refine ⟨?_, fun firing after hnext => ?_⟩
    · rw [List.findIdx?_map]
      rfl
    · obtain ⟨block, hblock, heq⟩ := Option.map_eq_some_iff.mp hnext
      cases heq
      rw [← h.length]
      exact ⟨(List.findIdx?_eq_some_iff_findIdx_eq.mp hblock).1, h⟩

theorem runBlocks (hflat : netlist.Flat) (hfault : netlist.fault? = none) (turns : Nat) :
    ∀ {settling : Settling}, Settles netlist settling →
      (settling.advance netlist (Breadboard.compile netlist) turns).next = none →
      Guarded.runBlocks netlist (Breadboard.compile netlist) turns settling =
        .ok (settling.advance netlist (Breadboard.compile netlist) turns) ∧
        Settles netlist (settling.advance netlist (Breadboard.compile netlist) turns) := by
  induction turns with
  | zero =>
    intro settling h hnext
    rw [Settling.advance] at hnext ⊢
    rw [Guarded.runBlocks, h.nextFiring.1, ok_bind, hnext]
    exact ⟨rfl, h⟩
  | succ turns ih =>
    intro settling h hnext
    obtain ⟨heq, hchosen⟩ := h.nextFiring
    rw [Guarded.runBlocks, heq, ok_bind]
    rw [Settling.advance] at hnext ⊢
    cases hfound : settling.next with
    | none => exact ⟨rfl, h⟩
    | some pair =>
      obtain ⟨firing, after⟩ := pair
      obtain ⟨hlt, hafter⟩ := hchosen firing after hfound
      obtain ⟨hrun, hran⟩ := hafter.runBlock hflat hfault hlt
      rw [hfound] at hnext
      dsimp only at hnext ⊢
      rw [hrun, ok_bind]
      exact ih hran hnext

theorem start (h : State.Held netlist state) (hflat : netlist.Flat) :
    Settles netlist (Settling.start netlist (Breadboard.compile netlist) state) := by
  have hbegun : State.Held netlist (netlist.begun state) :=
    ⟨h.sound.mapPins _, State.lasting_proper.begun hflat h.sound h.proper⟩
  refine ⟨?_, fun block hblock => ?_, hbegun⟩
  · simp [Settling.start, Block.initial]
  · simpa [Settling.start] using (List.mem_filter.mp hblock).1

end Settles

/-- A settle meets no trap, and runs every block. -/
theorem settle_eq (h : State.Held netlist state) (hflat : netlist.Flat)
    (hfault : netlist.fault? = none) :
    settle netlist (Breadboard.compile netlist) state =
      .ok (Breadboard.settle netlist (Breadboard.compile netlist) state) := by
  obtain ⟨hfired, hall⟩ := Netlist.fired_settled netlist state
  have hrun := Settles.runBlocks hflat hfault _ (Settles.start h hflat) (hfired.next_eq_none hall)
  rw [settle, hrun.1]
  rfl

end Guarded

end Breadboard
