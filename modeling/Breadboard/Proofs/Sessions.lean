import Breadboard.Proofs.Blank
import Breadboard.Proofs.Cover

/-!
# Circuits in use

Between two changes of its circuit a simulation is only operated: values are set, it
settles, latches and is reset. `Simulation.Begins` is the one way to get a circuit,
`Simulation.Continues` is everything that can be done until the next one, and every
reachable simulation has come about like that (`Reachable.exists_run`).

A property of states that no task and no operation destroys (`State.Lasting`) holds
for as long as a circuit is in use if it held in the state in which the circuit
began (`Begins.lasting`). That state is new (`State.New`): pins and nets have their
first values, and the memories are those of new parts or taken over from the simulation
before.
-/

namespace Breadboard

namespace Simulation

/-- How a simulation gets a circuit: it is started, or takes over from an earlier one. -/
inductive Begins (library : Library) (schematic : Schematic) :
    Option Simulation → Simulation → Prop where
  | start {first : Simulation} : library.Native →
      Simulation.start library schematic = .ok first → Begins library schematic none first
  | startFrom {previous first : Simulation} : previous.Reachable → library.Native →
      previous.startFrom library schematic = .ok first →
      Begins library schematic (some previous) first
  | rebuild {previous first : Simulation} : previous.Reachable → library.Native →
      previous.rebuild library schematic = .ok first →
      Begins library schematic (some previous) first

/-- What becomes of a simulation while its circuit stays the same. -/
inductive Continues (first : Simulation) : Simulation → Prop where
  | refl : Continues first first
  | withUsageTracking {simulation : Simulation} (enabled : Bool) :
      Continues first simulation → Continues first (simulation.withUsageTracking enabled)
  | traceUsage {simulation : Simulation} :
      Continues first simulation → Continues first simulation.traceUsage
  | setInput {simulation next : Simulation} {path : String} {value : Word} :
      Continues first simulation → simulation.setInput path value = .ok next →
      Continues first next
  | writeRam {simulation next : Simulation} {path : String} {addr : Nat} {value : Word} :
      Continues first simulation → simulation.writeRam path addr value = .ok next →
      Continues first next
  | settle {simulation : Simulation} :
      Continues first simulation → Continues first simulation.settle
  | latch {simulation : Simulation} : Continues first simulation → Continues first simulation.latch
  | step {simulation : Simulation} : Continues first simulation → Continues first simulation.step
  | reset {simulation : Simulation} (hard : Bool) :
      Continues first simulation → Continues first (simulation.reset hard)

/-- The simulation has this circuit. -/
def Runs (library : Library) (schematic : Schematic) (simulation : Simulation) : Prop :=
  ∃ previous first, Begins library schematic previous first ∧ first.Continues simulation

end Simulation

namespace Simulation

variable {simulation next first : Simulation} {library : Library} {schematic : Schematic}
  {previous : Option Simulation}

/-! ## Runs -/

theorem Begins.reachable (h : Begins library schematic previous first) : first.Reachable := by
  cases h with
  | start hnative hstart => exact .start hnative hstart
  | startFrom hreach hnative hstart => exact .startFrom hreach hnative hstart
  | rebuild hreach hnative hnext => exact .rebuild hreach hnative hnext

theorem Continues.reachable (h : first.Continues simulation) (hfirst : first.Reachable) :
    simulation.Reachable := by
  induction h with
  | refl => exact hfirst
  | withUsageTracking enabled _ ih => exact ih.withUsageTracking enabled
  | traceUsage _ ih => exact ih.traceUsage
  | setInput _ hnext ih => exact ih.setInput hnext
  | writeRam _ hnext ih => exact ih.writeRam hnext
  | settle _ ih => exact ih.settle
  | latch _ ih => exact ih.latch
  | step _ ih => exact ih.step
  | reset hard _ ih => exact ih.reset hard

theorem Continues.coherent (h : first.Continues simulation) (hfirst : first.Coherent) :
    simulation.Coherent := by
  induction h with
  | refl => exact hfirst
  | withUsageTracking enabled _ ih => exact ih.withUsageTracking enabled
  | traceUsage _ ih => exact ih.traceUsage
  | setInput _ hnext ih => exact ih.setInput hnext
  | writeRam _ hnext ih => exact ih.writeRam hnext
  | settle _ ih => exact ih.settle
  | latch _ ih => exact ih.latch
  | step _ ih => exact ih.step
  | reset hard _ ih => exact ih.reset hard

theorem Runs.reachable (h : simulation.Runs library schematic) : simulation.Reachable := by
  obtain ⟨previous, first, hbegins, hcontinues⟩ := h
  exact hcontinues.reachable hbegins.reachable

/-- Every reachable simulation has got its circuit at some point and was operated
since. -/
theorem Reachable.exists_run (h : simulation.Reachable) :
    ∃ first, (∃ library schematic previous, Begins library schematic previous first) ∧
      first.Continues simulation := by
  induction h with
  | start hnative hstart => exact ⟨_, ⟨_, _, _, .start hnative hstart⟩, .refl⟩
  | startFrom hreach hnative hstart =>
    exact ⟨_, ⟨_, _, _, .startFrom hreach hnative hstart⟩, .refl⟩
  | rebuild hreach hnative hnext => exact ⟨_, ⟨_, _, _, .rebuild hreach hnative hnext⟩, .refl⟩
  | withUsageTracking enabled _ ih => exact ih.imp fun _ => .imp_right (.withUsageTracking enabled)
  | traceUsage _ ih => exact ih.imp fun _ => .imp_right .traceUsage
  | setInput _ hnext ih => exact ih.imp fun _ => .imp_right (.setInput · hnext)
  | writeRam _ hnext ih => exact ih.imp fun _ => .imp_right (.writeRam · hnext)
  | settle _ ih => exact ih.imp fun _ => .imp_right .settle
  | latch _ ih => exact ih.imp fun _ => .imp_right .latch
  | step _ ih => exact ih.imp fun _ => .imp_right .step
  | reset hard _ ih => exact ih.imp fun _ => .imp_right (.reset hard)

@[simp] theorem netlist_traceUsage (simulation : Simulation) :
    simulation.traceUsage.netlist = simulation.netlist := rfl

@[simp] theorem netlist_latch (simulation : Simulation) :
    simulation.latch.netlist = simulation.netlist := rfl

@[simp] theorem netlist_withUsageTracking (simulation : Simulation) (enabled : Bool) :
    (simulation.withUsageTracking enabled).netlist = simulation.netlist := by
  cases enabled <;> rfl

@[simp] theorem netlist_reset (simulation : Simulation) (hard : Bool) :
    (simulation.reset hard).netlist = simulation.netlist := by
  unfold Simulation.reset
  dsimp only
  rw [netlist_settle]

@[simp] theorem netlist_step (simulation : Simulation) :
    simulation.step.netlist = simulation.netlist := by
  obtain ⟨-, hstep⟩ | ⟨-, -, hstep⟩ | ⟨-, -, hstep⟩ := simulation.step_cases <;> rw [hstep]
  · exact netlist_latch simulation
  · rw [netlist_settle, netlist_latch]

theorem Poked.netlist (h : simulation.Poked next) : next.netlist = simulation.netlist := by
  obtain ⟨_, _, _, -, -, rfl⟩ := h
  rfl

theorem Continues.netlist (h : first.Continues simulation) :
    simulation.netlist = first.netlist := by
  induction h with
  | refl => rfl
  | withUsageTracking enabled _ ih => rw [netlist_withUsageTracking, ih]
  | traceUsage _ ih => rw [netlist_traceUsage, ih]
  | setInput _ hnext ih =>
    rcases setInput_poked hnext with rfl | hpoked
    · exact ih
    · rw [hpoked.netlist, ih]
  | writeRam _ hnext ih =>
    rcases writeRam_poked hnext with rfl | hpoked
    · exact ih
    · rw [hpoked.netlist, ih]
  | settle _ ih => rw [netlist_settle, ih]
  | latch _ ih => rw [netlist_latch, ih]
  | step _ ih => rw [netlist_step, ih]
  | reset hard _ ih => rw [netlist_reset, ih]

end Simulation

/-! ## States in which a circuit begins -/

/-- What a part remembers at first. -/
def State.inherited (previous : Option Simulation) (netlist : Netlist) (index : Nat) (part : Part) :
    Memory :=
  match previous with
  | none => part.device.fresh
  | some previous => State.carriedMemory previous.netlist previous.state netlist index part

/-- Pins and nets have not been used yet, and the parts remember something. -/
structure State.New (netlist : Netlist) (memory : Nat → Part → Memory) (state : State) : Prop where
  parts : state.parts.length = netlist.parts.length
  part : ∀ {index : Nat} {placed : Part}, netlist.parts[index]? = some placed →
    state.part index = ⟨placed.ports.map fun _ => {}, memory index placed⟩
  nets : state.nets = netlist.nets.map fun _ => {}

namespace State

variable {netlist : Netlist} {state : State} {held : Nat → Part → Memory}

theorem new_fresh (netlist : Netlist) :
    New netlist (inherited none netlist) (.fresh netlist) where
  parts := by simp [fresh]
  part hplaced := by simp [fresh, State.part, List.getD_eq_getElem?_getD, hplaced, inherited]
  nets := rfl

theorem new_carriedOver (previous : Simulation) (netlist : Netlist) (status : Status) :
    New netlist (inherited (some previous) netlist)
      { State.carriedOver previous.netlist previous.state netlist with status } where
  parts := by simp [carriedOver]
  part hplaced := by simp [carriedOver, State.part, List.getD_eq_getElem?_getD, hplaced, inherited]
  nets := rfl

theorem New.pin (h : New netlist held state) (ref : PortRef) : state.pin ref = {} := by
  rw [State.pin, PartState.pin]
  cases hplaced : netlist.parts[ref.part]? with
  | none =>
    have hle : state.parts.length ≤ ref.part := by
      rw [h.parts]
      exact List.getElem?_eq_none_iff.mp hplaced
    have hnone : state.part ref.part = default := by
      rw [State.part, List.getD_eq_getElem?_getD, List.getElem?_eq_none hle]
      rfl
    rw [hnone]
    rfl
  | some placed =>
    rw [h.part hplaced, List.getD_eq_getElem?_getD, List.getElem?_map]
    cases placed.ports[ref.port]? <;> rfl

theorem New.net (h : New netlist held state) (index : Nat) : state.net index = {} := by
  rw [State.net, h.nets, List.getD_eq_getElem?_getD, List.getElem?_map]
  cases netlist.nets[index]? <;> rfl

theorem New.memory (h : New netlist held state) {index : Nat} {placed : Part}
    (hplaced : netlist.parts[index]? = some placed) :
    (state.part index).memory = held index placed := by
  rw [h.part hplaced]

end State

namespace Simulation

variable {simulation next first : Simulation} {library : Library} {schematic : Schematic}
  {previous : Option Simulation}

/-- A simulation that has not run yet, of a circuit that takes over from `previous`. -/
structure Pristine (previous : Option Simulation) (library : Library) (schematic : Schematic)
    (simulation : Simulation) : Prop where
  netlist : simulation.netlist = flatten library schematic
  schedule : simulation.schedule = compile simulation.netlist
  sound : State.Sound simulation.netlist simulation.state
  loose : State.Loose simulation.netlist simulation.state
  new : State.New simulation.netlist (State.inherited previous simulation.netlist) simulation.state

theorem Pristine.coherent (h : simulation.Pristine previous library schematic)
    (hnative : library.Native) : simulation.Coherent :=
  ⟨⟨library, schematic, hnative, h.netlist⟩, h.schedule, h.sound, h.loose⟩

theorem exists_pristine_start (hstart : Simulation.start library schematic = .ok simulation) :
    ∃ before : Simulation, before.Pristine none library schematic ∧ simulation = before.settle := by
  let before : Simulation :=
    { netlist := flatten library schematic
      schedule := compile (flatten library schematic)
      state := .fresh (flatten library schematic) }
  obtain ⟨hsound, hloose⟩ := State.sound_fresh (flatten library schematic)
  exact ⟨before, ⟨rfl, rfl, hsound, hloose, State.new_fresh _⟩, (start_eq_ok_iff.mp hstart).2⟩

theorem exists_pristine_startFrom
    (hstart : simulation.startFrom library schematic = .ok next) :
    ∃ before : Simulation, before.Pristine (some simulation) library schematic ∧
      next = before.settle := by
  let before : Simulation :=
    { netlist := flatten library schematic
      schedule := compile (flatten library schematic)
      state := .carriedOver simulation.netlist simulation.state (flatten library schematic) }
  obtain ⟨hsound, hloose⟩ := State.sound_carriedOver simulation.netlist simulation.state
    (flatten library schematic) .running
  exact ⟨before, ⟨rfl, rfl, hsound, hloose, State.new_carriedOver simulation _ .running⟩,
    (startFrom_eq_ok_iff.mp hstart).2⟩

theorem exists_pristine_rebuild (hnext : simulation.rebuild library schematic = .ok next) :
    ∃ before : Simulation, before.Pristine (some simulation) library schematic ∧
      next = before.settle := by
  obtain ⟨hsound, hloose⟩ := State.sound_carriedOver simulation.netlist simulation.state
    (flatten library schematic) simulation.state.status
  exact ⟨simulation.rebuilt library schematic, ⟨rfl, rfl, hsound, hloose,
    State.new_carriedOver simulation _ simulation.state.status⟩, (rebuild_eq_ok_iff.mp hnext).2⟩

/-- Rebuilding a circuit that can be run. -/
theorem rebuild_eq (simulation : Simulation)
    (hfault : (flatten library schematic).fault? = none) :
    simulation.rebuild library schematic =
      .ok ((simulation.rebuild library schematic).toOption.getD simulation) := by
  rw [rebuild_eq_ok_iff.mpr ⟨hfault, rfl⟩]
  rfl

/-- A circuit begins with a settle of a new state. -/
theorem Begins.exists_pristine (h : Begins library schematic previous first) :
    ∃ before : Simulation, before.Pristine previous library schematic ∧ before.Coherent ∧
      first = before.settle := by
  cases h with
  | start hnative hstart =>
    obtain ⟨before, hbefore, hsettled⟩ := exists_pristine_start hstart
    exact ⟨before, hbefore, hbefore.coherent hnative, hsettled⟩
  | startFrom _ hnative hstart =>
    obtain ⟨before, hbefore, hsettled⟩ := exists_pristine_startFrom hstart
    exact ⟨before, hbefore, hbefore.coherent hnative, hsettled⟩
  | rebuild _ hnative hnext =>
    obtain ⟨before, hbefore, hsettled⟩ := exists_pristine_rebuild hnext
    exact ⟨before, hbefore, hbefore.coherent hnative, hsettled⟩

theorem Begins.netlist (h : Begins library schematic previous first) :
    first.netlist = flatten library schematic := by
  obtain ⟨before, hbefore, -, rfl⟩ := h.exists_pristine
  rw [netlist_settle, hbefore.netlist]

theorem Runs.netlist (h : simulation.Runs library schematic) :
    simulation.netlist = flatten library schematic := by
  obtain ⟨previous, first, hbegins, hcontinues⟩ := h
  rw [hcontinues.netlist, hbegins.netlist]

end Simulation

/-! ## Lasting properties -/

/-- The task is one of the circuit: a net, an ordinary phase or a latch phase. -/
def Netlist.Includes (netlist : Netlist) : Task → Prop
  | .phase part position => ∃ phase, netlist.phase? part position = some phase
  | .net index => index < netlist.nets.length

theorem Netlist.includes_of_mem_trace {netlist : Netlist} {state : State} {task : Task}
    (h : task ∈ netlist.trace state) : netlist.Includes task := by
  cases task with
  | phase part position =>
    obtain ⟨phase, hphase⟩ := ordinary_of_mem_trace h
    exact ⟨phase, hphase.1⟩
  | net index => exact mem_tasks_net.mp (mem_trace.mp h)

/-- A property of states that lasts while a circuit is in use. -/
structure State.Lasting (P : Netlist → State → Prop) : Prop where
  begun : ∀ {netlist : Netlist} {state : State}, netlist.Flat → State.Sound netlist state →
    P netlist state → P netlist (netlist.begun state)
  perform : ∀ {netlist : Netlist} {state : State}, netlist.Flat → State.Sound netlist state →
    P netlist state → ∀ {task}, netlist.Includes task → P netlist (state.perform netlist task)
  agrees : ∀ {netlist : Netlist} {state other : State}, netlist.Flat → P netlist state →
    other.Matches state → P netlist other
  poked : ∀ {netlist : Netlist} {state : State}, netlist.Flat → State.Sound netlist state →
    P netlist state → ∀ {index : Nat} {placed : Part} {memory : Memory},
    netlist.parts[index]? = some placed → placed.device.Poked (state.part index).memory memory →
    P netlist (state.setPart index { state.part index with memory })
  cleared : ∀ {netlist : Netlist} {state : State}, netlist.Flat → State.Sound netlist state →
    P netlist state → ∀ hard, P netlist (state.cleared netlist hard)

namespace State

variable {P : Netlist → State → Prop} {netlist : Netlist} {state : State}

theorem Lasting.foldl_perform (hlasting : Lasting P) (hflat : netlist.Flat) (tasks : List Task)
    (htasks : ∀ task ∈ tasks, netlist.Includes task) : ∀ {state : State}, Sound netlist state →
      P netlist state → P netlist (tasks.foldl (State.perform netlist) state) := by
  induction tasks with
  | nil => exact fun _ h => h
  | cons task tasks ih =>
    exact fun h hstate => ih (fun other hother => htasks other (List.mem_cons_of_mem _ hother))
      (h.perform hflat.wired.native)
      (hlasting.perform hflat h hstate (htasks task (List.mem_cons_self ..)))

theorem Lasting.after (hlasting : Lasting P) (hflat : netlist.Flat) (h : Sound netlist state)
    (hstate : P netlist state) {left right : List Task}
    (htrace : netlist.trace state = left ++ right) : P netlist (netlist.after state left) :=
  hlasting.foldl_perform hflat left
    (fun _ htask => Netlist.includes_of_mem_trace (htrace ▸ List.mem_append_left _ htask))
    (h.mapPins _) (hlasting.begun hflat h hstate)

theorem Lasting.final (hlasting : Lasting P) (hflat : netlist.Flat) (h : Sound netlist state)
    (hstate : P netlist state) : P netlist (netlist.final state) := by
  rw [Netlist.final_eq]
  exact hlasting.after hflat h hstate (List.append_nil _).symm

/-- What holds of new pins and is about what can be seen of pins alone lasts. -/
theorem Kept.lasting (hkept : Kept P) : Lasting P where
  begun := hkept.begun
  perform hflat hsound h task _ := hkept.perform hflat hsound h task
  agrees := hkept.matches
  poked hflat hsound h index placed memory hplaced hpoked := by
    refine hkept.looks hflat h fun ref port hport => ?_
    obtain ⟨-, hpin⟩ := sound_setMemory hsound fun owner howner =>
      Option.some.inj (hplaced.symm.trans howner) ▸ hpoked.fits (hsound.fits hplaced)
    rw [look, look, hpin]
  cleared _ hsound _ hard := hkept.cleared (sound_reset hsound hard).1 fun part hpart pin hpin => by
    obtain ⟨⟨placed, held⟩, -, rfl⟩ := List.mem_map.mp hpart
    obtain ⟨before, -, rfl⟩ := List.mem_map.mp hpin
    exact ⟨rfl, rfl⟩

end State

namespace Simulation

variable {P : Netlist → State → Prop} {simulation next first : Simulation} {library : Library}
  {schematic : Schematic} {previous : Option Simulation}

theorem Coherent.lasting_settle (hlasting : State.Lasting P) (h : simulation.Coherent)
    (hstate : P simulation.netlist simulation.state) :
    P simulation.netlist simulation.settle.state :=
  hlasting.agrees h.flat (hlasting.final h.flat h.sound hstate) h.tracked_settle.agrees

theorem Coherent.lasting_latch (hlasting : State.Lasting P) (h : simulation.Coherent)
    (hstate : P simulation.netlist simulation.state) :
    P simulation.netlist simulation.latch.state := by
  have hsteps : ∀ task ∈ simulation.schedule.latchSteps.map fun step => Task.phase step.1 step.2,
      simulation.netlist.Includes task := by
    intro task htask
    obtain ⟨step, hstep, rfl⟩ := List.mem_map.mp htask
    rw [h.schedule] at hstep
    obtain ⟨phase, hphase, -⟩ := Netlist.mem_latchSteps.mp hstep
    exact ⟨phase, hphase⟩
  have hfold := hlasting.foldl_perform h.flat _ hsteps h.sound hstate
  rw [List.foldl_map] at hfold
  exact hfold

theorem Coherent.lasting_traceUsage (hlasting : State.Lasting P) (h : simulation.Coherent)
    (hstate : P simulation.netlist simulation.state) :
    P simulation.netlist simulation.traceUsage.state :=
  hlasting.agrees h.flat hstate
    (State.tracked_traceUsage simulation.schedule simulation.executed h.sound).agrees

theorem Coherent.lasting_poked (hlasting : State.Lasting P) (h : simulation.Coherent)
    (hstate : P simulation.netlist simulation.state) (hpoked : simulation.Poked next) :
    P simulation.netlist next.state := by
  obtain ⟨index, placed, memory, hplaced, hdevice, rfl⟩ := hpoked
  exact hlasting.poked h.flat h.sound hstate hplaced hdevice

/-- A lasting property lasts. -/
theorem Continues.lasting (hlasting : State.Lasting P) (hfirst : first.Coherent)
    (h : first.Continues simulation) (hstate : P first.netlist first.state) :
    P first.netlist simulation.state := by
  induction h with
  | refl => exact hstate
  | @withUsageTracking simulation enabled hbefore ih =>
    have h := hbefore.coherent hfirst
    rw [← hbefore.netlist] at ih ⊢
    have hkeep : ({ simulation with trackUsage := enabled } : Simulation).Coherent :=
      ⟨h.flat, h.schedule, h.sound, h.loose⟩
    cases enabled with
    | true => exact hkeep.lasting_traceUsage hlasting ih
    | false => exact ih
  | traceUsage hbefore ih =>
    rw [← hbefore.netlist] at ih ⊢
    exact (hbefore.coherent hfirst).lasting_traceUsage hlasting ih
  | setInput hbefore hnext ih =>
    rw [← hbefore.netlist] at ih ⊢
    rcases setInput_poked hnext with rfl | hpoked
    · exact ih
    · exact (hbefore.coherent hfirst).lasting_poked hlasting ih hpoked
  | writeRam hbefore hnext ih =>
    rw [← hbefore.netlist] at ih ⊢
    rcases writeRam_poked hnext with rfl | hpoked
    · exact ih
    · exact (hbefore.coherent hfirst).lasting_poked hlasting ih hpoked
  | settle hbefore ih =>
    rw [← hbefore.netlist] at ih ⊢
    exact (hbefore.coherent hfirst).lasting_settle hlasting ih
  | latch hbefore ih =>
    rw [← hbefore.netlist] at ih ⊢
    exact (hbefore.coherent hfirst).lasting_latch hlasting ih
  | step hbefore ih =>
    have h := hbefore.coherent hfirst
    rw [← hbefore.netlist] at ih ⊢
    have hlatch := h.lasting_latch hlasting ih
    obtain ⟨-, hstep⟩ | ⟨-, -, hstep⟩ | ⟨-, -, hstep⟩ := Simulation.step_cases _ <;> rw [hstep]
    · exact ih
    · exact hlatch
    · exact h.latch.lasting_settle hlasting hlatch
  | reset hard hbefore ih =>
    have h := hbefore.coherent hfirst
    rw [← hbefore.netlist] at ih ⊢
    obtain ⟨hsound, hloose⟩ := State.sound_reset h.sound hard
    exact Coherent.lasting_settle hlasting ⟨h.flat, h.schedule, hsound, hloose⟩
      (hlasting.cleared h.flat h.sound ih hard)

/-- A lasting property that holds when a circuit begins holds while it is in use. -/
theorem Begins.lasting (hlasting : State.Lasting P) (h : Begins library schematic previous first)
    (hnew : ∀ {state : State}, (flatten library schematic).Flat →
      State.New (flatten library schematic)
        (State.inherited previous (flatten library schematic)) state →
      P (flatten library schematic) state)
    (hcontinues : first.Continues simulation) : P simulation.netlist simulation.state := by
  obtain ⟨before, hbefore, hcoherent, hsettled⟩ := h.exists_pristine
  have hfresh := hbefore.new
  rw [hbefore.netlist] at hfresh
  have hstate : P first.netlist first.state := by
    rw [hsettled, netlist_settle]
    refine hcoherent.lasting_settle hlasting ?_
    rw [hbefore.netlist]
    exact hnew (hbefore.netlist ▸ hcoherent.flat) hfresh
  rw [hcontinues.netlist]
  exact hcontinues.lasting hlasting h.reachable.coherent hstate

end Simulation

end Breadboard
