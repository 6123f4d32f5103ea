import Breadboard.Proofs.SheetRun

/-!
# Counting

The register of `Demo.counter` feeds itself, through an adder that adds one. The circuit is a
sheet all the same, since only the clock edge reads what comes back (`sheet`). While it runs,
the register holds how many cycles there were, and sees that number plus one (`Runs`); a cycle
passes this on, and halts the circuit if it finds the switch set (`Runs.step`). A halted
counter stays as it is (`Halted.obey`). `counter_counts` says so of whole runs.
-/

namespace Breadboard

namespace Demo

theorem sealed_incrementer : incrementer.Sealed where
  distinct first hfirst second hsecond _ _ hid :=
    List.inj_on_of_nodup_map (by decide : (incrementer.components.map (·.id)).Nodup) hfirst hsecond
      hid
  hidden := by
    have hports : ∀ wire ∈ incrementer.wires, ∀ endpoint ∈ wire.endpoints,
        endpoint.port ≠ Boundary.externalPin := by
      decide
    exact fun wire hwire endpoint hend hport => absurd hport (hports wire hwire endpoint hend)

theorem furnished_library : library.Furnished where
  composed := Library.composed_builtin.addSchematic (by decide) _
  acyclic := Library.acyclic_of_rank (fun id => if id = "demo/inc" then 1 else 0)
    (by decide +kernel)
  sealed := Library.sealed_builtin.addSchematic sealed_incrementer
  builtin := by
    intro builtin
    cases builtin <;> rfl

end Demo

namespace Counting

open Demo Simulation

/-! ## The circuit -/

/-- What is done with a counter. -/
inductive Move where
  | step
  | stop (word : Word)
  deriving DecidableEq, Repr

def Move.command : Move → Command
  | step => .step
  | stop word => .set "stop" word

/-- How many cycles there are up to the first one that finds the switch set, with this one.
The switch has one bit, and is set to this word to begin with. -/
def cycles : Word → List Move → Nat
  | _, [] => 0
  | _, .stop word :: moves => cycles word moves
  | switch, .step :: moves => if trim 1 switch = 0 then cycles switch moves + 1 else 1

/-- Whether there is a cycle that finds the switch set. -/
def stops : Word → List Move → Bool
  | _, [] => false
  | _, .stop word :: moves => stops word moves
  | switch, .step :: moves => if trim 1 switch = 0 then stops switch moves else true

def register (width : Nat) : Component :=
  component .register "count" (wide width)

def one (width : Nat) : Component :=
  component .constant "one" (wideValue width 1)

def adder (width : Nat) : Component :=
  component .adder "inc" (wide width)

def probe (width : Nat) : Component :=
  component .probe "out" (wide width)

def switch : Component :=
  component .input "stop" (.obj [])

def halt : Component :=
  component .halt "halt" (.obj [("reason", .str "Stop switch set")])

theorem components_eq (width : Nat) : (counter width).components =
    [register width, one width, adder width, probe width, switch, halt] :=
  rfl

def shownWire : Wire :=
  ⟨"q", [⟨"count", "q"⟩, ⟨"inc", "a"⟩, ⟨"out", "in"⟩]⟩

def oneWire : Wire :=
  ⟨"w1", [⟨"one", "out"⟩, ⟨"inc", "b"⟩]⟩

def nextWire : Wire :=
  ⟨"next", [⟨"inc", "out"⟩, ⟨"count", "d"⟩]⟩

def stopWire : Wire :=
  ⟨"wstop", [⟨"stop", "out"⟩, ⟨"halt", "in"⟩]⟩

theorem wires_eq (width : Nat) :
    (counter width).wires = [shownWire, oneWire, nextWire, stopWire] :=
  rfl

/-- The register takes over what it sees at every clock edge. -/
theorem enable_unwired (width : Nat) :
    ∀ wire ∈ (counter width).wires, ⟨"count", "en"⟩ ∉ wire.endpoints := by
  rw [wires_eq]
  decide

/-- What adds, shows or halts is above what it reads. -/
def level (id : String) : Nat :=
  if id = "inc" ∨ id = "out" ∨ id = "halt" then 1 else 0

section

variable {width : Nat}

/-- There is one halt. -/
theorem eq_halt {found : Component} (hmem : found ∈ (counter width).components)
    (hdefinition : found.definition = Builtin.halt.id) : found = halt := by
  simp only [components_eq, List.mem_cons, List.not_mem_nil, or_false] at hmem
  rcases hmem with rfl | rfl | rfl | rfl | rfl | rfl
  · simp [register, component, Builtin.id] at hdefinition
  · simp [one, component, Builtin.id] at hdefinition
  · simp [adder, component, Builtin.id] at hdefinition
  · simp [probe, component, Builtin.id] at hdefinition
  · simp [switch, component, Builtin.id] at hdefinition
  · rfl

theorem register_mem : register width ∈ (counter width).components := by simp [components_eq]

theorem one_mem : one width ∈ (counter width).components := by simp [components_eq]

theorem adder_mem : adder width ∈ (counter width).components := by simp [components_eq]

theorem switch_mem : switch ∈ (counter width).components := by simp [components_eq]

theorem halt_mem : halt ∈ (counter width).components := by simp [components_eq]

theorem shownWire_mem : shownWire ∈ (counter width).wires := by simp [wires_eq]

theorem oneWire_mem : oneWire ∈ (counter width).wires := by simp [wires_eq]

theorem nextWire_mem : nextWire ∈ (counter width).wires := by simp [wires_eq]

theorem stopWire_mem : stopWire ∈ (counter width).wires := by simp [wires_eq]

variable (hword : width ≤ 64)

include hword

theorem drives_q : (counter width).Drives ⟨"count", "q"⟩ width :=
  ⟨register width, .register, 2, _, ⟨register_mem, rfl, rfl, rfl, rfl⟩, rfl, rfl, rfl,
    Json.width_eq hword _⟩

theorem drives_one : (counter width).Drives ⟨"one", "out"⟩ width :=
  ⟨one width, .constant, 0, _, ⟨one_mem, rfl, rfl, rfl, rfl⟩, rfl, rfl, rfl, Json.width_eq hword _⟩

theorem drives_next : (counter width).Drives ⟨"inc", "out"⟩ width :=
  ⟨adder width, .adder, 2, _, ⟨adder_mem, rfl, rfl, rfl, rfl⟩, rfl, rfl, rfl,
    Json.width_eq hword _⟩

omit hword in
theorem drives_stop : (counter width).Drives ⟨"stop", "out"⟩ 1 :=
  ⟨switch, .input, 0, _, ⟨switch_mem, rfl, rfl, rfl, rfl⟩, rfl, rfl, rfl, rfl⟩

theorem sheet {library : Library} (hlibrary : library.Furnished) (hwidth : 1 ≤ width) :
    Sheet library (counter width) level where
  furnished := hlibrary
  nodup := show ["count", "one", "inc", "out", "stop", "halt"].Nodup by decide
  kind found hmem := by
    simp only [components_eq, List.mem_cons, List.not_mem_nil, or_false] at hmem
    rcases hmem with rfl | rfl | rfl | rfl | rfl | rfl
    · exact ⟨.register, rfl, by decide, rfl⟩
    · exact ⟨.constant, rfl, by decide, rfl⟩
    · exact ⟨.adder, rfl, by decide, rfl⟩
    · exact ⟨.probe, rfl, by decide, rfl⟩
    · exact ⟨.input, rfl, by decide, rfl⟩
    · exact ⟨.halt, rfl, by decide, rfl⟩
  disjoint := by
    rw [wires_eq, Disjoint]
    decide
  leads wire hmem := by
    have hpositive : width ≠ 0 := by omega
    have hprobe : probe width ∈ (counter width).components := by simp [components_eq]
    simp only [wires_eq, List.mem_cons, List.not_mem_nil, or_false] at hmem
    rcases hmem with rfl | rfl | rfl | rfl
    · refine ⟨_, _, width, rfl, hpositive, drives_q hword, ?_⟩
      simp only [List.mem_cons, List.not_mem_nil, or_false, forall_eq_or_imp, forall_eq]
      exact ⟨⟨adder width, .adder, 0, _, ⟨adder_mem, rfl, rfl, rfl, rfl⟩, rfl, rfl, rfl,
          Json.width_eq hword _, fun _ _ _ _ => show level "count" < level "inc" by decide⟩,
        ⟨probe width, .probe, 0, _, ⟨hprobe, rfl, rfl, rfl, rfl⟩, rfl, rfl, rfl,
          Json.width_eq hword _, fun _ _ _ _ => show level "count" < level "out" by decide⟩⟩
    · refine ⟨_, _, width, rfl, hpositive, drives_one hword, List.forall_mem_singleton.mpr ?_⟩
      exact ⟨adder width, .adder, 1, _, ⟨adder_mem, rfl, rfl, rfl, rfl⟩, rfl, rfl, rfl,
        Json.width_eq hword _, fun _ _ _ _ => show level "one" < level "inc" by decide⟩
    · -- this one closes the loop, and is read at the clock edge only
      refine ⟨_, _, width, rfl, hpositive, drives_next hword, List.forall_mem_singleton.mpr ?_⟩
      refine ⟨register width, .register, 0, _, ⟨register_mem, rfl, rfl, rfl, rfl⟩, rfl, rfl, rfl,
        Json.width_eq hword _, fun phase hphase hlatch hread => ?_⟩
      rcases List.mem_pair.mp hphase with rfl | rfl
      · cases hread
      · cases hlatch
    · refine ⟨_, _, 1, rfl, by decide, drives_stop, List.forall_mem_singleton.mpr ?_⟩
      exact ⟨halt, .halt, 0, _, ⟨halt_mem, rfl, rfl, rfl, rfl⟩, rfl, rfl, rfl, rfl,
        fun _ _ _ _ => by decide⟩

end

section

variable {library : Library} {width count index : Nat} {word : Word} {simulation : Simulation}

/-- What the counter remembers: the number of cycles, and the word that its switch is set to. -/
structure Stores (netlist : Netlist) (width count : Nat) (word : Word) (state : State) : Prop where
  register : ∀ index, netlist.Houses (register width) .register index →
    (state.part index).memory = .register (.ofNat (count % 2 ^ width))
  switch : ∀ index, netlist.Houses switch .input index →
    (state.part index).memory = .input (trim 1 word)

theorem Stores.settle (hcoherent : simulation.Coherent)
    (h : Stores simulation.netlist width count word simulation.state) :
    Stores simulation.netlist width count word simulation.settle.state where
  register index hhouses := by
    obtain ⟨part, hpart, hmade⟩ := id hhouses.made
    rw [hcoherent.memory_settle hpart (by rw [hmade.device]; rfl), h.register index hhouses]
  switch index hhouses := by
    obtain ⟨part, hpart, hmade⟩ := id hhouses.made
    rw [hcoherent.memory_settle hpart (by rw [hmade.device]; rfl), h.switch index hhouses]

/-! ## The settled counter -/

section

variable {netlist : Netlist} {root : Spot} {before after : State}
  (h : LaidSheet library (counter width) level netlist root)
  (hsettled : netlist.Settled before after) (hsound : State.Sound netlist after)
  (hstores : Stores netlist width count word after)

include h hsettled hsound hstores

theorem wordAt_q : netlist.wordAt after ⟨"count", "q"⟩ = .ofNat (count % 2 ^ width) := by
  obtain ⟨index, hhouses⟩ := h.exists_houses .register register_mem rfl
  exact hhouses.register_shows hsettled h.flat.wired hsound (hstores.register index hhouses)

/-- The halt sees the switch. -/
theorem wordAt_halt : netlist.wordAt after ⟨"halt", "in"⟩ = trim 1 word := by
  obtain ⟨index, hhouses⟩ := h.exists_houses .input switch_mem rfl
  have hstop : netlist.wordAt after ⟨"stop", "out"⟩ = trim 1 word :=
    hhouses.input_shows hsettled h.flat.wired hsound (hstores.switch index hhouses)
  rw [h.wordAt_sink hsettled stopWire_mem rfl drives_stop (List.mem_singleton_self _), hstop,
    trim_trim]

variable (hword : width ≤ 64)

include hword

/-- The adder adds one to what the register holds. -/
theorem wordAt_next : netlist.wordAt after ⟨"inc", "out"⟩ = .ofNat ((count + 1) % 2 ^ width) := by
  have hwired := h.flat.wired
  obtain ⟨sum, hadder⟩ := h.exists_houses .adder adder_mem rfl
  obtain ⟨unit, hone⟩ := h.exists_houses .constant one_mem rfl
  have ha : netlist.wordAt after ⟨"inc", "a"⟩ = trim width (.ofNat (count % 2 ^ width)) := by
    rw [h.wordAt_sink hsettled shownWire_mem rfl (drives_q hword) (List.mem_cons_self ..),
      wordAt_q h hsettled hsound hstores]
  have hb : netlist.wordAt after ⟨"inc", "b"⟩ = trim width (.ofNat 1) := by
    have hunit : netlist.wordAt after ⟨"one", "out"⟩ = trim width (.ofNat 1) := by
      have hshown := hone.constant_shows hsettled hwired hsound
      rwa [show (one width).args.width "width" 1 = width from Json.width_eq hword _] at hshown
    rw [h.wordAt_sink hsettled oneWire_mem rfl (drives_one hword) (List.mem_singleton_self _),
      hunit, trim_trim]
  have hsum : netlist.addends after (adder width) = count % 2 ^ width + 1 % 2 ^ width := by
    have hin : (adder width).args.flag "carryIn" false = false := rfl
    rw [Netlist.addends, hin, if_neg Bool.false_ne_true, Nat.add_zero,
      show (adder width).id = "inc" from rfl, ha, hb, toNat_trim_ofNat hword,
      toNat_trim_ofNat hword, Nat.mod_mod]
  have hshown := hadder.adder_shows hsettled hwired hsound
  rw [show (adder width).args.width "width" 1 = width from Json.width_eq hword _, hsum,
    trim_ofNat hword, ← Nat.add_mod] at hshown
  exact hshown

/-- The register sees the next number. -/
theorem wordAt_d : netlist.wordAt after ⟨"count", "d"⟩ = .ofNat ((count + 1) % 2 ^ width) := by
  rw [h.wordAt_sink hsettled nextWire_mem rfl (drives_next hword) (List.mem_singleton_self _),
    wordAt_next h hsettled hsound hstores hword, trim_ofNat hword, Nat.mod_mod]

theorem peeks (hsame : simulation.netlist = netlist) (hstate : simulation.state = after) :
    simulation.peek "q" = .ok (.ofNat (count % 2 ^ width)) ∧
      simulation.peek "next" = .ok (.ofNat ((count + 1) % 2 ^ width)) := by
  have hnames : ((counter width).wires.map (·.id)).Nodup :=
    show ["q", "w1", "next", "wstop"].Nodup by decide
  have hshown := h.peek_eq hsettled hsame hstate hnames shownWire_mem rfl (drives_q hword)
  have hadded := h.peek_eq hsettled hsame hstate hnames nextWire_mem rfl (drives_next hword)
  rw [wordAt_q h hsettled hsound hstores, trim_ofNat hword, Nat.mod_mod] at hshown
  rw [wordAt_next h hsettled hsound hstores hword, trim_ofNat hword, Nat.mod_mod] at hadded
  exact ⟨hshown, hadded⟩

end

/-! ## The counter in operation -/

/-- The counter shows this number of cycles, and the next one. -/
structure Shows (width count : Nat) (simulation : Simulation) : Prop where
  ticks : simulation.ticks = count
  q : simulation.peek "q" = .ok (.ofNat (count % 2 ^ width))
  next : simulation.peek "next" = .ok (.ofNat ((count + 1) % 2 ^ width))

/-- The counter runs, and its switch is set to this word. -/
structure Runs (library : Library) (width count : Nat) (word : Word) (simulation : Simulation) :
    Prop extends Shows width count simulation where
  occurs : simulation.Occurs library (counter width)
  status : simulation.state.status = .running
  stores : Stores simulation.netlist width count word simulation.state
  sees : simulation.netlist.wordAt simulation.state ⟨"count", "d"⟩ =
    .ofNat ((count + 1) % 2 ^ width)

/-- The counter has halted. -/
structure Halted (library : Library) (width count : Nat) (simulation : Simulation) : Prop
    extends Shows width count simulation where
  occurs : simulation.Occurs library (counter width)
  status : simulation.state.status = .halted "Stop switch set"

/-- Setting an input shows nowhere yet. -/
theorem Shows.set (h : Shows width count simulation) (hcoherent : simulation.Coherent)
    (path : String) (word : Word) : Shows width count (simulation.obey (.set path word)) :=
  ⟨(hcoherent.clock_set path word).1.trans h.ticks, (hcoherent.peek_set path word "q").trans h.q,
    (hcoherent.peek_set path word "next").trans h.next⟩

/-- A counter that settles runs on, unless its switch is set. -/
theorem settles {root : Spot} (h : LaidSheet library (counter width) level simulation.netlist root)
    (hword : width ≤ 64) (hcoherent : simulation.Coherent)
    (hoccurs : simulation.settle.Occurs library (counter width))
    (hticks : simulation.ticks = count) (hrunning : simulation.state.status = .running)
    (hstores : Stores simulation.netlist width count word simulation.state) :
    if trim 1 word = 0 then Runs library width count word simulation.settle
    else Halted library width count simulation.settle := by
  have hsame := netlist_settle simulation
  have hsettled := hcoherent.settled h.static
  have hsound := hcoherent.settle.sound
  rw [hsame] at hsound
  have hstores := hstores.settle hcoherent
  obtain ⟨hq, hnext⟩ := peeks h hsettled hsound hstores hword hsame rfl
  have hshows : Shows width count simulation.settle :=
    ⟨(ticks_settle simulation).trans hticks, hq, hnext⟩
  have hhalt := wordAt_halt h hsettled hsound hstores
  rcases h.status_settle hcoherent rfl hrunning with
    ⟨hstatus, hnone⟩ | ⟨found, hmem, hdefinition, hseen, hstatus⟩
  · have hzero := hnone halt halt_mem rfl
    rw [if_pos (hhalt.symm.trans hzero)]
    refine ⟨hshows, hoccurs, hstatus, hsame ▸ hstores, ?_⟩
    rw [hsame]
    exact wordAt_d h hsettled hsound hstores hword
  · obtain rfl := eq_halt hmem hdefinition
    rw [if_neg (hhalt ▸ hseen)]
    exact ⟨hshows, hoccurs, hstatus⟩

/-! ## Moves -/

section

variable (hlibrary : library.Furnished)

include hlibrary

theorem Runs.stop (h : Runs library width count word simulation) (next : Word) :
    Runs library width count next (simulation.obey (.set "stop" next)) := by
  have hcoherent := h.occurs.coherent hlibrary.composed.native
  have hsame := hcoherent.netlist_set "stop" next
  obtain ⟨hpin, -, hkeep⟩ := hcoherent.unmoved_set "stop" next
  refine ⟨h.toShows.set hcoherent _ _, h.occurs.obey _, (hcoherent.clock_set _ _).2.trans h.status,
    ⟨fun index hhouses => ?_, fun index hhouses => ?_⟩, ?_⟩
  · rw [hsame] at hhouses
    obtain ⟨part, hpart, hmade⟩ := id hhouses.made
    rw [hkeep hpart (fun _ _ hdevice => nomatch hmade.device.symm.trans hdevice),
      h.stores.register index hhouses]
  · rw [hcoherent.memory_set (hsame ▸ hhouses)]
    exact if_pos rfl
  · rw [← h.sees, hsame, Netlist.wordAt, Netlist.wordAt]
    simp only [hpin]

/-- A halted counter does nothing. -/
theorem Halted.step_eq (h : Halted library width count simulation) :
    simulation.step = simulation := by
  rw [(h.occurs.coherent hlibrary.composed.native).step_eq, Simulation.isHalted, h.status]
  rfl

theorem Halted.obey (h : Halted library width count simulation) (move : Move) :
    Halted library width count (simulation.obey move.command) := by
  cases move with
  | step =>
    rw [show simulation.obey Move.step.command = simulation from h.step_eq hlibrary]
    exact h
  | stop next =>
    have hcoherent := h.occurs.coherent hlibrary.composed.native
    exact ⟨h.toShows.set hcoherent _ _, h.occurs.obey _,
      (hcoherent.clock_set _ _).2.trans h.status⟩

theorem Halted.run (h : Halted library width count simulation) (moves : List Move) :
    Halted library width count ((moves.map Move.command).foldl Simulation.obey simulation) := by
  induction moves generalizing simulation with
  | nil => exact h
  | cons move moves ih => exact ih (h.obey hlibrary move)

variable (hwidth : 1 ≤ width) (hword : width ≤ 64)

include hwidth hword

/-- A cycle of a running counter counts, and halts it if its switch is set. -/
theorem Runs.step (h : Runs library width count word simulation) :
    if trim 1 word = 0 then Runs library width (count + 1) word simulation.step
    else Halted library width (count + 1) simulation.step := by
  obtain ⟨root, hlaid⟩ := (sheet hword hlibrary hwidth).exists_laidSheet
  rw [← h.occurs.stocked.netlist] at hlaid
  have hcoherent := h.occurs.coherent hlibrary.composed.native
  have hstep : simulation.step = simulation.latch.settle := by
    rw [hcoherent.step_eq, Simulation.isHalted, h.status]
    rfl
  rw [hstep]
  refine settles hlaid hword hcoherent.latch (hstep ▸ h.occurs.obey .step)
    (congrArg (· + 1) h.ticks) ?_ ⟨fun index hhouses => ?_, fun index hhouses => ?_⟩
  · rw [hcoherent.state_latch, (Netlist.latched_latched hlaid.flat hcoherent.sound).status]
    exact h.status
  · rw [hcoherent.state_latch, hlaid.register_latches register_mem rfl hhouses
      (enable_unwired width) hcoherent.sound (h.stores.register index hhouses)]
    exact congrArg Memory.register h.sees
  · exact (hcoherent.memory_latch hhouses).trans (h.stores.switch index hhouses)

/-! ## Runs -/

theorem Runs.run (h : Runs library width count word simulation) (moves : List Move) :
    if stops word moves then
      Halted library width (count + cycles word moves)
        ((moves.map Move.command).foldl Simulation.obey simulation)
    else ∃ last, Runs library width (count + cycles word moves) last
      ((moves.map Move.command).foldl Simulation.obey simulation) := by
  induction moves generalizing simulation count word with
  | nil => exact ⟨word, h⟩
  | cons move moves ih =>
    cases move with
    | stop next => exact ih (h.stop hlibrary next)
    | step =>
      have hstep := h.step hlibrary hwidth hword
      by_cases hzero : trim 1 word = 0
      · rw [if_pos hzero] at hstep
        rw [stops, cycles, if_pos hzero, if_pos hzero, Nat.add_comm _ 1, ← Nat.add_assoc]
        exact ih hstep
      · rw [if_neg hzero] at hstep
        rw [stops, cycles, if_neg hzero, if_neg hzero, if_pos rfl]
        exact hstep.run hlibrary moves

theorem exists_start : ∃ first, Simulation.start library (counter width) = .ok first ∧
    Runs library width 0 0 first := by
  obtain ⟨root, hlaid⟩ := (sheet hword hlibrary hwidth).exists_laidSheet
  have hstart := start_eq hlaid.fault_eq_none
  obtain ⟨hsound, hloose⟩ := State.sound_fresh (flatten library (counter width))
  let before : Simulation :=
    { netlist := flatten library (counter width)
      schedule := compile (flatten library (counter width))
      state := .fresh (flatten library (counter width)) }
  have hcoherent : before.Coherent := ⟨hlaid.flat, rfl, hsound, hloose⟩
  have hmemory : ∀ {component : Component} {builtin : Builtin} {index : Nat},
      before.netlist.Houses component builtin index →
      (before.state.part index).memory = (builtin.assemble component.args).device.fresh := by
    intro component builtin index hhouses
    obtain ⟨part, hpart, hmade⟩ := hhouses.made
    rw [(State.new_fresh _).memory hpart, ← hmade.device]
    rfl
  have hsettles : if trim 1 0 = 0 then Runs library width 0 0 before.settle
      else Halted library width 0 before.settle :=
    settles hlaid hword hcoherent (.start hstart) rfl rfl
      ⟨fun _ hhouses => hmemory hhouses, fun _ hhouses => hmemory hhouses⟩
  rw [if_pos (by decide)] at hsettles
  exact ⟨_, hstart, hsettles⟩

end

end

end Counting

open Counting in
/-- The counter counts the clock cycles: its nets show how many there were and the next
number, each modulo the numbers of its width. The cycle that finds the switch set is the last
one. The circuit has halted then, and goes through no other cycle, however the switch is set. -/
theorem Simulation.counter_counts {library : Library} {width : Nat}
    (hlibrary : library.Furnished) (hwidth : 1 ≤ width) (hword : width ≤ 64) :
    ∃ first, start library (Demo.counter width) = .ok first ∧ ∀ moves : List Move,
      let reached := (moves.map Move.command).foldl obey first
      reached.ticks = cycles 0 moves ∧
      reached.peek "q" = .ok (.ofNat (cycles 0 moves % 2 ^ width)) ∧
      reached.peek "next" = .ok (.ofNat ((cycles 0 moves + 1) % 2 ^ width)) ∧
      if stops 0 moves then
        reached.state.status = .halted "Stop switch set" ∧ reached.step = reached
      else reached.state.status = .running := by
  obtain ⟨first, hstart, hruns⟩ := exists_start hlibrary hwidth hword
  refine ⟨first, hstart, fun moves => ?_⟩
  have hrun := hruns.run hlibrary hwidth hword moves
  rw [Nat.zero_add] at hrun
  intro reached
  cases hstops : stops 0 moves with
  | true =>
    rw [hstops, if_pos rfl] at hrun
    exact ⟨hrun.ticks, hrun.q, hrun.next, hrun.status, hrun.step_eq hlibrary⟩
  | false =>
    rw [hstops, if_neg Bool.false_ne_true] at hrun
    obtain ⟨last, hrun⟩ := hrun
    exact ⟨hrun.ticks, hrun.q, hrun.next, hrun.status⟩

open Counting in
/-- Two bits count to six, with a switch that is set late and comes too late again. -/
theorem Simulation.counter_counts_wrapped :
    ∃ first, start Demo.library (Demo.counter 2) = .ok first ∧
      let moves := [.step, .step, .stop 2, .step, .step, .step, .stop 3, .step, .stop 0, .step]
      let reached := (moves.map Move.command).foldl obey first
      reached.ticks = 6 ∧ reached.peek "q" = .ok 2 ∧ reached.peek "next" = .ok 3 ∧
        reached.state.status = .halted "Stop switch set" ∧ reached.step = reached := by
  obtain ⟨first, hstart, hcounts⟩ :=
    @counter_counts Demo.library 2 Demo.furnished_library (by decide) (by decide)
  exact ⟨first, hstart, hcounts _⟩

end Breadboard
