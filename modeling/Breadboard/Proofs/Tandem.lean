import Breadboard.Proofs.Directory
import Breadboard.Proofs.Embedded

/-!
# Running a circuit and one that it stands in

Two circuits are run side by side, and whatever is done to one is done to the
other. `Embedding.Kept` names what one settle, one clock edge, one reset and one
input that is set have to keep; then it is kept whatever the commands are
(`Simulation.Tandem.run`), and what can be seen of the inner circuit is the same in
both (`Simulation.Tandem.agreeAt`, `Simulation.Tandem.shownAt?_eq`).

Neither circuit tracks usage.
-/

namespace Breadboard

namespace Embedding

/-- A relation between the states of two circuits that holds when they start and
whatever is done to both. -/
structure Kept (e : Embedding) (inner outer : Netlist) (Both : State → State → Prop) : Prop where
  places : e.Places inner outer
  related : ∀ {small big : State}, Both small big → e.Extends inner small big
  fresh : Both (.fresh inner) (.fresh outer)
  final : ∀ {small big : State}, Both small big → Both (inner.final small) (outer.final big)
  latched : ∀ {small big : State}, Both small big → Both (inner.latched small) (outer.latched big)
  cleared : ∀ {small big : State} (hard : Bool), Both small big →
    Both (small.cleared inner hard) (big.cleared outer hard)
  set : ∀ {small big : State} {p : Nat} {placed : Part} {width : Nat} {initial : Word},
    inner.parts[p]? = some placed → placed.device = .input width initial → ∀ value : Word,
    Both small big → Both (small.setPart p { small.part p with memory := .input value })
      (big.setPart (e.part p) { big.part (e.part p) with memory := .input value })

/-- A path leads to the same part. -/
def Leads (e : Embedding) (inner outer : Netlist) (path : Path) : Prop :=
  outer.partAt? path = (inner.partAt? path).map e.part

end Embedding

namespace Simulation

variable {e : Embedding} {inner outer : Netlist} {Both : State → State → Prop}
  {small big : Simulation} {p n : Nat}

/-- Two simulations that are run side by side. -/
structure Tandem (inner outer : Netlist) (Both : State → State → Prop)
    (small big : Simulation) : Prop where
  netlist : small.netlist = inner
  netlist' : big.netlist = outer
  schedule : small.schedule = compile inner
  schedule' : big.schedule = compile outer
  untracked : small.trackUsage = false
  untracked' : big.trackUsage = false
  both : Both small.state big.state

/-- The pin of a port of the part at a path. -/
def pinAt? (simulation : Simulation) (path port : String) : Option Pin :=
  (simulation.partAt path).toOption.bind fun index => simulation.pinState? index port

/-- What the net at a path shows. -/
def shownAt? (simulation : Simulation) (path : String) : Option NetState :=
  (simulation.netAt path).toOption.map simulation.state.net

/-- What can be seen of the part at a path is the same. -/
structure AgreeAt (first second : Simulation) (path : String) : Prop where
  pin : ∀ port, first.pinAt? path port = second.pinAt? path port
  input : first.inputValue path = second.inputValue path
  probe : first.probeValue path = second.probeValue path
  register : first.registerValue path = second.registerValue path
  ram : first.ramCells path = second.ramCells path

theorem AgreeAt.symm {first second : Simulation} {path : String} (h : first.AgreeAt second path) :
    second.AgreeAt first path :=
  ⟨fun port => (h.pin port).symm, h.input.symm, h.probe.symm, h.register.symm, h.ram.symm⟩

theorem state_settle {simulation : Simulation} {netlist : Netlist}
    (hnetlist : simulation.netlist = netlist) (hschedule : simulation.schedule = compile netlist)
    (huntracked : simulation.trackUsage = false) :
    simulation.settle.state = netlist.final simulation.state ∧
      simulation.settle.trackUsage = false := by
  rw [settle, hschedule, hnetlist]
  dsimp only
  rw [if_neg (by simp [huntracked])]
  exact ⟨rfl, huntracked⟩

namespace Tandem

variable (hkept : e.Kept inner outer Both) (h : Tandem inner outer Both small big)

include h

section

include hkept

theorem related : e.Extends inner small.state big.state :=
  hkept.related h.both

theorem isHalted : small.isHalted = big.isHalted :=
  (h.related hkept).halted

theorem settle : Tandem inner outer Both small.settle big.settle := by
  obtain ⟨hstate, huntracked⟩ := state_settle h.netlist h.schedule h.untracked
  obtain ⟨hstate', huntracked'⟩ := state_settle h.netlist' h.schedule' h.untracked'
  exact ⟨(netlist_settle _).trans h.netlist, (netlist_settle _).trans h.netlist',
    (schedule_settle _).trans h.schedule, (schedule_settle _).trans h.schedule', huntracked,
    huntracked', hstate ▸ hstate' ▸ hkept.final h.both⟩

theorem latch : Tandem inner outer Both small.latch big.latch := by
  have hstate : small.latch.state = inner.latched small.state := by
    simp only [Simulation.latch, h.schedule, h.netlist, Netlist.latched]
  have hstate' : big.latch.state = outer.latched big.state := by
    simp only [Simulation.latch, h.schedule', h.netlist', Netlist.latched]
  refine ⟨h.netlist, h.netlist', h.schedule, h.schedule', h.untracked, h.untracked', ?_⟩
  rw [hstate, hstate']
  exact hkept.latched h.both

theorem step : Tandem inner outer Both small.step big.step := by
  rw [Simulation.step, Simulation.step, ← h.isHalted hkept]
  dsimp only
  rw [← (h.latch hkept).isHalted hkept]
  split
  · exact h
  · split
    · exact h.latch hkept
    · exact (h.latch hkept).settle hkept

theorem reset (hard : Bool) : Tandem inner outer Both (small.reset hard) (big.reset hard) := by
  obtain rfl := h.netlist
  obtain rfl := h.netlist'
  have hcleared : Tandem small.netlist big.netlist Both
      { small with state := small.state.cleared small.netlist hard }
      { big with state := big.state.cleared big.netlist hard } :=
    ⟨rfl, rfl, h.schedule, h.schedule', h.untracked, h.untracked', hkept.cleared hard h.both⟩
  exact hcleared.settle hkept

/-- What is found at a path. -/
theorem partOf_eq {path : String} (hleads : e.Leads inner outer ⟨path⟩) {α : Type}
    (kind : PartKind) (read : Memory → Option α) : big.partOf path kind read =
      (small.partOf path kind read).map fun found => (e.part found.1, found.2) := by
  rw [partOf, partOf, partAt, partAt, h.netlist, h.netlist', hleads]
  cases hpart : inner.partAt? ⟨path⟩ with
  | none => rfl
  | some p =>
    have hheld := (h.related hkept).part_eq (Netlist.partPath_of_partAt? hpart).1
    simp only [Option.map_some, bind, Except.bind, ← hheld]
    cases read (small.state.part p).memory <;> rfl

/-- Setting an input of the inner circuit sets it in both. -/
theorem set {path : String} (hleads : e.Leads inner outer ⟨path⟩) (value : Word) :
    Tandem inner outer Both (small.obey (.set path value)) (big.obey (.set path value)) := by
  rw [Simulation.obey, Simulation.obey, setInput, setInput, h.partOf_eq hkept hleads]
  cases hfound : small.partOf path .input _ with
  | error _ => exact h
  | ok found =>
    obtain ⟨placed, host, hplaced, hhost, hdevice, -⟩ :=
      hkept.places.exists_host (h.netlist ▸ lt_of_partOf hfound)
    simp only [bind, Except.bind, Except.map, h.netlist, h.netlist', device_getD hplaced,
      device_getD hhost, hdevice]
    cases hkind : placed.device with
    | input width initial =>
      exact ⟨h.netlist, h.netlist', h.schedule, h.schedule', h.untracked, h.untracked',
        hkept.set hplaced hkind (trim width value) h.both⟩
    | _ => exact h

theorem obey {command : Command}
    (hleads : ∀ path value, command = .set path value → e.Leads inner outer ⟨path⟩) :
    Tandem inner outer Both (small.obey command) (big.obey command) := by
  cases command with
  | set path value => exact h.set hkept (hleads path value rfl) value
  | settle => exact h.settle hkept
  | latch => exact h.latch hkept
  | step => exact h.step hkept
  | reset hard => exact h.reset hkept hard

/-- Whatever is done to both simulations, they go on side by side. -/
theorem run {commands : List Command}
    (hleads : ∀ path value, .set path value ∈ commands → e.Leads inner outer ⟨path⟩) :
    Tandem inner outer Both (commands.foldl Simulation.obey small)
      (commands.foldl Simulation.obey big) := by
  induction commands generalizing small big with
  | nil => exact h
  | cons command commands ih =>
    have hnext : Tandem inner outer Both (small.obey command) (big.obey command) :=
      h.obey hkept fun path value heq => hleads path value (heq ▸ List.mem_cons_self ..)
    exact ih hnext fun path value hmem => hleads path value (List.mem_cons_of_mem _ hmem)

omit h in
theorem ofNetlist : Tandem inner outer Both (ofNetlist inner) (ofNetlist outer) := by
  have hfresh : Tandem inner outer Both
      { netlist := inner, schedule := compile inner, state := .fresh inner }
      { netlist := outer, schedule := compile outer, state := .fresh outer } :=
    ⟨rfl, rfl, rfl, rfl, rfl, rfl, hkept.fresh⟩
  exact hfresh.settle hkept

/-! ## What can be seen -/

theorem agreeAt {path : String} (hleads : e.Leads inner outer ⟨path⟩) :
    small.AgreeAt big path := by
  have hread : ∀ {α : Type} (kind : PartKind) (read : Memory → Option α),
      (·.2) <$> small.partOf path kind read = (·.2) <$> big.partOf path kind read := by
    intro α kind read
    rw [h.partOf_eq hkept hleads]
    cases small.partOf path kind read <;> rfl
  refine ⟨fun port => ?_, hread .input _, hread .probe _, hread .register _, hread .ram _⟩
  rw [pinAt?, pinAt?, partAt, partAt, h.netlist, h.netlist', hleads]
  cases hpart : inner.partAt? ⟨path⟩ with
  | none => rfl
  | some p =>
    have hlt := (Netlist.partPath_of_partAt? hpart).1
    obtain ⟨placed, host, hplaced, hhost, -, -, hports⟩ := hkept.places.exists_host hlt
    have hposition : host.port? port = placed.port? port := by
      rw [Part.port?, Part.port?, hports, List.findIdx?_map]
      rfl
    simp only [Option.map_some, Except.toOption, Option.bind_some, pinState?, h.netlist, h.netlist',
      hplaced, hhost, (h.related hkept).part_eq hlt]
    simp only [bind, Option.bind_some, hposition]

/-- The net at a path shows the same. -/
theorem shownAt?_eq {path : String}
    (hnet : outer.netAt? ⟨path⟩ = (inner.netAt? ⟨path⟩).map e.net)
    (hlt : ∀ n, inner.netAt? ⟨path⟩ = some n → n < inner.nets.length) :
    small.shownAt? path = big.shownAt? path := by
  rw [shownAt?, shownAt?, netAt, netAt, h.netlist, h.netlist', hnet]
  cases hfound : inner.netAt? ⟨path⟩ with
  | none => rfl
  | some n => exact congrArg some ((h.related hkept).net_eq (hlt n hfound))

end

end Tandem

end Simulation

end Breadboard
