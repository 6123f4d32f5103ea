import Breadboard.Demo
import Breadboard.Proofs.BusRun
import Breadboard.Proofs.ClockEdge

/-!
# A memory on a shared bus

A memory reads and drives a tri-state bus with one pin (`Netlist.MemoryBus`). The clock
edge writes what that pin shows, which is what the bus has shown since the last settle,
provided that just one driver was enabled then: otherwise the bus keeps its value and the
pin its own. So in a run in which this is the case at every edge that writes
(`Simulation.Exclusive`), each cell holds what the bus showed when it was written last,
however often the bus floated or conflicted in between (`Simulation.Occurs.faithful_run`). And
when nothing else drives the bus, a memory that is asked to read puts the addressed cell
on it (`MemoryBus.reads`). `Simulation.bus_memory_reads_last_write` says both of the bus of
the canned circuits.
-/

namespace Breadboard

open Netlist

/-! ## What a run writes -/

namespace Simulation

/-- How many drivers of a net the last settle found enabled. -/
def enabledDrivers (simulation : Simulation) (path : String) : Except LookupError Nat :=
  (simulation.netAt path).map fun index => (simulation.state.net index).enabledCount

/-- Whether a command brings a clock edge. -/
def clocks (simulation : Simulation) : Command → Bool
  | .latch => true
  | .step => !simulation.isHalted
  | .set .. | .settle | .reset _ => false

/-- Whether a command ends with a settle. -/
def settles (simulation : Simulation) : Command → Bool
  | .settle | .reset _ => true
  | .step => !simulation.isHalted
  | .set .. | .latch => false

/-- What a clock edge writes into a memory on a bus: nothing while the write line is zero,
and otherwise what the bus shows, at the address that the memory sees. -/
def write? (simulation : Simulation) (ram bus : String) : Option (Nat × Word) := do
  let line ← (simulation.peekPort (ram ++ ".we")).toOption
  let addr ← (simulation.peekPort (ram ++ ".addr")).toOption
  let shown ← (simulation.peek bus).toOption
  if line = 0 then none else some (addr.toNat, shown)

/-- The writes behind a command, the latest first. A hard reset forgets them. -/
def logged (simulation : Simulation) (ram bus : String) (log : List (Nat × Word))
    (command : Command) : List (Nat × Word) :=
  if command = .reset true then []
  else if simulation.clocks command then (simulation.write? ram bus).toList ++ log
  else log

/-- The writes of a run, the latest first, after those of `log`. -/
def writes (ram bus : String) : Simulation → List (Nat × Word) → List Command → List (Nat × Word)
  | _, log, [] => log
  | simulation, log, command :: commands =>
    writes ram bus (simulation.obey command) (simulation.logged ram bus log command) commands

/-- At every clock edge that finds the write line of the memory not zero, just one driver of
the bus is enabled. -/
def Exclusive (ram bus : String) : Simulation → List Command → Prop
  | _, [] => True
  | simulation, command :: commands =>
    (simulation.clocks command = true → simulation.peekPort (ram ++ ".we") ≠ .ok 0 →
      simulation.enabledDrivers bus = .ok 1) ∧
    Exclusive ram bus (simulation.obey command) commands

instance decidableExclusive (ram bus : String) : ∀ simulation commands,
    Decidable (Exclusive ram bus simulation commands)
  | _, [] => .isTrue trivial
  | simulation, command :: commands =>
    have := decidableExclusive ram bus (simulation.obey command) commands
    inferInstanceAs (Decidable ((_ → _ → _) ∧ _))

/-- Nothing has been done since the last settle. -/
def EndsSettled (first : Simulation) (commands : List Command) : Prop :=
  ∀ command ∈ commands.getLast?, (commands.dropLast.foldl obey first).settles command = true

instance (first : Simulation) (commands : List Command) :
    Decidable (first.EndsSettled commands) :=
  inferInstanceAs (Decidable (∀ command ∈ commands.getLast?, _))

end Simulation

/-! ## The cells -/

/-- Each cell holds what was written into it last, or zero. -/
def Recalls (log : List (Nat × Word)) (cells : Array Word) : Prop :=
  ∀ addr < cells.size, cells[addr]? = some ((log.lookup addr).getD 0)

theorem recalls_replicate (size : Nat) : Recalls [] (Array.replicate size 0) := by
  intro addr haddr
  rw [Array.size_replicate] at haddr
  simp [haddr]

theorem Recalls.write {log : List (Nat × Word)} {cells : Array Word} (h : Recalls log cells)
    (addr : Nat) (value : Word) :
    Recalls ((addr, value) :: log) (cells.setIfInBounds addr value) := by
  intro other hother
  rw [Array.size_setIfInBounds] at hother
  rw [Array.getElem?_setIfInBounds, List.lookup_cons]
  by_cases heq : addr = other
  · subst heq
    simp [hother]
  · have hne : (other == addr) = false := beq_false_of_ne (Ne.symm heq)
    rw [if_neg heq, hne, h other hother]

/-! ## The memory and its bus -/

namespace Netlist

/-- A memory at the path `ram` reads and drives the tri-state net at the path `bus`, which
is as wide as its cells. Its address comes on a line. -/
structure MemoryBus (netlist : Netlist) (ram bus : String) (args : Json) (part index : Nat)
    (others : List PortRef) : Prop where
  found : netlist.partAt? ⟨ram⟩ = some part
  made : ∃ placed, netlist.parts[part]? = some placed ∧
    placed.MadeOf (Builtin.ram.assemble args)
  small : args.width "addrWidth" 4 ≤ Device.maxAddrWidth
  addressed : ∃ line, netlist.Line line (args.width "addrWidth" 4) ∧
    netlist.HasTarget line ⟨part, 0⟩
  listed : netlist.netAt? ⟨bus⟩ = some index
  shared : ∃ net, netlist.nets[index]? = some net ∧ net.tristate = true ∧
    net.width = args.width "width" 1 ∧ ⟨part, 1⟩ ∈ net.targets ∧
    net.sources.Perm (⟨part, 1⟩ :: others)

/-- What has been written is found in the memory, and its pins show what they did when the
circuit settled last. -/
structure Faithful (args : Json) (part index : Nat) (log : List (Nat × Word)) (state : State) :
    Prop where
  addr : (state.pin ⟨part, 0⟩).value.toNat < span (args.width "addrWidth" 4)
  data : (state.net index).enabledCount = 1 →
    trim (args.width "width" 1) (state.pin ⟨part, 1⟩).value = (state.net index).value
  recalls : ∃ cells, (state.part part).memory = .ram cells ∧ Recalls log cells

end Netlist

section

variable {netlist : Netlist} {ram bus : String} {args : Json} {part index : Nat}
  {others : List PortRef} {log : List (Nat × Word)} {before after state : State}
  {simulation : Simulation} {placed : Part} {cells : Array Word}

theorem Device.cellOf_of_lt {addr : Word} (haddr : addr.toNat < cells.size) :
    cellOf cells addr = addr.toNat :=
  Nat.mod_eq_of_lt haddr

/-- Where pins and nets stay, only the cells may change. -/
theorem Netlist.Faithful.congr (h : Faithful args part index log before)
    (hpin : ∀ ref, after.pin ref = before.pin ref) (hnets : after.nets = before.nets)
    {more : List (Nat × Word)}
    (hrecalls : ∃ cells, (after.part part).memory = .ram cells ∧ Recalls more cells) :
    Faithful args part index more after := by
  refine ⟨?_, ?_, hrecalls⟩
  · rw [hpin]
    exact h.addr
  · rw [hpin, State.net, hnets]
    exact h.data

namespace Netlist.MemoryBus

variable (h : netlist.MemoryBus ram bus args part index others)

include h

/-- After a settle the memory sees an address that it has. -/
theorem addr_lt (hsettled : netlist.Settled before after) :
    (after.pin ⟨part, 0⟩).value.toNat < span (args.width "addrWidth" 4) := by
  obtain ⟨line, hline, htarget⟩ := h.addressed
  rw [(hsettled.value_target hline htarget).1, ← hsettled.trim_line hline]
  exact toNat_trim_lt _ _

theorem exists_cells (hstored : State.Stored netlist state) :
    ∃ cells, (state.part part).memory = .ram cells := by
  obtain ⟨placed, hpart, hmade⟩ := h.made
  have hproper := hstored part placed hpart (by rw [hmade.device]; rfl)
  rw [hmade.device] at hproper
  cases hmemory : (state.part part).memory with
  | ram cells => exact ⟨cells, rfl⟩
  | _ =>
    rw [hmemory] at hproper
    cases hproper

/-- There is a cell for each address, and all cells fit the bus. -/
theorem fits_cells (hstored : State.Stored netlist state)
    (hmemory : (state.part part).memory = .ram cells) :
    cells.size = span (args.width "addrWidth" 4) ∧
      ∀ cell ∈ cells, trim (args.width "width" 1) cell = cell := by
  obtain ⟨placed, hpart, hmade⟩ := h.made
  have hproper := hstored part placed hpart (by rw [hmade.device]; rfl)
  rw [hmade.device, hmemory] at hproper
  refine ⟨hproper.1.trans ?_, hproper.2⟩
  rw [span, Nat.min_eq_left h.small, Nat.min_eq_left (h.small.trans (by decide))]

/-- What a settle leaves on the pins of the memory. -/
theorem faithful_of_settled (hsettled : netlist.Settled before after)
    (hrecalls : ∃ cells, (after.part part).memory = .ram cells ∧ Recalls log cells) :
    Faithful args part index log after where
  addr := h.addr_lt hsettled
  data hone := by
    obtain ⟨net, hnet, htristate, hwidth, htarget, -⟩ := h.shared
    rw [hsettled.count hnet htristate] at hone
    obtain ⟨source, hsource⟩ := List.length_eq_one_iff.mp hone
    obtain ⟨hvalue, htargets⟩ := hsettled.driven hnet htristate hsource
    rw [hvalue, (htargets _ htarget).1, ← hwidth, trim_trim]
  recalls := hrecalls

/-- The ports of the memory can be read by their paths. -/
theorem peekPort_eq (hsame : simulation.netlist = netlist) (port : String) {text : String}
    {position : Nat}
    (htext : text.toList = ram.toList ++ '.' :: port.toList) (hfree : '.' ∉ port.toList)
    (hposition : (Builtin.ram.ports args).findIdx? (·.id = port) = some position) :
    simulation.peekPort text = .ok (simulation.state.pin ⟨part, position⟩).value := by
  have hhouses : netlist.Houses ⟨ram, Builtin.ram.id, args⟩ .ram part := ⟨h.found, h.made⟩
  exact hhouses.peekPort_eq hsame htext hfree hposition

theorem peek_eq (hsame : simulation.netlist = netlist) :
    simulation.peek bus = .ok (simulation.state.net index).value := by
  rw [Simulation.peek, Simulation.netAt, hsame, h.listed]
  rfl

theorem enabledDrivers_eq (hsame : simulation.netlist = netlist) :
    simulation.enabledDrivers bus = .ok (simulation.state.net index).enabledCount := by
  rw [Simulation.enabledDrivers, Simulation.netAt, hsame, h.listed]
  rfl

theorem peekPort_we (hsame : simulation.netlist = netlist) :
    simulation.peekPort (ram ++ ".we") = .ok (simulation.state.pin ⟨part, 2⟩).value :=
  h.peekPort_eq hsame "we" (String.toList_append ..) (by decide) rfl

theorem write?_eq (hsame : simulation.netlist = netlist) : simulation.write? ram bus =
    if (simulation.state.pin ⟨part, 2⟩).value = 0 then none
    else some ((simulation.state.pin ⟨part, 0⟩).value.toNat,
      (simulation.state.net index).value) := by
  have haddr : simulation.peekPort (ram ++ ".addr") = _ :=
    h.peekPort_eq hsame "addr" (String.toList_append ..) (by decide) rfl
  rw [Simulation.write?, h.peekPort_we hsame, haddr, h.peek_eq hsame]
  rfl

theorem readRam_eq (hsame : simulation.netlist = netlist)
    (hmemory : (simulation.state.part part).memory = .ram cells) (addr : Nat) :
    simulation.readRam ram addr = .ok cells[addr]? := by
  simp only [Simulation.readRam, Simulation.ramCells, Simulation.partOf, Simulation.partAt, hsame,
    h.found, Bind.bind, Except.bind, hmemory]
  rfl

/-- A memory that is asked to read, and not to write, puts the cell that it is asked for on
the bus if nothing else drives it. -/
theorem reads (hsettled : netlist.Settled before after) (hwired : netlist.Wired)
    (hsound : State.Sound netlist after) (hstored : State.Stored netlist after)
    (hwrite : (after.pin ⟨part, 2⟩).value = 0)
    (hread : (after.pin ⟨part, 3⟩).value ≠ 0)
    (hsilent : ∀ ref ∈ others, Net.isDriving netlist after ref = false)
    (hmemory : (after.part part).memory = .ram cells) :
    (after.net index).enabledCount = 1 ∧
      cells[(after.pin ⟨part, 0⟩).value.toNat]? = some (after.net index).value := by
  obtain ⟨placed, hpart, hmade⟩ := h.made
  obtain ⟨net, hnet, htristate, hwidth, -, hsources⟩ := h.shared
  obtain ⟨port, hport, hdecl⟩ := exists_port_of_madeOf hpart hmade 1 rfl
  have hdone := hsettled.edit_last hwired hsound ⟨part, 1⟩ hpart hport
  rw [hmade.device] at hdone
  rw [State.pin] at hwrite hread
  simp only [Builtin.assemble, Device.effect, hmemory, Device.last, if_true, Effect.edit_put,
    hwrite, hread, ne_eq, not_true, not_false_eq_true, and_self, Edit.apply] at hdone
  have hdriving : Net.isDriving netlist after ⟨part, 1⟩ = true := by
    have htype : port.type = .dataBus := congrArg PortDecl.type hdecl
    rw [Net.isDriving, hport, Option.getD_some, htype, ← hdone]
    exact Pin.drives_drive .dataBus (some _) _
  have honly : net.driving netlist after = [⟨part, 1⟩] := by
    refine List.perm_singleton.mp ((hsources.filter _).trans (.of_eq ?_))
    rw [List.filter_cons_of_pos hdriving, List.filter_eq_nil_iff.mpr fun ref href => by
      rw [hsilent ref href]
      exact Bool.false_ne_true]
  refine ⟨?_, ?_⟩
  · rw [hsettled.count hnet htristate, honly]
    rfl
  · obtain ⟨hsize, hfits⟩ := h.fits_cells hstored hmemory
    have hlt := hsize ▸ h.addr_lt hsettled
    have hcell : cells.getD (after.pin ⟨part, 0⟩).value.toNat 0 =
        cells[(after.pin ⟨part, 0⟩).value.toNat] := by
      simp [Array.getD, hlt]
    have hshown : (after.pin ⟨part, 1⟩).value = cells[(after.pin ⟨part, 0⟩).value.toNat] := by
      rw [← hdone, ← hcell, ← Device.cellOf_of_lt hlt]
      rfl
    rw [(hsettled.driven hnet htristate honly).1, hwidth, hshown, hfits _ (Array.getElem_mem hlt),
      Array.getElem?_eq_getElem hlt]

end Netlist.MemoryBus

/-! ## Commands -/

namespace Simulation

/-- Setting an input moves no pin and no net, and changes nothing that others store. -/
theorem Coherent.unmoved_set (h : simulation.Coherent) (path : String) (word : Word) :
    (∀ ref, (simulation.obey (.set path word)).state.pin ref = simulation.state.pin ref) ∧
      (simulation.obey (.set path word)).state.nets = simulation.state.nets ∧
      ∀ {index : Nat} {placed : Part}, simulation.netlist.parts[index]? = some placed →
        (∀ width initial, placed.device ≠ .input width initial) →
        ((simulation.obey (.set path word)).state.part index).memory =
          (simulation.state.part index).memory := by
  rw [h.obey_set]
  split
  · exact ⟨fun _ => rfl, rfl, fun _ _ => rfl⟩
  · next input _ =>
    split
    · next width initial hdevice =>
      obtain ⟨owner, howner, hinput⟩ := exists_part_of_device hdevice Device.noConfusion
      refine ⟨(State.sound_setMemory h.sound fun placed hplaced => ?_).2, rfl,
        fun {index placed} hpart hother => ?_⟩
      · obtain rfl := Option.some.inj (howner.symm.trans hplaced)
        rw [hinput]
        trivial
      · refine (memory_setMemory h howner _ index).trans (if_neg ?_)
        rintro rfl
        obtain rfl := Option.some.inj (howner.symm.trans hpart)
        exact hother width initial hinput
    · exact ⟨fun _ => rfl, rfl, fun _ _ => rfl⟩

/-- What a reset settles can be settled. -/
theorem Coherent.cleared (h : simulation.Coherent) (hard : Bool) :
    Simulation.Coherent { simulation with
      state := simulation.state.cleared simulation.netlist hard } :=
  ⟨h.flat, h.schedule, (State.sound_reset h.sound hard).1, (State.sound_reset h.sound hard).2⟩

/-- The clock edge does not halt a circuit, so that a cycle goes on to settle. -/
theorem Coherent.step_eq (h : simulation.Coherent) : simulation.step =
    if simulation.isHalted then simulation else simulation.latch.settle := by
  have hstatus : simulation.latch.isHalted = simulation.isHalted := by
    rw [isHalted, h.state_latch, (latched_latched h.flat h.sound).status]
    rfl
  unfold Simulation.step
  dsimp only
  rw [hstatus]
  split
  · rfl
  · rfl

variable {library : Library} {schematic : Schematic} {first : Simulation}

theorem Occurs.obey (h : simulation.Occurs library schematic) (command : Command) :
    (simulation.obey command).Occurs library schematic := by
  cases command with
  | set path value =>
    rw [Simulation.obey]
    cases hnext : simulation.setInput path value with
    | error _ => exact h
    | ok next => exact h.setInput hnext
  | settle => exact h.settle
  | latch => exact h.latch
  | step => exact h.step
  | reset hard => exact h.reset hard

theorem Occurs.foldl_obey (h : simulation.Occurs library schematic) (commands : List Command) :
    (commands.foldl Simulation.obey simulation).Occurs library schematic :=
  List.foldlRecOn (motive := fun simulation : Simulation =>
    simulation.Occurs library schematic) commands _ h
    fun _ hoccurs command _ => hoccurs.obey command

end Simulation

namespace Netlist.MemoryBus

variable (h : netlist.MemoryBus ram bus args part index others)
  (hcoherent : simulation.Coherent) (hsame : simulation.netlist = netlist)

include h hcoherent hsame

theorem faithful_settle (hstatic : netlist.Static)
    (hrecalls : ∃ cells, (simulation.state.part part).memory = .ram cells ∧ Recalls log cells) :
    Faithful args part index log simulation.settle.state := by
  obtain ⟨placed, hpart, hmade⟩ := h.made
  obtain ⟨cells, hmemory, hrecalls⟩ := hrecalls
  have hstores : placed.device.stores = true := by
    rw [hmade.device]
    rfl
  have hsettled := hcoherent.settled (hsame ▸ hstatic)
  rw [hsame] at hsettled
  exact h.faithful_of_settled hsettled
    ⟨cells, (hcoherent.memory_settle (hsame ▸ hpart) hstores).trans hmemory, hrecalls⟩

theorem faithful_set (hfaithful : Faithful args part index log simulation.state) (path : String)
    (word : Word) :
    Faithful args part index log (simulation.obey (.set path word)).state := by
  obtain ⟨placed, hpart, hmade⟩ := h.made
  obtain ⟨cells, hmemory, hrecalls⟩ := hfaithful.recalls
  obtain ⟨hpin, hnets, hstay⟩ := hcoherent.unmoved_set path word
  refine hfaithful.congr hpin hnets ⟨cells, (hstay (hsame ▸ hpart) ?_).trans hmemory, hrecalls⟩
  intro width initial hdevice
  cases hmade.device.symm.trans hdevice

/-- The clock edge writes what the bus shows, provided that one driver is enabled. -/
theorem faithful_latch (hstored : State.Stored netlist simulation.state)
    (hfaithful : Faithful args part index log simulation.state)
    (hone : (simulation.state.pin ⟨part, 2⟩).value ≠ 0 →
      (simulation.state.net index).enabledCount = 1) :
    Faithful args part index ((simulation.write? ram bus).toList ++ log)
      simulation.latch.state := by
  obtain ⟨placed, hpart, hmade⟩ := h.made
  obtain ⟨cells, hmemory, hrecalls⟩ := hfaithful.recalls
  have hflat := hcoherent.flat
  have hsound := hcoherent.sound
  have hlatched := latched_latched hflat hsound
  have hphase : placed.phases[1]? = some { reads := [0, 1, 2], latch := true } := by
    rw [hmade.phases]
    rfl
  have hedge := memory_latched hflat hsound (hsame ▸ hpart)
  rw [(hflat.built placed (List.mem_of_getElem? (hsame ▸ hpart))).clocked_of_latch hphase rfl,
    hmade.device] at hedge
  rw [hcoherent.state_latch, h.write?_eq hsame]
  refine hfaithful.congr hlatched.pin hlatched.nets ?_
  by_cases hzero : (simulation.state.pin ⟨part, 2⟩).value = 0
  · rw [if_pos hzero]
    rw [State.pin] at hzero
    refine ⟨cells, hedge.trans ?_, hrecalls⟩
    simp [Builtin.assemble, Device.effect, hmemory, hzero]
  · have hcell := Device.cellOf_of_lt ((h.fits_cells hstored hmemory).1 ▸ hfaithful.addr)
    rw [if_neg hzero, ← hfaithful.data (hone hzero)]
    refine ⟨_, hedge.trans ?_, hrecalls.write _ _⟩
    rw [State.pin] at hzero
    rw [← hcell]
    simp [Builtin.assemble, Device.effect, hmemory, hzero, State.pin]

theorem faithful_reset (hstatic : netlist.Static)
    (hfaithful : Faithful args part index log simulation.state) (hard : Bool) :
    Faithful args part index (if hard then [] else log) (simulation.reset hard).state := by
  obtain ⟨placed, hpart, hmade⟩ := h.made
  obtain ⟨cells, hmemory, hrecalls⟩ := hfaithful.recalls
  have hcleared := State.part_cleared hcoherent.sound hard (hsame ▸ hpart)
  refine h.faithful_settle (hcoherent.cleared hard) hsame hstatic
    ⟨if hard then .replicate cells.size 0 else cells, ?_, ?_⟩
  · refine (congrArg PartState.memory hcleared).trans ?_
    rw [hmade.device, hmemory]
    rfl
  · cases hard with
    | false => exact hrecalls
    | true => exact recalls_replicate _

end Netlist.MemoryBus

/-! ## Runs -/

namespace Simulation

variable {library : Library} {schematic : Schematic} {first : Simulation}

/-- What a run leaves behind that ends with a settle has been settled. -/
theorem exists_settled (hstatic : (flatten library schematic).Static) (hnative : library.Native)
    (hstart : start library schematic = .ok first) {commands : List Command}
    (hends : first.EndsSettled commands) : ∃ before, (flatten library schematic).Settled before
      (commands.foldl obey first).state := by
  have hsettled : ∀ {ready : Simulation}, ready.Coherent →
      ready.netlist = flatten library schematic →
      ∃ before, (flatten library schematic).Settled before ready.settle.state :=
    fun {ready} hcoherent hsame => ⟨_, hsame ▸ hcoherent.settled (hsame ▸ hstatic)⟩
  rcases List.eq_nil_or_concat commands with rfl | ⟨commands, command, rfl⟩
  · obtain ⟨before, hbefore, rfl⟩ := exists_pristine_start hstart
    exact hsettled (hbefore.coherent hnative) hbefore.netlist
  · rw [List.concat_eq_append] at hends ⊢
    have hoccurs := (Occurs.start hstart).foldl_obey commands
    have hcoherent := hoccurs.coherent hnative
    have hsame := hoccurs.stocked.netlist
    have hlast := hends command (by simp)
    rw [List.dropLast_concat] at hlast
    rw [List.foldl_concat]
    generalize commands.foldl obey first = simulation at hoccurs hcoherent hsame hlast ⊢
    cases command with
    | set path word => cases hlast
    | latch => cases hlast
    | settle => exact hsettled hcoherent hsame
    | step =>
      rw [settles, Bool.not_eq_true'] at hlast
      rw [obey, hcoherent.step_eq, hlast]
      exact hsettled hcoherent.latch hsame
    | reset hard =>
      exact hsettled (hcoherent.cleared hard) hsame

section

variable (hbus : (flatten library schematic).MemoryBus ram bus args part index others)
  (hstatic : (flatten library schematic).Static) (hnative : library.Native)

include hbus hstatic hnative

theorem Occurs.faithful_obey (h : simulation.Occurs library schematic)
    (hfaithful : Faithful args part index log simulation.state) (command : Command)
    (hone : simulation.clocks command = true → simulation.peekPort (ram ++ ".we") ≠ .ok 0 →
      simulation.enabledDrivers bus = .ok 1) :
    Faithful args part index (simulation.logged ram bus log command)
      (simulation.obey command).state := by
  have hcoherent := h.coherent hnative
  have hstocked := h.stocked
  have hsame := hstocked.netlist
  have hlatch : simulation.clocks command = true → Faithful args part index
      ((simulation.write? ram bus).toList ++ log) simulation.latch.state := fun hclocks => by
    refine hbus.faithful_latch hcoherent hsame (hsame ▸ hstocked.stored) hfaithful fun hwrite => ?_
    have hcount := hone hclocks fun hline => hwrite ?_
    · rw [hbus.enabledDrivers_eq hsame] at hcount
      exact Except.ok.inj hcount
    · rw [hbus.peekPort_we hsame] at hline
      exact Except.ok.inj hline
  cases command with
  | set path word => exact hbus.faithful_set hcoherent hsame hfaithful path word
  | settle => exact hbus.faithful_settle hcoherent hsame hstatic hfaithful.recalls
  | latch => exact hlatch rfl
  | step =>
    rw [Simulation.obey, hcoherent.step_eq]
    cases hhalted : simulation.isHalted with
    | true => simpa [logged, clocks, hhalted] using hfaithful
    | false =>
      have hclocks : simulation.clocks .step = true := by
        rw [clocks, hhalted]
        rfl
      rw [logged, if_neg (by decide), if_pos hclocks]
      exact hbus.faithful_settle hcoherent.latch hsame hstatic (hlatch hclocks).recalls
  | reset hard =>
    have hreset := hbus.faithful_reset hcoherent hsame hstatic hfaithful hard
    cases hard with
    | false => exact hreset
    | true => exact hreset

/-- Along a run in which one driver is enabled whenever a clock edge writes, each cell holds
what was written into it last. -/
theorem Occurs.faithful_run (commands : List Command) (h : simulation.Occurs library schematic)
    (hfaithful : Faithful args part index log simulation.state)
    (hexclusive : simulation.Exclusive ram bus commands) :
    Faithful args part index (simulation.writes ram bus log commands)
      (commands.foldl Simulation.obey simulation).state := by
  induction commands generalizing simulation log with
  | nil => exact hfaithful
  | cons command commands ih =>
    exact ih (h.obey command)
      (h.faithful_obey hbus hstatic hnative hfaithful command hexclusive.1) hexclusive.2

theorem faithful_start (hstart : start library schematic = .ok first) :
    Faithful args part index [] first.state := by
  obtain ⟨placed, hpart, hmade⟩ := hbus.made
  obtain ⟨before, hbefore, rfl⟩ := exists_pristine_start hstart
  refine hbus.faithful_settle (hbefore.coherent hnative) hbefore.netlist hstatic ⟨_, ?_,
    recalls_replicate (1 <<< min (args.width "addrWidth" 4) Device.maxAddrWidth)⟩
  rw [hbefore.new.memory (hbefore.netlist ▸ hpart)]
  show placed.device.fresh = _
  rw [hmade.device]
  rfl

end

end Simulation

/-- After a settle an input holds what its line shows. -/
theorem Netlist.Supply.inputValue_eq {input : Component}
    (h : netlist.Supply input part index) (hsame : simulation.netlist = netlist)
    (hsettled : netlist.Settled before simulation.state) (hwired : netlist.Wired)
    (hsound : State.Sound netlist simulation.state)
    (hstored : State.Stored netlist simulation.state) :
    simulation.inputValue input.id = .ok (simulation.state.net index).value := by
  obtain ⟨placed, hpart, hmade⟩ := h.made
  have hproper := hstored part placed hpart (by rw [hmade.device]; rfl)
  rw [hmade.device] at hproper
  cases hmemory : (simulation.state.part part).memory with
  | input word =>
    rw [hmemory] at hproper
    rw [h.shows hsettled hwired hsound hmemory, show trim _ word = word from hproper]
    simp only [Simulation.inputValue, Simulation.partOf, Simulation.partAt, hsame, h.found,
      Bind.bind, Except.bind, hmemory]
    rfl
  | _ =>
    rw [hmemory] at hproper
    cases hproper

end

/-! ## Lookups in given tables -/

section

variable (netlist : Netlist)

instance (part : Part) (assembly : Assembly) : Decidable (part.MadeOf assembly) :=
  decidable_of_iff (part.ports.map (·.toPortDecl) = assembly.ports ∧
    part.phases = assembly.phases ∧ part.device = assembly.device ∧ part.valid = assembly.valid)
    ⟨fun ⟨hports, hphases, hdevice, hvalid⟩ => ⟨hports, hphases, hdevice, hvalid⟩,
      fun h => ⟨h.ports, h.phases, h.device, h.valid⟩⟩

instance (index width : Nat) : Decidable (netlist.Line index width) :=
  inferInstanceAs (Decidable (∃ net ∈ netlist.nets[index]?, _ ∧ _))

instance (index : Nat) (ref : PortRef) : Decidable (netlist.HasTarget index ref) :=
  inferInstanceAs (Decidable (∃ net ∈ netlist.nets[index]?, _))

instance (input : Component) (part index : Nat) : Decidable (netlist.Supply input part index) :=
  decidable_of_iff (netlist.partAt? ⟨input.id⟩ = some part ∧
    (∃ placed ∈ netlist.parts[part]?, placed.MadeOf (Builtin.input.assemble input.args)) ∧
    ∃ net ∈ netlist.nets[index]?, net.tristate = false ∧
      net.width = input.args.width "width" 1 ∧ net.sources = [⟨part, 0⟩])
    ⟨fun ⟨hfound, hmade, hline⟩ => ⟨hfound, hmade, hline⟩, fun h => ⟨h.found, h.made, h.line⟩⟩

end

/-! ## The canned bus -/

namespace Demo

/-- The circuit `bus` once it is flat. -/
def flatBus : Netlist :=
  flatten library bus

theorem native_library : library.Native :=
  (Library.composed_builtin.addSchematic (by decide) incrementer).native

theorem static_flatBus : flatBus.Static := by
  decide +kernel

/-- The inputs next to the memory and the buffers, each with its part and the line that it
drives. -/
def controls : List (Component × Nat × Nat) :=
  [(component .input "en_x" (bit 1), 2, 2), (component .input "en_y" (bit 0), 3, 3),
    (component .input "addr" (wide 4), 6, 4), (component .input "we" (.obj []), 7, 5),
    (component .input "oe" (.obj []), 8, 6)]

/-- The arguments of the memory. -/
def ramArgs : Json :=
  .obj [("width", .int 8), ("addrWidth", .int 4)]

/-- What flattening makes of the circuit: the memory, the bus, the buffers, the lines with
what they lead to, and the inputs. -/
theorem tables_flatBus :
    flatBus.fault? = none ∧
    (flatBus.partAt? ⟨"ram"⟩ = some 9 ∧
      ∃ placed ∈ flatBus.parts[9]?, placed.MadeOf (Builtin.ram.assemble ramArgs)) ∧
    (flatBus.netAt? ⟨"bus"⟩ = some 7 ∧
      ∃ net ∈ flatBus.nets[7]?, net.tristate = true ∧ net.width = ramArgs.width "width" 1 ∧
        ⟨9, 1⟩ ∈ net.targets ∧ net.sources.Perm [⟨9, 1⟩, ⟨4, 2⟩, ⟨5, 2⟩]) ∧
    (∀ part ∈ [4, 5], ∃ placed ∈ flatBus.parts[part]?,
      placed.MadeOf (Builtin.buffer.assemble (wide 8))) ∧
    (∀ line ∈ [(0, 8), (1, 8), (2, 1), (3, 1), (4, 4), (5, 1), (6, 1)],
      flatBus.Line line.1 line.2) ∧
    (∀ target ∈ [(0, (⟨4, 1⟩ : PortRef)), (1, ⟨5, 1⟩), (2, ⟨4, 0⟩), (3, ⟨5, 0⟩), (4, ⟨9, 0⟩),
      (5, ⟨9, 2⟩), (6, ⟨9, 3⟩)], flatBus.HasTarget target.1 target.2) ∧
    ∀ control ∈ controls, flatBus.Supply control.1 control.2.1 control.2.2 := by
  decide +kernel

theorem memoryBus_flatBus :
    flatBus.MemoryBus "ram" "bus" ramArgs 9 7 [⟨4, 2⟩, ⟨5, 2⟩] := by
  obtain ⟨-, ⟨hfound, hmade⟩, ⟨hlisted, hshared⟩, -, hlines, htargets, -⟩ := tables_flatBus
  exact ⟨hfound, hmade, by decide,
    ⟨4, hlines (4, 4) (by decide), htargets (4, ⟨9, 0⟩) (by decide)⟩, hlisted, hshared⟩

/-- The buffers lead from the lines 0 and 1 to the bus, and are enabled by the lines 2 and
3. -/
theorem outlets_flatBus : flatBus.Outlet 0 2 ⟨4, 2⟩ ∧ flatBus.Outlet 1 3 ⟨5, 2⟩ := by
  obtain ⟨-, -, -, hbuffers, -, htargets, -⟩ := tables_flatBus
  obtain ⟨_, hx, hmadeX⟩ := hbuffers 4 (by decide)
  obtain ⟨_, hy, hmadeY⟩ := hbuffers 5 (by decide)
  exact ⟨.buffer hx hmadeX (htargets (0, ⟨4, 1⟩) (by decide)) (htargets (2, ⟨4, 0⟩) (by decide)),
    .buffer hy hmadeY (htargets (1, ⟨5, 1⟩) (by decide)) (htargets (3, ⟨5, 0⟩) (by decide))⟩

end Demo

namespace Simulation

/-- In every run of the canned bus in which just one driver is enabled at each clock edge
that writes, each cell of the memory holds what the bus showed when it was written last
since the last hard reset. And after any settle that leaves the bus to the memory, the bus
shows the cell at the address. -/
theorem bus_memory_reads_last_write :
    ∃ first, start Demo.library Demo.bus = .ok first ∧ ∀ commands : List Command,
      let reached := commands.foldl obey first
      (first.Exclusive "ram" "bus" commands → ∀ addr < 16, reached.readRam "ram" addr =
        .ok (some (((first.writes "ram" "bus" [] commands).lookup addr).getD 0))) ∧
      (first.EndsSettled commands → reached.inputValue "oe" ≠ .ok 0 →
        reached.inputValue "we" = .ok 0 → reached.inputValue "en_x" = .ok 0 →
        reached.inputValue "en_y" = .ok 0 → reached.enabledDrivers "bus" = .ok 1 ∧
          ∃ addr value, reached.inputValue "addr" = .ok addr ∧
            reached.readRam "ram" addr.toNat = .ok (some value) ∧
            reached.peek "bus" = .ok value) := by
  have hstart : start Demo.library Demo.bus = .ok (ofNetlist Demo.flatBus) :=
    start_eq Demo.tables_flatBus.1
  have hbus := Demo.memoryBus_flatBus
  refine ⟨_, hstart, fun commands => ?_⟩
  intro reached
  have hoccurs : reached.Occurs Demo.library Demo.bus := (Occurs.start hstart).foldl_obey commands
  have hcoherent := hoccurs.coherent Demo.native_library
  have hstocked := hoccurs.stocked
  have hsame : reached.netlist = Demo.flatBus := hstocked.netlist
  have hstored : State.Stored Demo.flatBus reached.state := hsame ▸ hstocked.stored
  have hsound : State.Sound Demo.flatBus reached.state := hsame ▸ hcoherent.sound
  have hwired : Demo.flatBus.Wired := hsame ▸ hcoherent.flat.wired
  refine ⟨fun hexclusive addr haddr => ?_, fun hends hoe hwe hx hy => ?_⟩
  · have hfirst := faithful_start hbus Demo.static_flatBus Demo.native_library hstart
    obtain ⟨cells, hmemory, hrecalls⟩ := ((Occurs.start hstart).faithful_run hbus
      Demo.static_flatBus Demo.native_library commands hfirst hexclusive).recalls
    rw [hbus.readRam_eq hsame hmemory,
      hrecalls addr ((hbus.fits_cells hstored hmemory).1 ▸ haddr)]
  · obtain ⟨before, hsettled⟩ := exists_settled Demo.static_flatBus Demo.native_library hstart hends
    obtain ⟨cells, hmemory⟩ := hbus.exists_cells hstored
    obtain ⟨-, -, -, -, hlines, htargets, hsupplies⟩ := Demo.tables_flatBus
    have hheld : ∀ control ∈ Demo.controls, reached.inputValue control.1.id =
        .ok (reached.state.net control.2.2).value := fun control hcontrol =>
      (hsupplies control hcontrol).inputValue_eq hsame hsettled hwired hsound hstored
    simp only [Demo.controls, Demo.component, List.forall_mem_cons] at hheld
    obtain ⟨hxheld, hyheld, haddr, hweheld, hoeheld, -⟩ := hheld
    have haddrpin := (hsettled.value_target (hlines (4, 4) (by decide))
      (htargets (4, ⟨9, 0⟩) (by decide))).1
    have hwepin := (hsettled.value_target (hlines (5, 1) (by decide))
      (htargets (5, ⟨9, 2⟩) (by decide))).1
    have hoepin := (hsettled.value_target (hlines (6, 1) (by decide))
      (htargets (6, ⟨9, 3⟩) (by decide))).1
    have hsilent : ∀ ref ∈ [(⟨4, 2⟩ : PortRef), ⟨5, 2⟩],
        Net.isDriving Demo.flatBus reached.state ref = false := by
      have houtx := Demo.outlets_flatBus.1.driven hsettled hwired hsound
        (hlines (0, 8) (by decide)) (hlines (2, 1) (by decide))
      have houty := Demo.outlets_flatBus.2.driven hsettled hwired hsound
        (hlines (1, 8) (by decide)) (hlines (3, 1) (by decide))
      refine List.forall_mem_cons.mpr ⟨?_, List.forall_mem_singleton.mpr ?_⟩
      · rw [houtx.driving, Except.ok.inj (hxheld.symm.trans hx)]
        rfl
      · rw [houty.driving, Except.ok.inj (hyheld.symm.trans hy)]
        rfl
    have hwrite := hwepin.trans (Except.ok.inj (hweheld.symm.trans hwe))
    have hread : (reached.state.pin ⟨9, 3⟩).value ≠ 0 := fun hzero =>
      hoe (hoeheld.trans (congrArg _ (hoepin.symm.trans hzero)))
    obtain ⟨hcount, hcell⟩ :=
      hbus.reads hsettled hwired hsound hstored hwrite hread hsilent hmemory
    rw [haddrpin] at hcell
    exact ⟨(hbus.enabledDrivers_eq hsame).trans (congrArg _ hcount), _, _, haddr,
      (hbus.readRam_eq hsame hmemory _).trans (congrArg _ hcell), hbus.peek_eq hsame⟩

/-- `x` goes to cell 3 and `y` to cell 4. Then the bus conflicts and floats, and the memory
reads cell 3 back. -/
def writesAndReads : List Command :=
  [.set "addr" 3, .set "we" 1, .settle, .latch, .set "addr" 4, .set "en_x" 0, .set "en_y" 1,
    .step, .step, .set "we" 0, .settle, .set "en_x" 1, .step, .set "en_x" 0, .set "en_y" 0,
    .settle, .latch, .set "addr" 3, .set "oe" 1, .reset false]

theorem bus_memory_reads_last_write_twice :
    ∃ first, start Demo.library Demo.bus = .ok first ∧
      first.Exclusive "ram" "bus" writesAndReads ∧ first.EndsSettled writesAndReads ∧
      (writesAndReads.foldl obey first).readRam "ram" 3 = .ok (some 5) ∧
      (writesAndReads.foldl obey first).readRam "ram" 4 = .ok (some 9) ∧
      (writesAndReads.foldl obey first).enabledDrivers "bus" = .ok 1 ∧
      (writesAndReads.foldl obey first).peek "bus" = .ok 5 := by
  obtain ⟨first, hstart, hrun⟩ := bus_memory_reads_last_write
  obtain rfl : ofNetlist Demo.flatBus = first :=
    Except.ok.inj ((start_eq Demo.tables_flatBus.1).symm.trans hstart)
  obtain ⟨hwrites, hreads⟩ := hrun writesAndReads
  obtain ⟨hexclusive, hends, hlog, hoe, hwe, hx, hy, haddr⟩ :
      (ofNetlist Demo.flatBus).Exclusive "ram" "bus" writesAndReads ∧
      (ofNetlist Demo.flatBus).EndsSettled writesAndReads ∧
      (ofNetlist Demo.flatBus).writes "ram" "bus" [] writesAndReads = [(4, 9), (3, 5), (3, 5)] ∧
      (writesAndReads.foldl obey (ofNetlist Demo.flatBus)).inputValue "oe" = .ok 1 ∧
      (writesAndReads.foldl obey (ofNetlist Demo.flatBus)).inputValue "we" = .ok 0 ∧
      (writesAndReads.foldl obey (ofNetlist Demo.flatBus)).inputValue "en_x" = .ok 0 ∧
      (writesAndReads.foldl obey (ofNetlist Demo.flatBus)).inputValue "en_y" = .ok 0 ∧
      (writesAndReads.foldl obey (ofNetlist Demo.flatBus)).inputValue "addr" = .ok 3 := by
    decide +kernel
  have hcells := hwrites hexclusive
  rw [hlog] at hcells
  have hthree := hcells 3 (by decide)
  obtain ⟨hcount, addr, value, haddr', hcell, hshown⟩ := hreads hends
    (by rw [hoe]; decide) hwe hx hy
  obtain rfl : 3 = addr := Except.ok.inj (haddr.symm.trans haddr')
  obtain rfl : 5 = value := Option.some.inj (Except.ok.inj (hthree.symm.trans hcell))
  exact ⟨_, hstart, hexclusive, hends, hthree, hcells 4 (by decide), hcount, hshown⟩

end Simulation

end Breadboard
