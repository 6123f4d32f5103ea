import Breadboard.Proofs.Calm
import Breadboard.Proofs.Sheet
import Breadboard.Proofs.Untrapped

/-!
# Circuits on a single sheet in operation

Once a circuit on a sheet has settled, the words at its ports solve the equations of the
drawing: each input of a component shows what its wire leads to it
(`LaidSheet.wordAt_sink`), and each output what the component makes of its inputs
(`Netlist.Houses.adder_shows` and its like). A halt that sees something else than zero
stops the circuit (`LaidSheet.status_settle`). What registers hold is what they saw at the
last clock edge (`LaidSheet.register_latches`), and what the inputs of the circuit hold is
what they were set to last (`Simulation.held_run`).
-/

namespace Breadboard

section

variable {library : Library} {schematic : Schematic} {level : String → Nat} {netlist : Netlist}
  {root : Spot} {component : Component} {builtin : Builtin} {position index width : Nat}
  {decl : PortDecl} {endpoint source sink : Endpoint} {sinks : List Endpoint} {wire : Wire}
  {before after : State} {simulation first : Simulation} {input : Component}

/-! ## The ends of a wire -/

/-- The net of a wire shows what the wire comes from. -/
theorem Netlist.Conducts.value_eq (h : netlist.Conducts source sinks width index)
    (hsettled : netlist.Settled before after) :
    (after.net index).value = trim width (netlist.wordAt after source) := by
  obtain ⟨ref, net, hpin, hnet, hplain, rfl, hsources⟩ := h.line
  rw [(hsettled.plain hnet hplain).1 ref hsources, wordAt_eq hpin]

theorem Netlist.Conducts.wordAt_sink (h : netlist.Conducts source sinks width index)
    (hsettled : netlist.Settled before after) (hsink : sink ∈ sinks) :
    netlist.wordAt after sink = trim width (netlist.wordAt after source) := by
  obtain ⟨_, net, -, hnet, hplain, hwidth, -⟩ := h.line
  obtain ⟨ref, hpin, htarget⟩ := h.targets sink hsink
  rw [← h.value_eq hsettled, wordAt_eq hpin]
  exact (hsettled.value_target ⟨net, hnet, hplain, hwidth⟩ htarget).1

namespace LaidSheet

variable (h : LaidSheet library schematic level netlist root)
  (hsettled : netlist.Settled before after)

include h hsettled

/-- An input shows what its wire comes from, cut to the width of the wire. -/
theorem wordAt_sink (hwire : wire ∈ schematic.wires) (hshape : wire.endpoints = source :: sinks)
    (hdrives : schematic.Drives source width) (hsink : sink ∈ sinks) :
    netlist.wordAt after sink = trim width (netlist.wordAt after source) := by
  obtain ⟨index, hconducts, -⟩ := h.exists_conducts hwire hshape hdrives
  exact hconducts.wordAt_sink hsettled hsink

/-- So does the net that is found by the name of the wire. -/
theorem peek_eq (hsame : simulation.netlist = netlist) (hstate : simulation.state = after)
    (hnames : (schematic.wires.map (·.id)).Nodup) (hwire : wire ∈ schematic.wires)
    (hshape : wire.endpoints = source :: sinks) (hdrives : schematic.Drives source width) :
    simulation.peek wire.id = .ok (trim width (netlist.wordAt after source)) := by
  obtain ⟨index, hconducts, hfound⟩ := h.exists_conducts hwire hshape hdrives
  rw [Simulation.peek, Simulation.netAt, hsame, hfound hnames, hstate,
    ← hconducts.value_eq hsettled]
  rfl

end LaidSheet

/-! ## Registers and halts -/

theorem Builtin.eq_halt {args : Json} {reason : String}
    (h : (builtin.assemble args).device = .halt reason) : builtin = .halt := by
  cases builtin with
  | halt => rfl
  | _ => cases h

theorem Netlist.Houses.stop_eq (h : netlist.Houses component .halt index) (state : State)
    (position : Nat) : (state.effect netlist index position).stop =
      if netlist.wordAt state ⟨component.id, "in"⟩ = 0 then none
      else some (component.args.text "reason" "Halt requested") := by
  rw [h.wordAt_port "in" 0 rfl]
  obtain ⟨part, hpart, hmade⟩ := h.made
  rw [State.effect_eq hpart, hmade.device]
  rfl

namespace LaidSheet

variable (h : LaidSheet library schematic level netlist root)

include h

/-- A register without a wire to its enable input takes over what it sees at every clock
edge. -/
theorem register_latches (hmem : component ∈ schematic.components)
    (hdefinition : component.definition = Builtin.register.id)
    (hhouses : netlist.Houses component .register index)
    (hfree : ∀ wire ∈ schematic.wires, ⟨component.id, "en"⟩ ∉ wire.endpoints)
    {state : State} (hsound : State.Sound netlist state) {word : Word}
    (hheld : (state.part index).memory = .register word) :
    ((netlist.latched state).part index).memory =
      .register (netlist.wordAt state ⟨component.id, "d"⟩) := by
  obtain ⟨part, hpart, hmade⟩ := id hhouses.made
  obtain ⟨port, hport, -⟩ := Netlist.exists_port_of_madeOf hpart hmade 1 rfl
  have hopen := h.unbound hmem hdefinition hhouses rfl hport hfree
  obtain ⟨owner, howner, hplace⟩ := Netlist.part_of_port hport
  obtain rfl := Option.some.inj (howner.symm.trans hpart)
  have hphase : owner.phases[1]? = some { reads := [0, 1], latch := true } := by
    rw [hmade.phases]
    rfl
  have hunbound : (owner.ports.getD 1 default).bound = false := by
    rw [List.getD_eq_getElem?_getD, hplace, Option.getD_some, hopen]
  have hbuilt := h.flat.built owner (List.mem_of_getElem? hpart)
  rw [Netlist.memory_latched h.flat hsound hpart, hbuilt.clocked_of_latch hphase rfl, hmade.device,
    hhouses.wordAt_port "d" 0 rfl]
  simp only [Builtin.assemble, Device.effect, hheld, Nat.one_ne_zero, if_false, hunbound,
    Bool.not_false]
  rfl

/-- A running circuit goes on when it has settled, unless a halt sees something else than
zero. -/
theorem status_settle (hcoherent : simulation.Coherent) (hsame : simulation.netlist = netlist)
    (hrunning : simulation.state.status = .running) :
    (simulation.settle.state.status = .running ∧
      ∀ component ∈ schematic.components, component.definition = Builtin.halt.id →
        netlist.wordAt simulation.settle.state ⟨component.id, "in"⟩ = 0) ∨
    ∃ component ∈ schematic.components, component.definition = Builtin.halt.id ∧
      netlist.wordAt simulation.settle.state ⟨component.id, "in"⟩ ≠ 0 ∧
      simulation.settle.state.status =
        .halted (component.args.text "reason" "Halt requested") := by
  obtain rfl := hsame
  have hwired := hcoherent.flat.wired
  have hagrees := hcoherent.tracked_settle.agrees
  have hword : ∀ endpoint, simulation.netlist.wordAt simulation.settle.state endpoint =
      simulation.netlist.wordAt (simulation.netlist.final simulation.state) endpoint :=
    fun endpoint => congrArg (Option.getD · 0)
      (congrArg (Option.map · _) (funext fun ref => hagrees.value ref))
  simp only [hword, hagrees.status]
  cases hstatus : (simulation.netlist.final simulation.state).status with
  | running =>
    refine Or.inl ⟨rfl, fun component hmem hdefinition => ?_⟩
    obtain ⟨index, hhouses⟩ := h.exists_houses .halt hmem hdefinition
    obtain ⟨part, hpart, hmade⟩ := hhouses.made
    have hphase : simulation.netlist.Ordinary index 0 { reads := [0] } :=
      Netlist.phase_of_part hpart (by rw [hmade.phases]; rfl) rfl
    by_contra hne
    have hhalted := (Netlist.isHalted_final hwired h.static hcoherent.sound).mpr
      (Or.inr ⟨index, 0, _, hphase, by rw [hhouses.stop_eq, if_neg hne]; rfl⟩)
    rw [hstatus] at hhalted
    cases hhalted
  | halted reason =>
    obtain ⟨part, position, phase, hphase, hstop⟩ :=
      Netlist.exists_stop hwired h.static hcoherent.sound hrunning hstatus
    obtain ⟨owner, howner, -⟩ := Netlist.part_of_phase hphase
    obtain ⟨component, hmem, builtin, hdefinition, hhouses, hmade⟩ := h.exists_owner howner
    obtain ⟨other, hdevice⟩ := Device.halt_of_stop
      (Option.isSome_iff_exists.mpr ⟨reason, State.effect_eq howner _ position ▸ hstop⟩)
    obtain rfl := Builtin.eq_halt (hmade.device.symm.trans hdevice)
    rw [hhouses.stop_eq] at hstop
    obtain ⟨hne, hreason⟩ := Option.ite_none_left_eq_some.mp hstop
    exact Or.inr ⟨component, hmem, hdefinition, hne, by rw [Option.some.inj hreason]⟩

end LaidSheet

/-! ## What inputs hold in a run -/

namespace Simulation

/-- The words that are set in a run, and for which inputs. -/
def sets (commands : List Command) : List (String × Word) :=
  commands.filterMap fun
    | .set path word => some (path, word)
    | _ => none

/-- Setting an input is no clock cycle, and neither halts the circuit nor lets it go on. -/
theorem Coherent.clock_set (h : simulation.Coherent) (path : String) (word : Word) :
    (simulation.obey (.set path word)).ticks = simulation.ticks ∧
      (simulation.obey (.set path word)).state.status = simulation.state.status := by
  rw [h.obey_set]
  split
  · exact ⟨rfl, rfl⟩
  · split <;> exact ⟨rfl, rfl⟩

/-- The clock edge leaves inputs alone. -/
theorem Coherent.memory_latch (h : simulation.Coherent)
    (hinput : simulation.netlist.Houses input .input index) :
    (simulation.latch.state.part index).memory = (simulation.state.part index).memory := by
  obtain ⟨placed, hpart, hmade⟩ := hinput.made
  rw [h.state_latch, Netlist.memory_latched h.flat h.sound hpart, Part.clocked_of_no_latch]
  rw [hmade.phases]
  exact List.forall_mem_singleton.mpr rfl

/-- Only setting an input changes what it holds. -/
theorem Coherent.memory_obey (h : simulation.Coherent)
    (hinput : simulation.netlist.Houses input .input index) {sets : List (String × Word)}
    (hheld : (simulation.state.part index).memory = .input (input.held sets)) (command : Command) :
    ((simulation.obey command).state.part index).memory =
      .input (input.held (sets ++ Simulation.sets [command])) := by
  obtain ⟨placed, hpart, hmade⟩ := hinput.made
  have hstores : placed.device.stores = true := by
    rw [hmade.device]
    rfl
  have hlatch := (h.memory_latch hinput).trans hheld
  have hkept : sets ++ Simulation.sets [] = sets := List.append_nil sets
  cases command with
  | set path word =>
    change _ = Memory.input (input.held (sets ++ [(path, word)]))
    rw [h.memory_set hinput, input.held_concat, hheld]
    exact (apply_ite Memory.input _ _ _).symm
  | settle =>
    change _ = Memory.input (input.held (sets ++ Simulation.sets []))
    rw [hkept, obey, h.memory_settle hpart hstores, hheld]
  | latch =>
    change _ = Memory.input (input.held (sets ++ Simulation.sets []))
    rw [hkept, obey, hlatch]
  | step =>
    change _ = Memory.input (input.held (sets ++ Simulation.sets []))
    rw [hkept, obey, h.step_eq]
    split
    · exact hheld
    · rw [h.latch.memory_settle hpart hstores, hlatch]
  | reset hard =>
    change _ = Memory.input (input.held (sets ++ Simulation.sets []))
    have hcleared := congrArg PartState.memory (State.part_cleared h.sound hard hpart)
    rw [hmade.device, hheld] at hcleared
    rw [hkept]
    exact ((h.cleared hard).memory_settle hpart hstores).trans hcleared

/-- Every input holds what it was set to last. -/
theorem held_run (hstart : start library schematic = .ok first) (hnative : library.Native)
    (hinput : (flatten library schematic).Houses input .input index) (commands : List Command) :
    ((commands.foldl obey first).state.part index).memory =
      .input (input.held (sets commands)) := by
  induction commands using List.reverseRecOn with
  | nil =>
    obtain ⟨before, hbefore, rfl⟩ := exists_pristine_start hstart
    obtain ⟨placed, hpart, hmade⟩ := hinput.made
    have hpart' : before.netlist.parts[index]? = some placed := hbefore.netlist ▸ hpart
    rw [List.foldl_nil, (hbefore.coherent hnative).memory_settle hpart' (by rw [hmade.device]; rfl),
      hbefore.new.memory hpart']
    show placed.device.fresh = _
    rw [hmade.device]
    rfl
  | append_singleton commands command ih =>
    have hoccurs := (Occurs.start hstart).foldl_obey commands
    rw [List.foldl_concat, sets, List.filterMap_append]
    exact (hoccurs.coherent hnative).memory_obey (hoccurs.stocked.netlist ▸ hinput) ih command

/-- A run followed by a settle: what the inputs hold has reached all ports. -/
theorem settled_run (h : LaidSheet library schematic level (flatten library schematic) root)
    (hstart : start library schematic = .ok first) (commands : List Command) :
    let settled := (commands.foldl obey first).settle
    settled.netlist = flatten library schematic ∧
      (flatten library schematic).Settled (commands.foldl obey first).state settled.state ∧
      State.Sound (flatten library schematic) settled.state ∧
      ∀ {input : Component}, input ∈ schematic.components →
        input.definition = Builtin.input.id →
        (flatten library schematic).wordAt settled.state ⟨input.id, "out"⟩ =
          input.held (sets commands) := by
  have hnative := h.sheet.furnished.composed.native
  have hoccurs := (Occurs.start hstart).foldl_obey commands
  have hcoherent := hoccurs.coherent hnative
  have hsame := hoccurs.stocked.netlist
  have hsettled := hcoherent.settled (hsame ▸ h.static)
  have hsound := hcoherent.settle.sound
  rw [netlist_settle, hsame] at hsound
  rw [hsame] at hsettled
  refine ⟨(netlist_settle _).trans hsame, hsettled, hsound, fun {input} hmem hdefinition => ?_⟩
  obtain ⟨index, hhouses⟩ := h.exists_houses .input hmem hdefinition
  obtain ⟨placed, hpart, hmade⟩ := id hhouses.made
  refine hhouses.input_shows hsettled h.flat.wired hsound ?_
  rw [hcoherent.memory_settle (hsame ▸ hpart) (by rw [hmade.device]; rfl)]
  exact held_run hstart hnative hhouses commands

end Simulation

end

end Breadboard
