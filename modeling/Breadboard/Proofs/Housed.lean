import Breadboard.Proofs.Outlets
import Breadboard.Proofs.PortTexts

/-!
# Built-in components in a circuit

A component that is found by its id has a part that is built as its definition says
(`Netlist.Houses`), and so its ports have pins that are found by the ids of both
(`Netlist.pinAt?`). In a settled circuit the words at these pins (`Netlist.wordAt`) are
what the component makes of the words at its inputs and of what it remembers.
-/

namespace Breadboard

/-- The part of a built-in component, which is found by its id. -/
structure Netlist.Houses (netlist : Netlist) (component : Component) (builtin : Builtin)
    (index : Nat) : Prop where
  found : netlist.partAt? ⟨component.id⟩ = some index
  made : ∃ part, netlist.parts[index]? = some part ∧
    part.MadeOf (builtin.assemble component.args)

/-- The pin that the end of a wire names. -/
def Netlist.pinAt? (netlist : Netlist) (endpoint : Endpoint) : Option PortRef :=
  (netlist.partAt? ⟨endpoint.component⟩).bind fun part =>
    (netlist.position? part endpoint.port).map (⟨part, ·⟩)

/-- The word at the pin that the end of a wire names, or zero. -/
def Netlist.wordAt (netlist : Netlist) (state : State) (endpoint : Endpoint) : Word :=
  ((netlist.pinAt? endpoint).map fun ref => (state.pin ref).value).getD 0

/-- The sum of what an adder sees. -/
def Netlist.addends (netlist : Netlist) (state : State) (adder : Component) : Nat :=
  (netlist.wordAt state ⟨adder.id, "a"⟩).toNat + (netlist.wordAt state ⟨adder.id, "b"⟩).toNat +
    if adder.args.flag "carryIn" false then
      (netlist.wordAt state ⟨adder.id, "cin"⟩).toNat % 2
    else 0

variable {netlist : Netlist} {component : Component} {builtin : Builtin} {index position : Nat}
  {before after state : State} {port : String} {decl : PortDecl} {word : Word} {ref : PortRef}
  {simulation : Simulation}

theorem Netlist.wordAt_eq {endpoint : Endpoint} (h : netlist.pinAt? endpoint = some ref)
    (state : State) : netlist.wordAt state endpoint = (state.pin ref).value := by
  rw [wordAt, h]
  rfl

namespace Netlist.Houses

variable (h : netlist.Houses component builtin index)

include h

theorem pinAt?_eq
    (hfound : (builtin.assemble component.args).ports.findIdx? (·.id = port) = some position) :
    netlist.pinAt? ⟨component.id, port⟩ = some ⟨index, position⟩ := by
  obtain ⟨part, hpart, hmade⟩ := h.made
  rw [pinAt?, h.found, Option.bind_some, position?_of_madeOf hpart hmade]
  exact congrArg (Option.map _) hfound

theorem wordAt_port (port : String) (position : Nat)
    (hfound : (builtin.assemble component.args).ports.findIdx? (·.id = port) = some position)
    (state : State) :
    netlist.wordAt state ⟨component.id, port⟩ = (state.pin ⟨index, position⟩).value :=
  wordAt_eq (h.pinAt?_eq hfound) state

/-- A port is read by the text made of the id of the component and its own. -/
theorem peekPort_eq (hsame : simulation.netlist = netlist) {text : String}
    (htext : text.toList = component.id.toList ++ '.' :: port.toList) (hfree : '.' ∉ port.toList)
    (hfound : (builtin.assemble component.args).ports.findIdx? (·.id = port) = some position) :
    simulation.peekPort text = .ok (simulation.state.pin ⟨index, position⟩).value := by
  obtain ⟨part, hpart, hmade⟩ := h.made
  refine (Simulation.reads_of_portAt? ?_).2
  rw [Simulation.portAt?, splitLast_eq_some_iff.mpr ⟨htext, hfree⟩, Option.bind_some, hsame]
  dsimp only
  rw [String.ofList_toList, h.found, Option.bind_some, String.ofList_toList,
    position?_of_madeOf hpart hmade]
  exact congrArg (Option.map _) hfound

variable (hsettled : netlist.Settled before after) (hwired : netlist.Wired)
  (hsound : State.Sound netlist after)

include hsettled hwired hsound

/-- A pin shows what the last phase of its part tells it. -/
theorem value_of_told (position : Nat)
    (hdecl : (builtin.assemble component.args).ports[position]? = some decl)
    (htold : ∀ ports, ((builtin.assemble component.args).device.effect ports
      (builtin.assemble component.args).device.last (after.part index)).edit position =
        .set word) : (after.pin ⟨index, position⟩).value = word := by
  obtain ⟨part, hpart, hmade⟩ := h.made
  obtain ⟨found, hport, -⟩ := exists_port_of_madeOf hpart hmade position hdecl
  have hdone := hsettled.edit_last hwired hsound ⟨index, position⟩ hpart hport
  rw [hmade.device, htold] at hdone
  rw [← hdone]
  rfl

end Netlist.Houses

/-! ## What the devices show -/

namespace Netlist.Houses

variable (hsettled : netlist.Settled before after) (hwired : netlist.Wired)
  (hsound : State.Sound netlist after)

include hsettled hwired hsound

theorem input_shows (h : netlist.Houses component .input index)
    (hheld : (after.part index).memory = .input word) :
    netlist.wordAt after ⟨component.id, "out"⟩ = word := by
  rw [h.wordAt_port "out" 0 rfl]
  refine h.value_of_told hsettled hwired hsound 0 rfl fun ports => ?_
  simp [Builtin.assemble, Device.effect, hheld]

theorem constant_shows (h : netlist.Houses component .constant index) :
    netlist.wordAt after ⟨component.id, "out"⟩ =
      trim (component.args.width "width" 1) (component.args.word "value" 0) := by
  rw [h.wordAt_port "out" 0 rfl]
  exact h.value_of_told hsettled hwired hsound 0 rfl fun ports => rfl

theorem register_shows (h : netlist.Houses component .register index)
    (hheld : (after.part index).memory = .register word) :
    netlist.wordAt after ⟨component.id, "q"⟩ = word := by
  rw [h.wordAt_port "q" 2 rfl]
  refine h.value_of_told hsettled hwired hsound 2 rfl fun ports => ?_
  simp [Builtin.assemble, Device.effect, hheld, Device.last]

omit hsettled hwired hsound in
theorem addends_eq (h : netlist.Houses component .adder index) (state : State) :
    netlist.addends state component =
      (state.pin ⟨index, 0⟩).value.toNat + (state.pin ⟨index, 1⟩).value.toNat +
        if component.args.flag "carryIn" false then
          (state.pin ⟨index, 3⟩).value.toNat % 2
        else 0 := by
  have hcarry : component.args.flag "carryIn" false = true →
      netlist.wordAt state ⟨component.id, "cin"⟩ = (state.pin ⟨index, 3⟩).value := fun hin => by
    refine h.wordAt_port "cin" 3 ?_ state
    simp [Builtin.assemble, Builtin.ports, hin, List.findIdx?_cons]
  rw [addends, h.wordAt_port "a" 0 rfl, h.wordAt_port "b" 1 rfl]
  split
  · next hin => rw [hcarry hin]
  · rfl

/-- An adder shows the sum of what it sees, cut to its width. -/
theorem adder_shows (h : netlist.Houses component .adder index) :
    netlist.wordAt after ⟨component.id, "out"⟩ =
      trim (component.args.width "width" 1) (UInt64.ofNat (netlist.addends after component)) := by
  rw [h.wordAt_port "out" 2 rfl, h.addends_eq]
  refine h.value_of_told hsettled hwired hsound 2 rfl fun ports => ?_
  simp only [Builtin.assemble, Device.effect]
  split
  · -- the carry goes to another pin
    rw [Effect.edit_put, if_neg (by split <;> decide)]
    rfl
  · rfl

/-- An adder with a carry shows the next bit of the sum as well. -/
theorem adder_carries (h : netlist.Houses component .adder index)
    (hout : component.args.flag "carryOut" false = true) :
    netlist.wordAt after ⟨component.id, "cout"⟩ =
      UInt64.ofNat (netlist.addends after component >>> component.args.width "width" 1 % 2) := by
  rw [h.addends_eq]
  have hfound : (Builtin.adder.assemble component.args).ports.findIdx? (·.id = "cout") =
      some (if component.args.flag "carryIn" false then 4 else 3) := by
    cases hin : component.args.flag "carryIn" false <;>
      simp [Builtin.assemble, Builtin.ports, hin, hout, List.findIdx?_cons]
  obtain ⟨hlt, -⟩ := List.findIdx?_eq_some_iff_getElem.mp hfound
  rw [h.wordAt_port "cout" _ hfound]
  refine h.value_of_told hsettled hwired hsound _ (List.getElem?_eq_getElem hlt) fun ports => ?_
  simp only [Builtin.assemble, Device.effect, hout, if_true, Effect.edit_put]
  rfl

end Netlist.Houses

end Breadboard
