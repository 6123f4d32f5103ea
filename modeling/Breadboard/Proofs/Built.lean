import Breadboard.Definition.Basic
import Breadboard.Library
import Breadboard.Netlist.Flatten
import Breadboard.Proofs.Effect

/-!
# Parts as they are built

What later files need to know about the built-in components is collected in
`Part.Regular`: which phase comes last, that only this one writes, what a phase
looks at, and which edits it may make to a port of which type. It is proved once
for every part that a circuit of built-in components can contain
(`Part.Built.regular`), by going through the components; nothing after this file
depends on how many there are.

A definition that exists only as a schematic builds an inert part. Its ports
face one way only, as those of boundary ports do.
-/

namespace Breadboard

/-- The part has what was assembled, and possibly wires attached. -/
structure Part.MadeOf (part : Part) (assembly : Assembly) : Prop where
  ports : part.ports.map (·.toPortDecl) = assembly.ports
  phases : part.phases = assembly.phases
  device : part.device = assembly.device
  valid : part.valid = assembly.valid

/-- A built-in definition, or one that exists only as a schematic. -/
def Definition.Native (definition : Definition) : Prop :=
  (∃ builtin, definition = .ofBuiltin builtin) ∨
    ∃ id schematic, definition = ⟨id, .outline (Library.boundaryPorts schematic)⟩

def Part.Built (part : Part) : Prop :=
  ∃ definition args assembly, Definition.Native definition ∧
    definition.assemble args = .ok assembly ∧ part.MadeOf assembly

/-- The position of the last ordinary phase. -/
def Device.last : Device → Nat
  | .bridge => 1
  | _ => 0

/-- What a device may remember. The cells of a memory are cut to its width. -/
def Device.Fits : Device → Memory → Prop
  | .input .., .input _ => True
  | .probe, .probe .. => True
  | .register, .register _ => True
  | .ram _ width, .ram cells => ∀ cell ∈ cells, trim width cell = cell
  | .bridge, .bridge .. => True
  | .input .., _ | .probe, _ | .register, _ | .ram .., _ | .bridge, _ => False
  | _, _ => True

/-- The edits that the last phase may make to a port of this type. -/
inductive Edit.Final (type : PortType) : Edit → Prop where
  | keep : Final type .keep
  | ignore : type.output = false → type.tristate = false → Final type .ignore
  | set (value : Word) : type.output = true → type.input = false → type.tristate = false →
      Final type (.set value)
  | drive (value : Option Word) : type.output = true → type.tristate = true →
      Final type (.drive type.bidirectional value)

/-- What a phase needs of what its part remembers: a probe and the first phase of
a bridge write it anew. -/
def Device.recalled : Device → Nat → Memory → Memory
  | .probe, _, _ => .none
  | .bridge, 0, .bridge .. => .bridge false true
  | _, _, memory => memory

/-- The pins that a phase looks at. A bridge copies one of its sides. -/
def Device.looked : Device → Memory → Phase → List Nat
  | .bridge, .bridge _ forward, phase =>
    phase.reads ++ phase.anyOf.filter (· = (bridgeSides forward).1)
  | _, _, phase => phase.reads ++ phase.anyOf

/-- Whether the device ignores the value of a pin that is not resolved. -/
def Device.wary : Device → Bool
  | .inert | .boundary .. => true
  | _ => false

/-- Two part states look the same to a phase of a device. -/
structure PartState.Alike (device : Device) (position : Nat) (phase : Phase)
    (first second : PartState) : Prop where
  memory : device.recalled position first.memory = device.recalled position second.memory
  value : ∀ index ∈ device.looked first.memory phase,
    (device.wary = true → (second.pin index).resolved = true) →
      (first.pin index).value = (second.pin index).value
  resolved : ∀ index ∈ device.looked first.memory phase,
    (first.pin index).resolved = (second.pin index).resolved

namespace Builtin

variable {builtin : Builtin} {args : Json} {position index : Nat} {phase : Phase} {decl : PortDecl}

/-! ## Phases -/

theorem native_assemble (builtin : Builtin) (args : Json) :
    (builtin.assemble args).device.Native := by
  cases builtin <;> trivial

/-- The phases of the built-in components: all have one ordinary phase, which may
be followed by a latch phase, except bridges, which have two. -/
theorem phase_cases (hphase : (builtin.assemble args).phases[position]? = some phase)
    (hlatch : phase.latch = false) :
    position = (builtin.assemble args).device.last ∧
        (builtin.assemble args).phases[(builtin.assemble args).device.last]? = some phase ∨
      builtin = .bridge ∧ position = 0 ∧ phase = { reads := [0, 1] } := by
  cases builtin <;> rcases position with _ | _ | position <;>
    simp_all [assemble, Device.last] <;> subst hphase <;> simp at hlatch

theorem exists_last (builtin : Builtin) (args : Json) :
    ∃ phase, (builtin.assemble args).phases[(builtin.assemble args).device.last]? = some phase ∧
      phase.latch = false := by
  cases builtin <;> simp [assemble, Device.last]
  split <;> rfl

theorem mem_writes
    (hphase : (builtin.assemble args).phases[(builtin.assemble args).device.last]? = some phase)
    (hdecl : (builtin.assemble args).ports[index]? = some decl)
    (houtput : decl.type.output = true) : index ∈ phase.writes := by
  cases builtin with
  | adder =>
    simp only [assemble, Device.last, List.getElem?_cons_zero, Option.some.injEq] at hphase
    subst hphase
    rcases index with _ | _ | _ | _ | _ | index <;>
      cases hin : args.flag "carryIn" false <;> cases hout : args.flag "carryOut" false <;>
      simp_all [assemble, ports, PortType.dataIn] <;> subst hdecl <;> simp at houtput
  | boundary =>
    simp only [assemble, Device.last, List.getElem?_cons_zero, Option.some.injEq] at hphase
    subst hphase
    cases hinput : (Boundary.outerDecl args "").type.input <;>
      rcases index with _ | _ | index <;>
      simp_all [assemble, ports, PortType.flipped] <;> subst hdecl <;>
      simp_all [Boundary.outerDecl]
  | _ =>
    simp only [assemble, Device.last, List.getElem?_cons_zero, List.getElem?_cons_succ,
      Option.some.injEq] at hphase
    subst hphase
    rcases index with _ | _ | _ | _ | index <;>
      simp_all [assemble, ports] <;> subst hdecl <;>
      simp_all [PortType.dataIn, PortType.ctrlIn]

/-- What an ordinary phase reads is an input and nothing else. -/
theorem input_of_reads (hphase : (builtin.assemble args).phases[position]? = some phase)
    (hlatch : phase.latch = false) (hindex : index ∈ phase.reads)
    (hdecl : (builtin.assemble args).ports[index]? = some decl) :
    decl.type.input = true ∧ decl.type.output = false := by
  cases builtin with
  | adder =>
    rcases position with _ | position
    · simp only [assemble, List.getElem?_cons_zero, Option.some.injEq] at hphase
      subst hphase
      cases hin : args.flag "carryIn" false <;>
        rcases index with _ | _ | _ | _ | index <;>
        simp_all [assemble, ports, PortType.dataIn] <;> subst hdecl <;> simp
    · simp [assemble] at hphase
  | boundary =>
    rcases position with _ | position
    · simp only [assemble, List.getElem?_cons_zero, Option.some.injEq] at hphase
      subst hphase
      cases hinput : (Boundary.outerDecl args "").type.input <;>
        rcases index with _ | _ | index <;>
        simp_all [assemble, ports, PortType.flipped] <;> subst hdecl <;>
        simp_all [Boundary.outerDecl]
    · simp [assemble] at hphase
  | _ =>
    rcases position with _ | _ | position <;> simp_all [assemble] <;> subst hphase <;>
      simp_all <;> rcases index with _ | _ | _ | _ | index <;>
      simp_all [ports, PortType.dataIn, PortType.ctrlIn] <;> subst hdecl <;> simp

theorem anyOf_eq_nil (hphase : (builtin.assemble args).phases[position]? = some phase)
    (hbridge : builtin ≠ .bridge) : phase.anyOf = [] := by
  cases builtin <;> rcases position with _ | _ | position <;> simp_all [assemble] <;>
    subst hphase <;> try rfl
  split <;> rfl

/-! ## Effects -/

/-- A bridge looks at one of its sides. -/
theorem effect_bridge_congr {placed : List Port} {first second : PartState}
    (hphase : (assemble .bridge args).phases[position]? = some phase)
    (halike : first.Alike .bridge position phase second) :
    Device.bridge.effect placed position first = Device.bridge.effect placed position second := by
  obtain ⟨firstPins, memory⟩ := first
  obtain ⟨secondPins, other⟩ := second
  obtain ⟨hmemory, hvalue, hresolved⟩ := halike
  rcases position with _ | _ | position
  · obtain rfl : { reads := [0, 1] } = phase := Option.some.inj hphase
    cases memory <;> cases other <;>
      simp_all [Device.recalled, Device.looked, Device.wary, Device.effect]
  · obtain rfl : { writes := [2, 3], anyOf := [2, 3] } = phase := Option.some.inj hphase
    obtain rfl : memory = other := hmemory
    cases memory with
    | bridge enabled forward =>
      cases enabled <;> cases forward <;>
        simp_all [Device.looked, Device.wary, Device.effect, Device.bridgeSides]
    | _ => rfl
  · cases hphase

/-- A boundary port does not look at the value of a pin that is not resolved. -/
theorem effect_boundary_congr {placed : List Port} {first second : PartState}
    (hphase : (assemble .boundary args).phases[position]? = some phase)
    (halike : first.Alike (assemble .boundary args).device position phase second) :
    (assemble .boundary args).device.effect placed position first =
      (assemble .boundary args).device.effect placed position second := by
  obtain ⟨firstPins, memory⟩ := first
  obtain ⟨secondPins, other⟩ := second
  obtain ⟨hmemory, hvalue, hresolved⟩ := halike
  obtain rfl : memory = other := hmemory
  have hlooked : (assemble .boundary args).device.looked memory phase =
      phase.reads ++ phase.anyOf := rfl
  rw [hlooked] at hvalue hresolved
  have hpassed : ∀ inbound value bound, ∀ side ∈ phase.reads ++ phase.anyOf,
      Device.passed inbound value bound (PartState.pin ⟨firstPins, memory⟩ side) =
        Device.passed inbound value bound (PartState.pin ⟨secondPins, memory⟩ side) := by
    intro inbound value bound side hside
    rw [Device.passed, Device.passed, hresolved side hside]
    cases hshown : (PartState.pin ⟨secondPins, memory⟩ side).resolved with
    | false => simp
    | true => rw [hvalue side hside fun _ => hshown]
  rcases position with _ | position
  · cases hinput : (Boundary.outerDecl args "").type.input <;>
      simp only [assemble, hinput, Bool.false_eq_true, if_false, if_true,
        List.getElem?_cons_zero, Option.some.injEq] at hphase <;>
      subst hphase <;> simp [assemble, hinput, Device.effect, hpassed]
  · cases hphase

/-- A phase depends on the pins it reads and on what its part remembers. -/
theorem effect_congr {placed : List Port} {first second : PartState}
    (hphase : (builtin.assemble args).phases[position]? = some phase)
    (halike : first.Alike (builtin.assemble args).device position phase second) :
    (builtin.assemble args).device.effect placed position first =
      (builtin.assemble args).device.effect placed position second := by
  by_cases hbridge : builtin = .bridge
  · subst hbridge
    exact effect_bridge_congr hphase halike
  by_cases hboundary : builtin = .boundary
  · subst hboundary
    exact effect_boundary_congr hphase halike
  obtain ⟨firstPins, memory⟩ := first
  obtain ⟨secondPins, other⟩ := second
  obtain ⟨hmemory, hvalue, hresolved⟩ := halike
  have hlooked : (builtin.assemble args).device.looked memory phase =
      phase.reads ++ phase.anyOf := by
    cases builtin <;> first | rfl | exact absurd rfl hbridge
  simp only [hlooked] at hvalue hresolved
  have hwary : (builtin.assemble args).device.wary = false := by
    cases builtin <;> first | rfl | contradiction
  replace hvalue : ∀ index ∈ phase.reads ++ phase.anyOf,
      (PartState.pin ⟨firstPins, memory⟩ index).value =
        (PartState.pin ⟨secondPins, other⟩ index).value :=
    fun index hindex => hvalue index hindex fun hcautious => by rw [hwary] at hcautious; cases hcautious
  cases builtin with
  | constant =>
    obtain rfl : memory = other := hmemory
    rfl
  | input =>
    obtain rfl : memory = other := hmemory
    cases memory <;> rfl
  | probe =>
    rcases position with _ | position <;> simp_all [assemble]
    subst hphase
    simp_all [Device.effect]
  | mux =>
    obtain rfl : memory = other := hmemory
    rcases position with _ | position <;> simp_all [assemble]
    subst hphase
    have hsel := hvalue 2 (by simp)
    simp only [Device.effect, hsel]
    split <;> simp_all
  | adder =>
    obtain rfl : memory = other := hmemory
    rcases position with _ | position <;> simp_all [assemble]
    subst hphase
    cases hin : args.flag "carryIn" false <;> simp_all [Device.effect]
  | buffer =>
    obtain rfl : memory = other := hmemory
    rcases position with _ | position <;> simp_all [assemble]
    subst hphase
    simp_all [Device.effect]
  | register =>
    obtain rfl : memory = other := hmemory
    cases memory with
    | register value =>
      rcases position with _ | _ | position <;> simp_all [assemble] <;> subst hphase <;>
        simp_all [Device.effect]
    | _ => rfl
  | ram =>
    obtain rfl : memory = other := hmemory
    cases memory with
    | ram cells =>
      rcases position with _ | _ | position <;> simp_all [assemble] <;> subst hphase <;>
        simp_all [Device.effect]
    | _ => rfl
  | bridge => exact absurd rfl hbridge
  | halt =>
    obtain rfl : memory = other := hmemory
    rcases position with _ | position <;> simp_all [assemble]
    subst hphase
    simp_all [Device.effect]
  | boundary => exact absurd rfl hboundary

/-- A phase before the last one only turns pins that can face either way. -/
theorem edit_early {placed : List Port} {held : PartState}
    (hphase : (builtin.assemble args).phases[position]? = some phase)
    (hlatch : phase.latch = false) (hearly : position ≠ (builtin.assemble args).device.last)
    (hdecl : (builtin.assemble args).ports[index]? = some decl) :
    ((builtin.assemble args).device.effect placed position held).edit index = .keep ∨
      decl.type.bidirectional = true ∧
        ∃ facing, ((builtin.assemble args).device.effect placed position held).edit index =
          .face facing := by
  rcases phase_cases hphase hlatch with ⟨hlast, -⟩ | ⟨rfl, rfl, -⟩
  · exact absurd hlast hearly
  obtain ⟨pins, memory⟩ := held
  cases memory with
  | bridge enabled forward =>
    simp only [assemble, Device.effect, if_true]
    have hsides : ∀ side, index = side → side = 2 ∨ side = 3 → decl.type.bidirectional = true := by
      rintro side rfl (rfl | rfl) <;> obtain rfl := Option.some.inj hdecl <;> rfl
    simp only [Effect.edit_put]
    split
    · next htarget =>
      refine Or.inr ⟨hsides _ htarget ?_, _, rfl⟩
      cases decide ((PartState.pin ⟨pins, .bridge enabled forward⟩ 1).value = 0) <;>
        simp [Device.bridgeSides]
    · split
      · next hsource =>
        refine Or.inr ⟨hsides _ hsource ?_, _, rfl⟩
        cases decide ((PartState.pin ⟨pins, .bridge enabled forward⟩ 1).value = 0) <;>
          simp [Device.bridgeSides]
      · exact Or.inl rfl
  | _ => exact Or.inl rfl

theorem final_put {effect : Effect} {type : PortType} {edit : Edit} {target : Nat}
    (hself : index = target → edit.Final type) (hrest : (effect.edit index).Final type) :
    ((effect.put target edit).edit index).Final type := by
  rw [Effect.edit_put]
  split
  · next h => exact hself h
  · exact hrest

/-- An edit of a single pin is to be right for the port at that position. -/
theorem final_only {listed : List PortDecl} {memory : Memory} {edit : Edit} {target : Nat}
    (hdecl : listed[index]? = some decl)
    (h : ∀ decl, listed[target]? = some decl → edit.Final decl.type) :
    (((Effect.idle memory).put target edit).edit index).Final decl.type :=
  final_put (fun hindex => h decl (hindex ▸ hdecl)) .keep

/-- Edits of two pins are to be right for the ports at these positions. -/
theorem final_both {listed : List PortDecl} {memory : Memory} {edit edit' : Edit}
    {target target' : Nat} (hdecl : listed[index]? = some decl)
    (h : ∀ decl, listed[target]? = some decl → edit.Final decl.type)
    (h' : ∀ decl, listed[target']? = some decl → edit'.Final decl.type) :
    ((((Effect.idle memory).put target edit).put target' edit').edit index).Final decl.type :=
  final_put (fun hindex => h' decl (hindex ▸ hdecl)) (final_only hdecl h)

/-- A boundary port drives the side that it does not look at. -/
theorem final_boundary {placed : List Port} {held : PartState}
    (htypes : placed.map (·.toPortDecl) = (assemble .boundary args).ports)
    (hdecl : (assemble .boundary args).ports[index]? = some decl) :
    Edit.Final decl.type
      (((assemble .boundary args).device.effect placed 0 held).edit index) := by
  have htype : ∀ target decl, (assemble .boundary args).ports[target]? = some decl →
      (placed.getD target default).type = decl.type := by
    intro target decl hdecl
    rw [← htypes, List.getElem?_map] at hdecl
    obtain ⟨port, hport, rfl⟩ := Option.map_eq_some_iff.mp hdecl
    rw [List.getD_eq_getElem?_getD, hport]
    rfl
  have htarget : ∀ decl, (assemble .boundary args).ports[
        (if (Boundary.outerDecl args "").type.input then (1, 0) else (0, 1)).2]? = some decl →
      decl.type.output = true ∧ decl.type.input = false ∧
        decl.type.tristate = (Boundary.outerDecl args "").type.tristate := by
    intro decl hdecl
    by_cases hdir : args.text "dir" "in" = "out" <;>
      simp only [Boundary.outerDecl, hdir, ne_eq, not_true_eq_false, not_false_eq_true,
        decide_true, decide_false, Bool.false_eq_true, if_true, if_false] at hdecl <;>
      obtain rfl := Option.some.inj hdecl <;>
      simp [Boundary.outerDecl, PortType.flipped, hdir]
  obtain ⟨pins, memory⟩ := held
  simp only [assemble, Device.effect]
  split
  · next htristate =>
    refine final_only hdecl fun decl hdecl => ?_
    obtain ⟨houtput, -, hsame⟩ := htarget decl hdecl
    rw [htype _ decl hdecl]
    exact .drive _ houtput (hsame.trans htristate)
  · next hplain =>
    split
    · refine final_only hdecl fun decl hdecl => ?_
      obtain ⟨houtput, hinput, hsame⟩ := htarget decl hdecl
      exact .set _ houtput hinput (hsame.trans (by simpa using hplain))
    · exact .keep

/-- The last phase sets or drives what it writes, and may ignore an input. -/
theorem edit_last {placed : List Port} {held : PartState}
    (htypes : placed.map (·.toPortDecl) = (builtin.assemble args).ports)
    (hdecl : (builtin.assemble args).ports[index]? = some decl) :
    Edit.Final decl.type (((builtin.assemble args).device.effect placed
      (builtin.assemble args).device.last held).edit index) := by
  obtain ⟨pins, memory⟩ := held
  cases builtin with
  | constant => exact final_only hdecl (by rintro _ ⟨⟩; exact .set _ rfl rfl rfl)
  | input =>
    cases memory with
    | input value => exact final_only hdecl (by rintro _ ⟨⟩; exact .set _ rfl rfl rfl)
    | _ => exact .keep
  | probe => exact .keep
  | mux =>
    simp only [assemble, Device.effect] at hdecl ⊢
    refine final_both hdecl (fun decl hdecl => ?_) (by rintro _ ⟨⟩; exact .set _ rfl rfl rfl)
    split at hdecl <;> obtain rfl := Option.some.inj hdecl <;> exact .ignore rfl rfl
  | adder =>
    cases hin : args.flag "carryIn" false <;> cases hout : args.flag "carryOut" false <;>
      simp only [assemble, ports, Device.effect, hin, hout, Bool.false_eq_true, if_false, if_true]
        at hdecl ⊢
    case false.false | true.false =>
      exact final_only hdecl (by rintro _ ⟨⟩; exact .set _ rfl rfl rfl)
    case false.true | true.true =>
      exact final_both hdecl (by rintro _ ⟨⟩; exact .set _ rfl rfl rfl)
        (by rintro _ ⟨⟩; exact .set _ rfl rfl rfl)
  | buffer => exact final_only hdecl (by rintro _ ⟨⟩; exact .drive _ rfl rfl)
  | register =>
    cases memory with
    | register value => exact final_only hdecl (by rintro _ ⟨⟩; exact .set _ rfl rfl rfl)
    | _ => exact .keep
  | ram =>
    cases memory with
    | ram cells => exact final_only hdecl (by rintro _ ⟨⟩; exact .drive _ rfl rfl)
    | _ => exact .keep
  | bridge =>
    cases memory with
    | bridge enabled forward =>
      cases forward <;>
        exact final_both hdecl (by rintro _ ⟨⟩; exact .drive _ rfl rfl)
          (by rintro _ ⟨⟩; exact .drive _ rfl rfl)
    | _ => exact .keep
  | halt => exact .keep
  | boundary => exact final_boundary htypes hdecl

theorem trim_zero (width : Nat) : trim width 0 = 0 := by
  simp [trim]

/-- A pin that can face either way is driven or let go of by the last phase. What
a memory drives is cut to its width. -/
theorem edit_bidirectional {placed : List Port} {held : PartState}
    (hfits : (builtin.assemble args).device.Fits held.memory)
    (hdecl : (builtin.assemble args).ports[index]? = some decl)
    (hbidirectional : decl.type.bidirectional = true) :
    ∃ value, ((builtin.assemble args).device.effect placed
      (builtin.assemble args).device.last held).edit index = .drive true value ∧
        ((builtin.assemble args).device ≠ .bridge → ∀ word, value = some word →
          trim decl.width word = word) := by
  obtain ⟨pins, memory⟩ := held
  cases builtin with
  | ram =>
    cases memory with
    | ram cells =>
      rcases index with _ | _ | _ | _ | index
      case succ.zero =>
        obtain rfl := Option.some.inj hdecl
        refine ⟨_, rfl, fun _ word hword => ?_⟩
        obtain rfl := Option.some.inj (Option.ite_none_right_eq_some.mp hword).2
        rw [Array.getD_eq_getD_getElem?]
        cases hcell : cells[Device.cellOf cells (PartState.pin ⟨pins, .ram cells⟩ 0).value]? with
        | none => exact trim_zero _
        | some cell => exact hfits cell (Array.mem_of_getElem? hcell)
      case succ.succ.succ.succ => cases hdecl
      all_goals
        obtain rfl := Option.some.inj hdecl
        cases hbidirectional
    | _ => exact hfits.elim
  | bridge =>
    cases memory with
    | bridge enabled forward =>
      rcases index with _ | _ | _ | _ | index
      case succ.succ.zero | succ.succ.succ.zero =>
        cases forward <;> exact ⟨_, rfl, fun hne => absurd rfl hne⟩
      case succ.succ.succ.succ => cases hdecl
      all_goals
        obtain rfl := Option.some.inj hdecl
        cases hbidirectional
    | _ => exact hfits.elim
  | boundary =>
    rcases index with _ | _ | index
    case succ.succ => cases hdecl
    all_goals
      obtain rfl := Option.some.inj hdecl
      have hnone := Boundary.bidirectional_outerDecl args ""
      simp_all [PortType.bidirectional, PortType.flipped, Bool.and_comm]
  | adder =>
    cases hin : args.flag "carryIn" false <;> cases hout : args.flag "carryOut" false <;>
      rcases index with _ | _ | _ | _ | _ | index <;>
      simp only [assemble, ports, hin, hout] at hdecl <;>
      first
        | cases hdecl
          done
        | obtain rfl := Option.some.inj hdecl
          cases hbidirectional
  | _ =>
    rcases index with _ | _ | _ | _ | index <;>
      first
        | cases hdecl
          done
        | obtain rfl := Option.some.inj hdecl
          cases hbidirectional

/-- While settling only probes and bridges remember anything new. -/
theorem memory_effect {placed : List Port} {held : PartState}
    (hphase : (builtin.assemble args).phases[position]? = some phase)
    (hlatch : phase.latch = false) :
    ((builtin.assemble args).device.effect placed position held).memory = held.memory ∨
      builtin = .probe ∨ builtin = .bridge ∧ position = 0 := by
  obtain ⟨pins, memory⟩ := held
  rcases phase_cases hphase hlatch with ⟨rfl, -⟩ | ⟨rfl, rfl, -⟩
  · cases builtin with
    | probe => exact Or.inr (Or.inl rfl)
    | adder =>
      cases hout : args.flag "carryOut" false <;> simp [assemble, Device.effect, hout]
    | boundary =>
      left
      simp only [assemble, Device.effect]
      split
      · rfl
      · split <;> rfl
    | _ => left; cases memory <;> rfl
  · exact Or.inr (Or.inr ⟨rfl, rfl⟩)

end Builtin

/-- What a device remembers stays of its kind. -/
theorem Device.fits_effect {device : Device} {ports : List Port} {position : Nat}
    {part : PartState} (h : device.Fits part.memory) :
    device.Fits (device.effect ports position part).memory := by
  obtain ⟨pins, memory⟩ := part
  cases device with
  | ram addrWidth width =>
    cases memory with
    | ram cells =>
      simp only [effect]
      split
      · exact h
      · split
        · intro cell hcell
          rcases Array.mem_or_eq_of_mem_setIfInBounds hcell with hcell | rfl
          · exact h cell hcell
          · exact trim_trim ..
        · exact h
    | _ => exact h.elim
  | register =>
    cases memory with
    | register value =>
      simp only [effect]
      split
      · trivial
      · split <;> trivial
    | _ => exact h.elim
  | bridge =>
    cases memory with
    | bridge enabled forward =>
      simp only [effect]
      split <;> trivial
    | _ => exact h.elim
  | input width initial =>
    cases memory with
    | input value => trivial
    | _ => exact h.elim
  | probe => trivial
  | inert | constant | mux | adder | buffer | halt | boundary | scripted =>
    cases memory <;> trivial

/-! ## Parts -/

/-- What the settling of a circuit relies on about each of its parts. -/
structure Part.Regular (part : Part) : Prop where
  native : part.device.Native
  exists_last : ∃ phase, part.phases[part.device.last]? = some phase ∧ phase.latch = false
  cases : ∀ {position : Nat} {phase : Phase}, part.phases[position]? = some phase → phase.latch = false →
    position = part.device.last ∧ part.phases[part.device.last]? = some phase ∨
      part.device = .bridge ∧ position = 0 ∧ phase = { reads := [0, 1] }
  written : ∀ {phase : Phase} {index : Nat} {port : Port}, part.phases[part.device.last]? = some phase →
    part.ports[index]? = some port → port.type.output = true → index ∈ phase.writes
  reads : ∀ {position : Nat} {phase : Phase} {index : Nat} {port : Port}, part.phases[position]? = some phase →
    phase.latch = false → index ∈ phase.reads → part.ports[index]? = some port →
    port.type.input = true ∧ port.type.output = false
  anyOf : ∀ {position : Nat} {phase : Phase}, part.phases[position]? = some phase →
    part.device ≠ .bridge → phase.anyOf = []
  alike : ∀ {position : Nat} {phase : Phase} {first second : PartState}, part.phases[position]? = some phase →
    PartState.Alike part.device position phase first second →
    part.device.effect part.ports position first = part.device.effect part.ports position second
  early : ∀ {position : Nat} {phase : Phase} {index : Nat} {port : Port} (held : PartState),
    part.phases[position]? = some phase →
    phase.latch = false → position ≠ part.device.last → part.ports[index]? = some port →
    (part.device.effect part.ports position held).edit index = .keep ∨
      port.type.bidirectional = true ∧ ∃ facing,
        (part.device.effect part.ports position held).edit index = .face facing
  final : ∀ {index : Nat} {port : Port} (held : PartState), part.ports[index]? = some port →
    ((part.device.effect part.ports part.device.last held).edit index).Final port.type
  bidirectional : ∀ {index : Nat} {port : Port} (held : PartState), part.device.Fits held.memory →
    part.ports[index]? = some port → port.type.bidirectional = true →
    ∃ value, (part.device.effect part.ports part.device.last held).edit index =
      .drive true value ∧ (part.device ≠ .bridge → ∀ word, value = some word →
        trim port.width word = word)
  memory : ∀ {position : Nat} {phase : Phase} (held : PartState), part.phases[position]? = some phase →
    phase.latch = false →
    (part.device.effect part.ports position held).memory = held.memory ∨
      part.device = .probe ∨ part.device = .bridge ∧ position = 0
  invalid : part.valid = false → part.device = .inert
  bridge : part.device = .bridge →
    part.phases = [{ reads := [0, 1] }, { writes := [2, 3], anyOf := [2, 3] }] ∧
      ∃ width, part.ports.map (·.toPortDecl) =
        [⟨"en", .ctrlIn, 1⟩, ⟨"dir", .ctrlIn, 1⟩, ⟨"a", .dataBus, width⟩, ⟨"b", .dataBus, width⟩]

namespace Part

variable {part : Part} {assembly : Assembly} {index : Nat} {port : Port}

theorem MadeOf.decl (h : part.MadeOf assembly) (hport : part.ports[index]? = some port) :
    assembly.ports[index]? = some port.toPortDecl := by
  rw [← h.ports, List.getElem?_map, hport]
  rfl

theorem MadeOf.regular_builtin {builtin : Builtin} {args : Json}
    (h : part.MadeOf (builtin.assemble args)) : part.Regular := by
  have hdecl : ∀ {index : Nat} {port : Port}, part.ports[index]? = some port →
      (builtin.assemble args).ports[index]? = some port.toPortDecl := h.decl
  obtain ⟨id, scope, definition, ports, phases, device, valid⟩ := part
  obtain ⟨hports, rfl, rfl, rfl⟩ := h
  dsimp only at hports hdecl
  constructor <;> dsimp only
  case native => exact builtin.native_assemble args
  case exists_last => exact builtin.exists_last args
  case cases =>
    intro position phase hphase hlatch
    rcases Builtin.phase_cases hphase hlatch with hlast | ⟨rfl, hearly⟩
    · exact Or.inl hlast
    · exact Or.inr ⟨rfl, hearly⟩
  case written => exact fun hphase hport => Builtin.mem_writes hphase (hdecl hport)
  case reads =>
    exact fun hphase hlatch hindex hport =>
      Builtin.input_of_reads hphase hlatch hindex (hdecl hport)
  case anyOf =>
    intro position phase hphase hbridge
    refine Builtin.anyOf_eq_nil hphase ?_
    rintro rfl
    exact hbridge rfl
  case alike => exact fun hphase => Builtin.effect_congr hphase
  case early =>
    exact fun _ hphase hlatch hearly hport => Builtin.edit_early hphase hlatch hearly (hdecl hport)
  case final => exact fun _ hport => Builtin.edit_last hports (hdecl hport)
  case bidirectional =>
    exact fun _ hfits hport => Builtin.edit_bidirectional hfits (hdecl hport)
  case memory =>
    intro position phase held hphase hlatch
    rcases Builtin.memory_effect hphase hlatch with hkeep | rfl | ⟨rfl, hposition⟩
    · exact Or.inl hkeep
    · exact Or.inr (Or.inl rfl)
    · exact Or.inr (Or.inr ⟨rfl, hposition⟩)
  case invalid =>
    intro hvalid
    cases builtin <;> cases hvalid
  case bridge =>
    intro hbridge
    cases builtin with
    | bridge => exact ⟨rfl, _, hports⟩
    | _ => cases hbridge

/-- What a definition without behaviour builds. -/
theorem MadeOf.regular_outline {ports : List PortDecl} {reads writes : List Nat}
    (h : part.MadeOf
      { ports, phases := [{ reads, writes }], device := .inert, valid := false })
    (hreads : ∀ index ∈ reads, ∀ decl, ports[index]? = some decl →
      decl.type.input = true ∧ decl.type.output = false)
    (hwrites : ∀ index decl, ports[index]? = some decl → decl.type.output = true →
      index ∈ writes)
    (hone : ∀ decl ∈ ports, decl.type.bidirectional = false) : part.Regular := by
  have hdecl : ∀ {index : Nat} {port : Port}, part.ports[index]? = some port →
      ports[index]? = some port.toPortDecl := h.decl
  obtain ⟨id, scope, definition, placed, phases, device, valid⟩ := part
  obtain ⟨hports, rfl, rfl, rfl⟩ := h
  dsimp only at hports hdecl
  have hphase : ∀ {position : Nat} {phase : Phase}, [({ reads, writes } : Phase)][position]? =
      some phase → position = 0 ∧ phase = { reads, writes } := by
    intro position phase hphase
    cases position with
    | zero => exact ⟨rfl, (Option.some.inj hphase).symm⟩
    | succ position => cases hphase
  constructor <;> dsimp only
  case native => trivial
  case exists_last => exact ⟨_, rfl, rfl⟩
  case cases =>
    intro position phase hfound _
    obtain ⟨rfl, rfl⟩ := hphase hfound
    exact Or.inl ⟨rfl, rfl⟩
  case written =>
    intro phase index port hfound hport houtput
    obtain ⟨-, rfl⟩ := hphase hfound
    exact hwrites index _ (hdecl hport) houtput
  case reads =>
    intro position phase index port hfound _ hindex hport
    obtain ⟨-, rfl⟩ := hphase hfound
    exact hreads index hindex _ (hdecl hport)
  case anyOf =>
    intro position phase hfound _
    obtain ⟨-, rfl⟩ := hphase hfound
    rfl
  case alike =>
    intro position phase first second _ halike
    exact congrArg Effect.idle halike.memory
  case early => exact fun _ _ _ _ _ => Or.inl rfl
  case final => exact fun _ _ => .keep
  case bidirectional =>
    intro index port held _ hport hbidirectional
    rw [hone _ (List.mem_of_getElem? (hdecl hport))] at hbidirectional
    cases hbidirectional
  case memory => exact fun _ _ _ => Or.inl rfl
  case invalid => exact fun _ => rfl
  case bridge => exact fun hbridge => by cases hbridge

theorem bidirectional_boundaryPorts {schematic : Schematic} :
    ∀ decl ∈ Library.boundaryPorts schematic, decl.type.bidirectional = false := by
  intro decl hdecl
  obtain ⟨component, -, rfl⟩ := List.mem_map.mp hdecl
  exact Boundary.bidirectional_outerDecl ..

theorem Built.regular (h : part.Built) : part.Regular := by
  obtain ⟨definition, args, assembly, hnative, hassemble, hmade⟩ := h
  rcases hnative with ⟨builtin, rfl⟩ | ⟨id, schematic, rfl⟩
  · obtain rfl := Except.ok.inj hassemble
    exact hmade.regular_builtin
  · obtain rfl := Except.ok.inj hassemble
    refine hmade.regular_outline ?_ ?_ bidirectional_boundaryPorts
    · intro index hindex decl hdecl
      obtain ⟨-, hinput⟩ := List.mem_filter.mp hindex
      have hdecl' : (Builder.start id args (Library.boundaryPorts schematic)).ports[index]? =
        some decl := hdecl
      rw [hdecl'] at hinput
      have hone := bidirectional_boundaryPorts _ (List.mem_of_getElem? hdecl)
      simp_all [PortType.bidirectional]
    · intro index decl hdecl houtput
      have hlt := (List.getElem?_eq_some_iff.mp hdecl).1
      refine List.mem_filter.mpr ⟨List.mem_range.mpr hlt, ?_⟩
      have hdecl' : (Builder.start id args (Library.boundaryPorts schematic)).ports[index]? =
        some decl := hdecl
      rw [hdecl']
      exact houtput

end Part

end Breadboard
