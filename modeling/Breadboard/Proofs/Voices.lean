import Breadboard.Proofs.Looks

/-!
# Which pins a part gives a value to

A part speaks on a pin in one of three ways (`Device.Voice`): no phase ever gives
the pin a value, or its last phase drives the pin or lets go of it in every settle,
or its last phase gives it a value in every settle. A boundary port that lets
values out by a plain pin needs a resolved near side for that.

Only inputs, registers and memories speak from what they remember
(`Device.edit_of_forgets`), and the clock edge moves no pin
(`Part.Built.edit_latch`).
-/

namespace Breadboard

namespace Device

/-- Whether the device remembers something that a user or the clock edge decides. -/
def stores : Device → Bool
  | .input .. | .register | .ram .. => true
  | _ => false

def isMemory : Device → Bool
  | .ram .. => true
  | _ => false

/-- Whether what the device does depends on what it remembers, or shows there. -/
def remembers : Device → Bool
  | .probe | .bridge => true
  | device => device.stores

/-- The pin of a boundary port that it takes values from. -/
def near? : Device → Option Nat
  | .boundary inbound .. => some (if inbound then 1 else 0)
  | _ => none

/-- No phase ever gives the pin a value. -/
def Mute (device : Device) (ports : List Port) (index : Nat) : Prop :=
  ∀ position held, ((device.effect ports position held).edit index).told = none

/-- How a device speaks on a pin. -/
inductive Voice (device : Device) (ports : List Port) (index : Nat) : Prop where
  | mute : device.Mute ports index → Voice device ports index
  | driven : (∀ held, device.Fits held.memory → ∃ both value,
      (device.effect ports device.last held).edit index = .drive both value) →
      Voice device ports index
  | set : (∀ held, device.Fits held.memory →
      (∀ near ∈ device.near?, (held.pin near).resolved = true) → ∃ value,
      (device.effect ports device.last held).edit index = .set value) → Voice device ports index

variable {device : Device} {ports : List Port} {index position : Nat}

theorem remembers_cases (h : device.remembers = true) :
    device.stores = true ∨ device = .probe ∨ device = .bridge := by
  cases device with
  | probe => exact Or.inr (Or.inl rfl)
  | bridge => exact Or.inr (Or.inr rfl)
  | _ => exact Or.inl h

theorem remembers_of_stores (h : device.stores = true) : device.remembers = true := by
  cases device with
  | probe | bridge => cases h
  | _ => exact h

theorem told_put {effect : Effect} {edit : Edit} {target : Nat}
    (hself : index = target → edit.told = none) (hrest : (effect.edit index).told = none) :
    ((effect.put target edit).edit index).told = none := by
  rw [Effect.edit_put]
  split
  · next h => exact hself h
  · exact hrest

theorem edit_put_self (effect : Effect) (index : Nat) (edit : Edit) :
    (effect.put index edit).edit index = edit := by
  rw [Effect.edit_put, if_pos rfl]

/-- The near side of a boundary port is the pin it takes values from. -/
theorem effect_boundary (inbound : Bool) (value : Word) (ports : List Port) (position : Nat)
    (held : PartState) :
    let near := if inbound then 1 else 0
    let far := if inbound then 0 else 1
    (boundary inbound false value).effect ports position held =
      match passed inbound value (ports.getD near default).bound (held.pin near) with
      | some value => (Effect.idle held.memory).put far (.set value)
      | none => Effect.idle held.memory := by
  cases inbound <;> rfl

theorem voice_boundary (inbound tristate : Bool) (value : Word) (ports : List Port) (index : Nat) :
    (boundary inbound tristate value).Voice ports index := by
  cases htristate : tristate with
  | true =>
    by_cases hindex : index = if inbound then 0 else 1
    · subst hindex
      exact .driven fun held _ => by cases inbound <;> exact ⟨_, _, edit_put_self ..⟩
    · refine .mute fun position held => ?_
      cases inbound <;> exact told_put (fun h => absurd h hindex) rfl
  | false =>
    by_cases hopen : (ports.getD (if inbound then 1 else 0) default).bound = false ∧ inbound = false
    · -- nothing is wired to the near side, and no value stands in for it
      refine .mute fun position held => ?_
      rw [effect_boundary, passed, hopen.1, hopen.2]
      rfl
    · by_cases hindex : index = if inbound then 0 else 1
      · refine .set fun held _ hnear => ?_
        have hresolved := hnear _ rfl
        have hpassed : ∃ word, passed inbound value
            (ports.getD (if inbound then 1 else 0) default).bound
            (held.pin (if inbound then 1 else 0)) = some word := by
          rw [passed, hresolved]
          generalize (ports.getD (if inbound then 1 else 0) default).bound = bound at hopen
          cases bound with
          | true => exact ⟨_, rfl⟩
          | false =>
            cases inbound with
            | true => exact ⟨value, rfl⟩
            | false => exact absurd ⟨rfl, rfl⟩ hopen
        obtain ⟨word, hword⟩ := hpassed
        refine ⟨word, ?_⟩
        rw [effect_boundary, hword, hindex]
        exact edit_put_self ..
      · refine .mute fun position held => ?_
        rw [effect_boundary]
        split
        · exact told_put (fun h => absurd h hindex) rfl
        · rfl

theorem voice_adder (width : Nat) (carryIn carryOut : Bool) (ports : List Port) (index : Nat) :
    (adder width carryIn carryOut).Voice ports index := by
  by_cases hsum : index = 2
  · subst hsum
    refine .set fun held _ _ => ?_
    simp only [effect]
    split
    · rw [Effect.edit_put, if_neg (by split <;> decide)]
      exact ⟨_, edit_put_self ..⟩
    · exact ⟨_, edit_put_self ..⟩
  · by_cases hcarry : carryOut = true ∧ index = if carryIn then 4 else 3
    · obtain ⟨rfl, rfl⟩ := hcarry
      exact .set fun held _ _ => ⟨_, edit_put_self ..⟩
    · refine .mute fun _ _ => ?_
      simp only [effect]
      split
      · next hout =>
        exact told_put (fun h => absurd ⟨hout, h⟩ hcarry) (told_put (fun h => absurd h hsum) rfl)
      · exact told_put (fun h => absurd h hsum) rfl

theorem voice_bridge (ports : List Port) (index : Nat) : bridge.Voice ports index := by
  by_cases hindex : index = 2 ∨ index = 3
  · refine .driven fun held hfits => ?_
    obtain ⟨pins, memory⟩ := held
    cases memory with
    | bridge enabled forward =>
      cases forward <;> rcases hindex with rfl | rfl <;> exact ⟨_, _, rfl⟩
    | _ => exact hfits.elim
  · refine .mute fun position held => ?_
    obtain ⟨pins, memory⟩ := held
    have hside : ∀ forward, index ≠ (bridgeSides forward).1 ∧ index ≠ (bridgeSides forward).2 :=
      fun forward => by cases forward <;> simp only [bridgeSides] <;> grind
    cases memory with
    | bridge enabled forward =>
      simp only [effect]
      split
      · exact told_put (fun _ => rfl) (told_put (fun _ => rfl) rfl)
      · exact told_put (fun h => absurd h (hside forward).2)
          (told_put (fun h => absurd h (hside forward).1) rfl)
    | _ => rfl

/-- The last phase gives a value to one pin in every state, and no phase to another. -/
theorem Voice.of_set (target : Nat)
    (hset : ∀ held, device.Fits held.memory → ∃ value,
      (device.effect ports device.last held).edit target = .set value)
    (hmute : ∀ other, other ≠ target → device.Mute ports other) : device.Voice ports index := by
  by_cases hindex : index = target
  · subst hindex
    exact .set fun held hfits _ => hset held hfits
  · exact .mute (hmute index hindex)

/-- The last phase drives one pin or lets go of it in every state, and no phase another. -/
theorem Voice.of_driven (target : Nat)
    (hdriven : ∀ held, device.Fits held.memory → ∃ both value,
      (device.effect ports device.last held).edit target = .drive both value)
    (hmute : ∀ other, other ≠ target → device.Mute ports other) : device.Voice ports index := by
  by_cases hindex : index = target
  · subst hindex
    exact .driven hdriven
  · exact .mute (hmute index hindex)

/-- Every device speaks on every pin in one of the three ways. -/
theorem voice (device : Device) (ports : List Port) (index : Nat) : device.Voice ports index := by
  cases device with
  | inert | probe | halt | scripted => exact .mute fun _ _ => rfl
  | constant value =>
    refine .of_set 0 (fun _ _ => ⟨value, edit_put_self ..⟩) fun other hne _ _ => ?_
    exact told_put (fun h => absurd h hne) rfl
  | input width initial =>
    refine .of_set 0 (fun held hfits => ?_) fun other hne position held => ?_ <;>
      obtain ⟨pins, memory⟩ := held
    · cases memory with
      | input value => exact ⟨value, edit_put_self ..⟩
      | _ => exact hfits.elim
    · cases memory with
      | input value => exact told_put (fun h => absurd h hne) rfl
      | _ => rfl
  | mux =>
    refine .of_set 3 (fun _ _ => ⟨_, edit_put_self ..⟩) fun other hne _ _ => ?_
    exact told_put (fun h => absurd h hne) (told_put (fun _ => rfl) rfl)
  | adder width carryIn carryOut => exact voice_adder width carryIn carryOut ports index
  | buffer =>
    refine .of_driven 2 (fun _ _ => ⟨_, _, edit_put_self ..⟩) fun other hne _ _ => ?_
    exact told_put (fun h => absurd h hne) rfl
  | register =>
    refine .of_set 2 (fun held hfits => ?_) fun other hne position held => ?_ <;>
      obtain ⟨pins, memory⟩ := held
    · cases memory with
      | register value => exact ⟨value, edit_put_self ..⟩
      | _ => exact hfits.elim
    · cases memory with
      | register value =>
        simp only [effect]
        split
        · exact told_put (fun h => absurd h hne) rfl
        · split <;> rfl
      | _ => rfl
  | ram addrWidth width =>
    refine .of_driven 1 (fun held hfits => ?_) fun other hne position held => ?_ <;>
      obtain ⟨pins, memory⟩ := held
    · cases memory with
      | ram cells => exact ⟨_, _, edit_put_self ..⟩
      | _ => exact hfits.elim
    · cases memory with
      | ram cells =>
        simp only [effect]
        split
        · exact told_put (fun h => absurd h hne) rfl
        · split <;> rfl
      | _ => rfl
  | bridge => exact voice_bridge ports index
  | boundary inbound tristate value => exact voice_boundary inbound tristate value ports index

/-- What a device does to its pins does not depend on a memory that it never looks at. -/
theorem edit_of_forgets (hforgets : device.remembers = false) (ports : List Port) (position : Nat)
    (pins : List Pin) (memory other : Memory) :
    (device.effect ports position ⟨pins, memory⟩).edit =
      (device.effect ports position ⟨pins, other⟩).edit := by
  cases device with
  | probe | bridge | input | register | ram => cases hforgets
  | adder width carryIn carryOut => cases carryOut <;> rfl
  | boundary inbound tristate value =>
    cases tristate with
    | true => cases inbound <;> rfl
    | false =>
      simp only [effect_boundary, PartState.pin]
      generalize passed inbound value _ _ = shown
      cases shown <;> rfl
  | _ => rfl

end Device

/-! ## Parts -/

namespace Edit.Final

variable {type : PortType} {both : Bool} {value : Option Word} {word : Word}

theorem of_drive (h : Edit.Final type (.drive both value)) :
    type.output = true ∧ type.tristate = true := by
  cases h with
  | drive _ houtput htristate => exact ⟨houtput, htristate⟩

theorem of_set (h : Edit.Final type (.set word)) : type.output = true ∧ type.tristate = false := by
  cases h with
  | set _ houtput _ hplain => exact ⟨houtput, hplain⟩

end Edit.Final

namespace Builtin

variable {builtin : Builtin} {args : Json} {position index : Nat} {phase : Phase} {decl : PortDecl}

/-- A boundary port reads the pin it takes values from. -/
theorem near_mem_reads
    (hphase : (builtin.assemble args).phases[(builtin.assemble args).device.last]? = some phase)
    (hnear : index ∈ (builtin.assemble args).device.near?) : index ∈ phase.reads := by
  cases builtin with
  | boundary =>
    cases hinput : (Boundary.outerDecl args "").type.input <;>
      simp_all [assemble, Device.near?, Device.last] <;> subst hphase <;> simp_all
  | _ => cases hnear

/-- Registers and memories have a latch phase. It reads inputs, among them the data
pin of a memory, and changes no pin. -/
theorem latch_cases (hphase : (builtin.assemble args).phases[position]? = some phase)
    (hlatch : phase.latch = true) :
    (∀ ports held index,
      ((builtin.assemble args).device.effect ports position held).edit index = .keep) ∧
    ∀ index ∈ phase.reads, ∀ decl, (builtin.assemble args).ports[index]? = some decl →
      decl.type.input = true ∧ (decl.type.output = false ∨ builtin = .ram ∧ index = 1) := by
  cases builtin with
  | register =>
    rcases position with _ | _ | position
    · obtain rfl := Option.some.inj hphase
      cases hlatch
    · obtain rfl := Option.some.inj hphase
      refine ⟨fun ports ⟨pins, memory⟩ index => ?_, fun index hindex decl hdecl => ?_⟩
      · cases memory <;> simp only [assemble, Device.effect] <;> try rfl
        split
        · contradiction
        · split <;> rfl
      · rcases List.mem_cons.mp hindex with rfl | hindex
        · obtain rfl := Option.some.inj hdecl
          exact ⟨rfl, Or.inl rfl⟩
        · obtain rfl := List.mem_singleton.mp hindex
          obtain rfl := Option.some.inj hdecl
          exact ⟨rfl, Or.inl rfl⟩
    · cases hphase
  | ram =>
    rcases position with _ | _ | position
    · obtain rfl := Option.some.inj hphase
      cases hlatch
    · obtain rfl := Option.some.inj hphase
      refine ⟨fun ports ⟨pins, memory⟩ index => ?_, fun index hindex decl hdecl => ?_⟩
      · cases memory <;> simp only [assemble, Device.effect] <;> try rfl
        split
        · contradiction
        · split <;> rfl
      · rcases index with _ | _ | _ | index
        · obtain rfl := Option.some.inj hdecl
          exact ⟨rfl, Or.inl rfl⟩
        · obtain rfl := Option.some.inj hdecl
          exact ⟨rfl, Or.inr ⟨rfl, rfl⟩⟩
        · obtain rfl := Option.some.inj hdecl
          exact ⟨rfl, Or.inl rfl⟩
        · simp at hindex
    · cases hphase
  | boundary =>
    rcases position with _ | position
    · cases hinput : (Boundary.outerDecl args "").type.input <;>
        simp_all [assemble] <;> subst hphase <;> cases hlatch
    · cases hphase
  | _ =>
    rcases position with _ | _ | position <;> simp_all [assemble] <;> subst hphase <;> cases hlatch

end Builtin

namespace Part

variable {part : Part} {position index : Nat} {phase : Phase} {port : Port}

/-- What a built part offers, and what it was assembled from. -/
theorem Built.cases (h : part.Built) :
    (∃ builtin : Builtin, ∃ args, part.MadeOf (builtin.assemble args)) ∨
      part.device = .inert ∧ ∀ phase ∈ part.phases, phase.latch = false := by
  obtain ⟨definition, args, assembly, hnative, hassemble, hmade⟩ := h
  rcases hnative with ⟨builtin, rfl⟩ | ⟨id, schematic, rfl⟩
  · obtain rfl := Except.ok.inj hassemble
    exact Or.inl ⟨builtin, args, hmade⟩
  · obtain rfl := Except.ok.inj hassemble
    refine Or.inr ⟨hmade.device, fun phase hphase => ?_⟩
    rw [hmade.phases] at hphase
    rw [List.mem_singleton.mp hphase]

theorem Built.near_mem_reads (h : part.Built) (hphase : part.phases[part.device.last]? = some phase)
    (hnear : index ∈ part.device.near?) : index ∈ phase.reads := by
  rcases h.cases with ⟨builtin, args, hmade⟩ | ⟨hinert, -⟩
  · rw [hmade.phases, hmade.device] at hphase
    rw [hmade.device] at hnear
    exact Builtin.near_mem_reads hphase hnear
  · rw [hinert] at hnear
    cases hnear

/-- The clock edge moves no pin. -/
theorem Built.edit_latch (h : part.Built) (hphase : part.phases[position]? = some phase)
    (hlatch : phase.latch = true) (held : PartState) (index : Nat) :
    (part.device.effect part.ports position held).edit index = .keep := by
  rcases h.cases with ⟨builtin, args, hmade⟩ | ⟨-, hnone⟩
  · rw [hmade.phases] at hphase
    rw [hmade.device]
    exact (Builtin.latch_cases hphase hlatch).1 part.ports held index
  · rw [hnone phase (List.mem_of_getElem? hphase)] at hlatch
    cases hlatch

/-- The clock edge looks at inputs and at the data pins of memories. -/
theorem Built.reads_latch (h : part.Built) (hphase : part.phases[position]? = some phase)
    (hlatch : phase.latch = true) (hread : index ∈ phase.reads)
    (hport : part.ports[index]? = some port) :
    port.type.input = true ∧
      (port.type.output = false ∨ part.device.isMemory = true ∧ index = 1) := by
  rcases h.cases with ⟨builtin, args, hmade⟩ | ⟨-, hnone⟩
  · rw [hmade.phases] at hphase
    obtain ⟨hinput, houtput | ⟨rfl, rfl⟩⟩ :=
      (Builtin.latch_cases hphase hlatch).2 index hread _ (hmade.decl hport)
    · exact ⟨hinput, Or.inl houtput⟩
    · exact ⟨hinput, Or.inr ⟨by rw [hmade.device]; rfl, rfl⟩⟩
  · rw [hnone phase (List.mem_of_getElem? hphase)] at hlatch
    cases hlatch

/-! ### Ports -/

/-- A phase does not speak on an input. -/
theorem Regular.mute_of_input (h : part.Regular) (hport : part.ports[index]? = some port)
    (houtput : port.type.output = false) : part.device.Mute part.ports index := by
  have hfinal := h.final ⟨[], part.device.fresh⟩ hport
  cases part.device.voice part.ports index with
  | mute hmute => exact hmute
  | driven hdriven =>
    obtain ⟨both, value, hedit⟩ := hdriven ⟨[], part.device.fresh⟩ part.device.fits_fresh
    rw [hedit] at hfinal
    rw [hfinal.of_drive.1] at houtput
    cases houtput
  | set hset =>
    obtain ⟨value, hedit⟩ := hset ⟨[], part.device.fresh⟩ part.device.fits_fresh fun _ _ => rfl
    rw [hedit] at hfinal
    rw [hfinal.of_set.1] at houtput
    cases houtput

/-- On a plain output a phase speaks whenever the near side of a boundary port is
resolved, or never. -/
theorem Regular.mute_or_set (h : part.Regular) (hport : part.ports[index]? = some port)
    (hplain : port.type.tristate = false) : part.device.Mute part.ports index ∨
      ∀ held, part.device.Fits held.memory →
        (∀ near ∈ part.device.near?, (held.pin near).resolved = true) →
        ((part.device.effect part.ports part.device.last held).edit index).told.isSome = true := by
  have hfinal := h.final ⟨[], part.device.fresh⟩ hport
  cases part.device.voice part.ports index with
  | mute hmute => exact Or.inl hmute
  | driven hdriven =>
    obtain ⟨both, value, hedit⟩ := hdriven ⟨[], part.device.fresh⟩ part.device.fits_fresh
    rw [hedit] at hfinal
    rw [hfinal.of_drive.2] at hplain
    cases hplain
  | set hset =>
    refine Or.inr fun held hfits hnear => ?_
    obtain ⟨value, hedit⟩ := hset held hfits hnear
    rw [hedit]
    rfl

/-- A phase that sees the same in two states moves the pins in the same way, and
leaves the same memory if that matters. -/
theorem Regular.edit_congr (h : part.Regular) {first second : PartState}
    (hphase : part.phases[position]? = some phase) (hcopy : part.device = .bridge → position ≠ 1)
    (hmemory : part.device.remembers = true →
      part.device.recalled position first.memory = part.device.recalled position second.memory)
    (hresolved : ∀ index ∈ phase.reads, (first.pin index).resolved = (second.pin index).resolved)
    (hvalue : ∀ index ∈ phase.reads, (first.pin index).value = (second.pin index).value) :
    (part.device.effect part.ports position first).edit =
        (part.device.effect part.ports position second).edit ∧
      (part.device.remembers = true → (part.device.effect part.ports position first).memory =
        (part.device.effect part.ports position second).memory) := by
  cases hremembers : part.device.remembers with
  | true =>
    have heffect := h.effect_congr hphase hcopy (hmemory hremembers) hresolved
      fun index hindex _ => hvalue index hindex
    rw [heffect]
    exact ⟨rfl, fun _ => rfl⟩
  | false =>
    obtain ⟨pins, memory⟩ := first
    have heffect : part.device.effect part.ports position ⟨pins, second.memory⟩ =
        part.device.effect part.ports position second :=
      h.effect_congr hphase hcopy rfl hresolved fun index hindex _ => hvalue index hindex
    rw [part.device.edit_of_forgets hremembers part.ports position pins memory second.memory,
      heffect]
    exact ⟨rfl, nofun⟩

end Part

end Breadboard
