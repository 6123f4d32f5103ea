import Breadboard.Proofs.Proper

/-!
# Values keep to their widths

In a circuit without ports of width 0 every value stays below what its width can hold,
on nets, on pins and in memories (`State.Ranged`). The exception are registers: one that
takes over a memory takes it over uncut, and shows it on its output until the next clock
edge that it listens to. Who has what from the previous circuit is said by the predicate
`taken`; everything else is in range whatever is done with the circuit.

For each device one lemma says that a phase tells its pins values in range if it finds such
values (`Part.Built.told_le`).
-/

namespace Breadboard

/-! ## Phases -/

theorem zero_le_mask (width : Nat) : 0 ≤ mask width := by
  rw [UInt64.le_iff_toNat_le]
  exact Nat.zero_le _

theorem le_mask_of_trim {width : Nat} {value : Word} (h : trim width value = value) :
    value ≤ mask width := by
  rw [← h]
  exact trim_le_mask ..

/-- A carry is one bit. -/
theorem carry_le_mask (sum width : Nat) : UInt64.ofNat (sum >>> width % 2) ≤ mask 1 := by
  rw [UInt64.le_iff_toNat_le, toNat_mask, UInt64.toNat_ofNat']
  have hmod := Nat.mod_lt (sum >>> width) (show 0 < 2 by decide)
  have hspan : span 1 = 2 := rfl
  have hle := Nat.mod_le (sum >>> width % 2) (2 ^ 64)
  omega

namespace Builtin

variable {builtin : Builtin} {args : Json} {placed : List Port} {held : PartState}
  {position index : Nat} {decl : PortDecl} {word : Word}

/-- An adder cuts its sum to its width, and its carry is one bit. -/
theorem told_adder (hdecl : (adder.assemble args).ports[index]? = some decl)
    (htold : (((adder.assemble args).device.effect placed position held).edit index).told =
      some word) : word ≤ mask decl.width := by
  simp only [assemble, ports, Device.effect] at htold hdecl
  cases hin : args.flag "carryIn" false <;> cases hout : args.flag "carryOut" false <;>
    simp only [hin, hout, Bool.false_eq_true, if_false, if_true, Effect.edit_put,
      Effect.edit_idle] at htold hdecl
  case false.false | true.false =>
    split at htold
    · next hindex =>
      subst hindex
      obtain rfl := Option.some.inj hdecl
      obtain rfl := Option.some.inj htold
      exact trim_le_mask ..
    · cases htold
  all_goals
    split at htold
    · next hindex =>
      subst hindex
      obtain rfl := Option.some.inj hdecl
      obtain rfl := Option.some.inj htold
      exact carry_le_mask ..
    · split at htold
      · next hindex =>
        subst hindex
        obtain rfl := Option.some.inj hdecl
        obtain rfl := Option.some.inj htold
        exact trim_le_mask ..
      · cases htold

/-- A bridge carries over what it finds on one of its sides. -/
theorem told_bridge
    (htold : ((Device.bridge.effect placed position held).edit index).told = some word) :
    (index = 2 ∨ index = 3) ∧ ((held.pin 2).value = word ∨ (held.pin 3).value = word) := by
  obtain ⟨forward, rfl, hvalue⟩ := Device.told_bridge htold
  cases forward with
  | true => exact ⟨.inr rfl, .inl hvalue⟩
  | false => exact ⟨.inl rfl, .inr hvalue⟩

/-- A boundary port passes on what it finds on one side, or its own value. -/
theorem told_boundary {inbound tristate : Bool} {value : Word}
    (htold : (((Device.boundary inbound tristate value).effect placed position held).edit
      index).told = some word) :
    (index = 0 ∨ index = 1) ∧
      ((held.pin 0).value = word ∨ (held.pin 1).value = word ∨ value = word) := by
  have hpassed : ∀ near bound, Device.passed inbound value bound near = some word →
      near.value = word ∨ value = word := by
    intro near bound hpassed
    unfold Device.passed at hpassed
    split at hpassed
    · exact Or.inl (Option.some.inj (Option.ite_none_right_eq_some.mp hpassed).2)
    · exact Or.inr (Option.some.inj (Option.ite_none_right_eq_some.mp hpassed).2)
  simp only [Device.effect] at htold
  cases inbound <;> cases tristate <;>
    simp only [Bool.false_eq_true, if_false, if_true] at htold
  case false.true | true.true =>
    rw [Effect.edit_put] at htold
    split at htold
    · next hindex =>
      rcases hpassed _ _ htold with hvalue | hvalue <;> simp [hindex, hvalue]
    · cases htold
  all_goals
    split at htold
    · next found hfound =>
      rw [Effect.edit_put] at htold
      split at htold
      · next hindex =>
        obtain rfl := Option.some.inj htold
        rcases hpassed _ _ hfound with hvalue | hvalue <;> simp [hindex, hvalue]
      · cases htold
    · cases htold

/-- A multiplexer passes on one of its inputs. -/
theorem told_mux
    (htold : ((Device.mux.effect placed position held).edit index).told = some word) :
    index = 3 ∧ ((held.pin 0).value = word ∨ (held.pin 1).value = word) := by
  simp only [Device.effect] at htold
  split at htold
  all_goals
    rcases index with _ | _ | _ | _ | index <;> simp [Edit.told] at htold
    simp [htold]

/-- An enabled buffer passes on its input. -/
theorem told_buffer
    (htold : ((Device.buffer.effect placed position held).edit index).told = some word) :
    index = 2 ∧ (held.pin 1).value = word := by
  rcases index with _ | _ | _ | index
  case succ.succ.zero =>
    obtain ⟨-, hvalue⟩ := Option.ite_none_left_eq_some.mp htold
    exact ⟨rfl, Option.some.inj hvalue⟩
  all_goals cases htold

/-- A register passes on what it remembers, as it is. -/
theorem told_register
    (htold : ((Device.register.effect placed position held).edit index).told = some word) :
    index = 2 ∧ held.memory = .register word := by
  obtain ⟨pins, memory⟩ := held
  cases memory with
  | register value =>
    simp only [Device.effect] at htold
    split at htold
    · rcases index with _ | _ | _ | index <;> simp [Edit.told] at htold
      exact ⟨rfl, htold ▸ rfl⟩
    · split at htold <;> cases htold
  | _ => cases htold

/-- A RAM passes on one of its cells, or zero. -/
theorem told_ram {addrWidth width : Nat}
    (htold : (((Device.ram addrWidth width).effect placed position held).edit index).told =
      some word) :
    index = 1 ∧ (word = 0 ∨ ∃ cells, held.memory = .ram cells ∧ word ∈ cells) := by
  obtain ⟨pins, memory⟩ := held
  cases memory with
  | ram cells =>
    simp only [Device.effect] at htold
    split at htold
    · rcases index with _ | _ | index
      case succ.zero =>
        obtain ⟨-, hvalue⟩ := Option.ite_none_right_eq_some.mp htold
        obtain rfl := Option.some.inj hvalue
        rw [Array.getD_eq_getD_getElem?]
        cases hcell : cells[Device.cellOf cells (PartState.pin ⟨pins, .ram cells⟩ 0).value]? with
        | none => exact ⟨rfl, Or.inl rfl⟩
        | some cell => exact ⟨rfl, Or.inr ⟨cells, rfl, Array.mem_of_getElem? hcell⟩⟩
      all_goals cases htold
    · split at htold <;> cases htold
  | _ => cases htold

/-- An input part passes on its setting. -/
theorem told_input {width : Nat} {initial : Word}
    (htold : (((Device.input width initial).effect placed position held).edit index).told =
      some word) :
    index = 0 ∧ held.memory = .input word := by
  obtain ⟨pins, memory⟩ := held
  cases memory with
  | input value =>
    rcases index with _ | index
    · exact ⟨rfl, congrArg Memory.input (Option.some.inj htold)⟩
    · cases htold
  | _ => cases htold

/-- What a part of a built-in definition tells its pins, given that what it finds on them
is in range. Only a register passes on what it remembers as it is. -/
theorem told_le (hproper : (builtin.assemble args).device.Proper held.memory)
    (hpins : ∀ other decl, (builtin.assemble args).ports[other]? = some decl →
      (held.pin other).value ≤ mask decl.width ∨ builtin = .register ∧ other = 2)
    (hdecl : (builtin.assemble args).ports[index]? = some decl)
    (htold : (((builtin.assemble args).device.effect placed position held).edit index).told =
      some word) :
    word ≤ mask decl.width ∨ builtin = .register ∧ index = 2 ∧ held.memory = .register word := by
  by_cases hregister : builtin = .register
  · subst hregister
    exact Or.inr ⟨rfl, told_register htold⟩
  replace hpins : ∀ other decl, (builtin.assemble args).ports[other]? = some decl →
      (held.pin other).value ≤ mask decl.width :=
    fun other decl hother => (hpins other decl hother).resolve_right fun h => hregister h.1
  refine Or.inl ?_
  cases builtin with
  | register => exact absurd rfl hregister
  | probe | halt => cases htold
  | adder => exact told_adder hdecl htold
  | constant =>
    rcases index with _ | index
    · obtain rfl := Option.some.inj hdecl
      obtain rfl := Option.some.inj htold
      exact trim_le_mask ..
    · cases htold
  | input =>
    obtain ⟨rfl, hmemory⟩ := told_input htold
    obtain rfl := Option.some.inj hdecl
    rw [hmemory] at hproper
    exact le_mask_of_trim hproper
  | mux =>
    have hfirst := hpins 0 _ rfl
    have hsecond := hpins 1 _ rfl
    obtain ⟨rfl, rfl | rfl⟩ := told_mux htold <;> obtain rfl := Option.some.inj hdecl <;> assumption
  | buffer =>
    have hin := hpins 1 _ rfl
    obtain ⟨rfl, rfl⟩ := told_buffer htold
    obtain rfl := Option.some.inj hdecl
    exact hin
  | ram =>
    obtain ⟨rfl, rfl | ⟨cells, hmemory, hcell⟩⟩ := told_ram htold <;>
      obtain rfl := Option.some.inj hdecl
    · exact zero_le_mask _
    · rw [hmemory] at hproper
      exact le_mask_of_trim (hproper.2 word hcell)
  | bridge =>
    have hfirst := hpins 2 _ rfl
    have hsecond := hpins 3 _ rfl
    obtain ⟨rfl | rfl, rfl | rfl⟩ := told_bridge htold <;> obtain rfl := Option.some.inj hdecl <;>
      assumption
  | boundary =>
    have hfirst := hpins 0 _ rfl
    have hsecond := hpins 1 _ rfl
    have hown := trim_le_mask (args.width "width" 1) (args.word "value" 0)
    obtain ⟨rfl | rfl, rfl | rfl | rfl⟩ := told_boundary htold <;>
      obtain rfl := Option.some.inj hdecl <;> assumption

end Builtin

/-- What a register remembers after a phase. -/
theorem Device.register_effect {placed : List Port} {position : Nat} {held : PartState}
    {value word : Word} (hmemory : held.memory = .register value)
    (heffect : (Device.register.effect placed position held).memory = .register word) :
    word = value ∨ word = (held.pin 0).value := by
  obtain ⟨pins, memory⟩ := held
  obtain rfl : memory = .register value := hmemory
  simp only [effect] at heffect
  split at heffect
  · cases heffect
    exact Or.inl rfl
  · split at heffect <;> cases heffect
    · exact Or.inr rfl
    · exact Or.inl rfl

namespace Part

variable {part : Part} {held : PartState} {position index : Nat} {port : Port} {word : Word}

theorem Built.told_le (h : part.Built) (hproper : part.device.Proper held.memory)
    (hpins : ∀ other port, part.ports[other]? = some port →
      (held.pin other).value ≤ mask port.width ∨ part.device = .register ∧ other = 2)
    (hport : part.ports[index]? = some port)
    (htold : ((part.device.effect part.ports position held).edit index).told = some word) :
    word ≤ mask port.width ∨
      part.device = .register ∧ index = 2 ∧ held.memory = .register word := by
  rcases h.cases with ⟨builtin, args, hmade⟩ | ⟨hinert, -⟩
  · have hregister : (builtin.assemble args).device = .register ↔ builtin = .register := by
      cases builtin <;> simp [Builtin.assemble]
    rw [hmade.device] at hproper hpins htold ⊢
    rw [hregister] at hpins ⊢
    refine Builtin.told_le hproper (fun other decl hdecl => ?_) (hmade.decl hport) htold
    rw [← hmade.ports, List.getElem?_map] at hdecl
    obtain ⟨found, hfound, rfl⟩ := Option.map_eq_some_iff.mp hdecl
    exact hpins other found hfound
  · rw [hinert] at htold
    cases htold

/-- What a part stores is as wide as the port that shows it. -/
structure Wide (part : Part) : Prop where
  input : ∀ {width : Nat} {initial : Word}, part.device = .input width initial →
    (part.ports.getD 0 default).width = width
  ram : ∀ {addrWidth width : Nat}, part.device = .ram addrWidth width →
    (part.ports.getD 1 default).width = width
  register : part.device = .register → ∃ port, part.ports[0]? = some port ∧
    (part.ports.getD 2 default).width = port.width

theorem Built.wide (h : part.Built) : part.Wide := by
  rcases h.cases with ⟨builtin, args, hmade⟩ | ⟨hinert, -⟩
  · have hwidth : ∀ other, (part.ports.getD other default).width =
        ((builtin.assemble args).ports.getD other default).width := by
      intro other
      rw [← hmade.ports, List.getD_eq_getElem?_getD, List.getD_eq_getElem?_getD, List.getElem?_map]
      cases part.ports[other]? <;> rfl
    refine ⟨fun {width initial} hdevice => ?_, fun {addrWidth width} hdevice => ?_,
      fun hdevice => ?_⟩ <;> rw [hmade.device] at hdevice
    · cases builtin <;> cases hdevice
      exact hwidth 0
    · cases builtin <;> cases hdevice
      exact hwidth 1
    · cases builtin <;> cases hdevice
      have hfirst := hwidth 0
      have hlast := hwidth 2
      have hplace : (part.ports.map (·.toPortDecl))[0]? = some _ := congrArg (·[0]?) hmade.ports
      rw [List.getElem?_map] at hplace
      obtain ⟨port, hport, -⟩ := Option.map_eq_some_iff.mp hplace
      rw [List.getD_eq_getElem?_getD, hport] at hfirst
      exact ⟨port, hport, hlast.trans hfirst.symm⟩
  · refine ⟨fun h => ?_, fun h => ?_, fun h => ?_⟩ <;> rw [hinert] at h <;> cases h

end Part

/-! ## States in range -/

namespace Netlist

/-- No port has width 0. -/
def Sized (netlist : Netlist) : Prop :=
  ∀ part ∈ netlist.parts, ∀ port ∈ part.ports, 0 < port.width

instance (netlist : Netlist) : Decidable netlist.Sized :=
  inferInstanceAs (Decidable (∀ part ∈ netlist.parts, ∀ port ∈ part.ports, 0 < port.width))

/-- The port is the output of a register. -/
def ShowsRegister (netlist : Netlist) (ref : PortRef) : Prop :=
  ∃ part, netlist.parts[ref.part]? = some part ∧ part.device = .register ∧ ref.port = 2

end Netlist

namespace State

variable {netlist : Netlist} {state : State} {ref : PortRef} {port : Port} {placed : Part}
  {index position : Nat} {net : Net} {taken : Nat → Word → Prop} {word : Word}

/-- Everything is in range except what registers have taken over, and show. -/
structure Ranged (taken : Nat → Word → Prop) (netlist : Netlist) (state : State) : Prop where
  net : ∀ {index : Nat} {net : Net}, netlist.nets[index]? = some net →
    (state.net index).value ≤ mask net.width
  pin : ∀ {ref : PortRef} {port : Port}, netlist.port? ref = some port →
    (state.pin ref).value ≤ mask port.width ∨
      netlist.ShowsRegister ref ∧ taken ref.part (state.pin ref).value
  register : ∀ {index : Nat} {placed : Part} {value : Word}, netlist.parts[index]? = some placed →
    placed.device = .register → (state.part index).memory = .register value →
    value ≤ mask (placed.ports.getD 2 default).width ∨ taken index value

theorem verdict_le (hnet : netlist.nets[index]? = some net)
    (hverdict : (state.verdict netlist index).1 = some word) : word ≤ mask net.width := by
  cases htristate : net.tristate with
  | true =>
    rw [Netlist.verdict_tristate hnet htristate] at hverdict
    split at hverdict
    · obtain rfl := Option.some.inj hverdict
      exact trim_le_mask ..
    · cases hverdict
  | false =>
    rw [Netlist.verdict_plain hnet htristate] at hverdict
    split at hverdict
    · obtain rfl := Option.some.inj hverdict
      exact trim_le_mask ..
    · obtain rfl := Option.some.inj hverdict
      exact zero_le_mask _

theorem Ranged.resolve (hflat : netlist.Flat) (hsized : netlist.Sized)
    (hsound : Sound netlist state) (h : Ranged taken netlist state) (hindex : index < netlist.nets.length) :
    Ranged taken netlist (state.perform netlist (.net index)) := by
  have hlt : index < state.nets.length := by
    rw [hsound.nets]
    exact hindex
  refine ⟨fun {other net} hnet => ?_, fun {ref port} hport => ?_, fun hplaced hdevice hmemory => ?_⟩
  · rw [State.perform, net_resolve hlt]
    split
    · next hother =>
      subst hother
      cases hverdict : (state.verdict netlist other).1 with
      | none => exact h.net hnet
      | some word => exact verdict_le hnet hverdict
    · exact h.net hnet
  · rw [State.perform, pin_resolve (hsound.has hport)]
    split
    · next htarget =>
      rw [Pin.value_hear]
      cases hverdict : (state.verdict netlist index).1 with
      | none => exact h.pin hport
      | some word =>
        obtain ⟨net, hnet, htarget⟩ := Netlist.mem_targets_getD.mp htarget
        obtain ⟨found, hattached, -⟩ := hflat.wired.target hnet htarget
        obtain rfl := Option.some.inj (hattached.found.symm.trans hport)
        obtain ⟨placed, hpart, hplace⟩ := Netlist.part_of_port hport
        -- only a port of width 0 may be on a net of another width
        have hwide := hsized placed (List.mem_of_getElem? hpart) found (List.mem_of_getElem? hplace)
        have hwidth := hattached.width.resolve_right (Nat.pos_iff_ne_zero.mp hwide)
        rw [hwidth]
        exact Or.inl (verdict_le hnet hverdict)
    · exact h.pin hport
  · rw [State.perform, memory_resolve] at hmemory
    exact h.register hplaced hdevice hmemory

/-- A part finds values in range on its pins, but for the output of a register. -/
theorem Ranged.found (h : Ranged taken netlist state) (hpart : netlist.parts[index]? = some placed)
    (other : Nat) (port : Port) (hplace : placed.ports[other]? = some port) :
    ((state.part index).pin other).value ≤ mask port.width ∨
      placed.device = .register ∧ other = 2 := by
  have hport : netlist.port? ⟨index, other⟩ = some port := Netlist.port_of_part hpart hplace
  refine (h.pin hport).imp_right ?_
  rintro ⟨⟨owner, howner, hdevice, hother⟩, -⟩
  obtain rfl := Option.some.inj (howner.symm.trans hpart)
  exact ⟨hdevice, hother⟩

/-- A register keeps what it remembers, or takes over what it finds on its input. -/
theorem Ranged.register_effect (hflat : netlist.Flat) (hproper : Proper netlist state)
    (h : Ranged taken netlist state) (hpart : netlist.parts[index]? = some placed)
    (hdevice : placed.device = .register)
    (hmemory : (state.effect netlist index position).memory = .register word) :
    word ≤ mask (placed.ports.getD 2 default).width ∨ taken index word := by
  have hheld := hproper _ _ hpart
  rw [effect_eq hpart, hdevice] at hmemory
  rw [hdevice] at hheld
  obtain ⟨before, hbefore⟩ : ∃ before, (state.part index).memory = .register before := by
    generalize (state.part index).memory = memory at hheld
    cases memory with
    | register before => exact ⟨before, rfl⟩
    | _ => exact hheld.elim
  rcases Device.register_effect hbefore hmemory with rfl | rfl
  · exact h.register hpart hdevice hbefore
  · obtain ⟨port, hplace, hwidth⟩ :=
      (hflat.built placed (List.mem_of_getElem? hpart)).wide.register hdevice
    rw [hwidth]
    exact Or.inl ((h.found hpart 0 port hplace).resolve_right fun h => nomatch h.2)

theorem Ranged.phase (hflat : netlist.Flat) (hsound : Sound netlist state)
    (hproper : Proper netlist state) (h : Ranged taken netlist state)
    (hpart : netlist.parts[index]? = some placed) (position : Nat) :
    Ranged taken netlist (state.perform netlist (.phase index position)) := by
  have hbuilt := hflat.built placed (List.mem_of_getElem? hpart)
  refine ⟨h.net, fun {ref port} hport => ?_, fun {other owner value} howner hdevice hmemory => ?_⟩
  · by_cases hne : ref.part = index
    · subst hne
      obtain ⟨owner, howner, hplace⟩ := Netlist.part_of_port hport
      obtain rfl := Option.some.inj (howner.symm.trans hpart)
      rw [pin_phase hflat.wired hsound hport, Edit.value_apply, effect_eq hpart]
      cases htold : ((owner.device.effect owner.ports position (state.part ref.part)).edit
          ref.port).told with
      | none => exact h.pin hport
      | some word =>
        rcases hbuilt.told_le (hproper _ _ hpart) (h.found hpart) hplace htold with
          hword | ⟨hdevice, hshown, hmemory⟩
        · exact Or.inl hword
        · rcases h.register hpart hdevice hmemory with hword | htaken
          · rw [List.getD_eq_getElem?_getD, ← hshown, hplace] at hword
            exact Or.inl hword
          · exact Or.inr ⟨⟨owner, hpart, hdevice, hshown⟩, htaken⟩
    · rw [pin_phase_of_ne hflat.wired hne]
      exact h.pin hport
  · rw [memory_phase hflat.wired hsound hpart] at hmemory
    split at hmemory
    · next hother =>
      subst hother
      obtain rfl := Option.some.inj (howner.symm.trans hpart)
      exact h.register_effect hflat hproper hpart hdevice hmemory
    · exact h.register howner hdevice hmemory

theorem lasting_ranged (taken : Nat → Word → Prop) :
    Lasting fun netlist state =>
      Proper netlist state ∧ (netlist.Sized → Ranged taken netlist state) where
  begun hflat hsound h := by
    refine ⟨lasting_proper.begun hflat hsound h.1, fun hsized => ?_⟩
    obtain ⟨hnet, hpin, hregister⟩ := h.2 hsized
    refine ⟨hnet, fun hport => ?_, fun hplaced hdevice hmemory => ?_⟩
    · rw [Netlist.pin_begun hsound hport]
      exact hpin hport
    · rw [Netlist.begun, memory_mapPins hsound] at hmemory
      exact hregister hplaced hdevice hmemory
  perform hflat hsound h task htask := by
    refine ⟨lasting_proper.perform hflat hsound h.1 htask, fun hsized => ?_⟩
    cases task with
    | net index => exact (h.2 hsized).resolve hflat hsized hsound htask
    | phase part position =>
      obtain ⟨phase, hphase⟩ := htask
      obtain ⟨owner, howner, -⟩ := Option.bind_eq_some_iff.mp hphase
      exact (h.2 hsized).phase hflat hsound h.1 howner position
  agrees hflat h hmatches := by
    refine ⟨lasting_proper.agrees hflat h.1 hmatches, fun hsized => ?_⟩
    obtain ⟨hnet, hpin, hregister⟩ := h.2 hsized
    refine ⟨fun hnet' => ?_, fun {ref port} hport => ?_, fun hplaced hdevice hmemory => ?_⟩
    · rw [hmatches.net]
      exact hnet hnet'
    · rw [hmatches.value]
      exact hpin hport
    · rw [hmatches.memory] at hmemory
      exact hregister hplaced hdevice hmemory
  poked hflat hsound h index placed memory hplaced hpoked := by
    refine ⟨lasting_proper.poked hflat hsound h.1 hplaced hpoked, fun hsized => ?_⟩
    obtain ⟨hnet, hpin, hregister⟩ := h.2 hsized
    have hsame := (sound_setMemory hsound fun owner howner =>
      Option.some.inj (hplaced.symm.trans howner) ▸ hpoked.fits (hsound.fits hplaced)).2
    refine ⟨hnet, fun {ref port} hport => ?_, fun {other owner value} howner hdevice hmemory => ?_⟩
    · rw [hsame]
      exact hpin hport
    · rw [memory_setPart hsound hplaced] at hmemory
      split at hmemory
      · next hother =>
        subst hother
        obtain rfl := Option.some.inj (howner.symm.trans hplaced)
        rw [hdevice] at hpoked
        cases hpoked
      · exact hregister howner hdevice hmemory
  cleared hflat hsound h hard := by
    refine ⟨lasting_proper.cleared hflat hsound h.1 hard, fun hsized => ⟨fun {index net} _ => ?_,
      fun hport => ?_, fun hplaced hdevice hmemory => ?_⟩⟩
    · rw [value_net_cleared]
      exact zero_le_mask _
    · rw [pin_cleared hsound hard hport]
      exact Or.inl (zero_le_mask _)
    · rw [part_cleared hsound hard hplaced, hdevice] at hmemory
      cases hmemory
      exact Or.inl (zero_le_mask _)

end State

/-! ## Circuits in use -/

namespace Simulation

/-- When a circuit replaced `previous`, a register of the same path and definition as this
part held the value. -/
def HandedOver (previous : Option Simulation) (netlist : Netlist) (index : Nat) (value : Word) :
    Prop :=
  ∃ before ∈ previous, ∃ part, before.netlist.partAt? (netlist.partPath index) = some part ∧
    (before.netlist.parts.getD part default).definition =
      (netlist.parts.getD index default).definition ∧
    (before.state.part part).memory = .register value

variable {previous : Option Simulation} {netlist : Netlist} {state : State} {index : Nat}
  {placed : Part} {value : Word}

theorem handedOver_of_inherited (hplaced : netlist.parts[index]? = some placed)
    (hdevice : placed.device = .register)
    (h : State.inherited previous netlist index placed = .register value) :
    value = 0 ∨ HandedOver previous netlist index value := by
  have hfresh : placed.device.fresh = .register value → value = 0 := by
    rw [hdevice]
    intro h
    cases h
    rfl
  cases previous with
  | none => exact Or.inl (hfresh h)
  | some before =>
    simp only [State.inherited, State.carriedMemory] at h
    split at h
    · next part hpart =>
      split at h
      · next hdefinition =>
        cases hmemory : (before.state.part part).memory with
        | register held =>
          rw [hmemory, hdevice] at h
          cases h
          refine Or.inr ⟨before, rfl, part, hpart, ?_, hmemory⟩
          rw [hdefinition, List.getD_eq_getElem?_getD, hplaced]
          rfl
        | _ =>
          rw [hmemory, hdevice] at h
          cases h
          exact Or.inl rfl
      · exact Or.inl (hfresh h)
    · exact Or.inl (hfresh h)

theorem ranged_new (h : State.New netlist (State.inherited previous netlist) state) :
    State.Ranged (HandedOver previous netlist) netlist state := by
  refine ⟨fun {index net} _ => ?_, fun {ref port} _ => ?_, fun hplaced hdevice hmemory => ?_⟩
  · rw [h.net]
    exact zero_le_mask _
  · rw [h.pin]
    exact Or.inl (zero_le_mask _)
  · rw [h.memory hplaced] at hmemory
    rcases handedOver_of_inherited hplaced hdevice hmemory with rfl | hover
    · exact Or.inl (zero_le_mask _)
    · exact Or.inr hover

end Simulation

/-- What a part stores is in range, except what a register has taken over. -/
def Part.Keeps (part : Part) (taken : Word → Prop) : Memory → Prop
  | .input value => value ≤ mask (part.ports.getD 0 default).width
  | .ram cells => ∀ cell ∈ cells, cell ≤ mask (part.ports.getD 1 default).width
  | .register value => value ≤ mask (part.ports.getD 2 default).width ∨ taken value
  | _ => True

theorem State.Ranged.keeps {netlist : Netlist} {state : State} {taken : Nat → Word → Prop}
    (hflat : netlist.Flat) (hproper : Proper netlist state) (h : Ranged taken netlist state)
    {index : Nat} {placed : Part} (hplaced : netlist.parts[index]? = some placed) :
    placed.Keeps (taken index) (state.part index).memory := by
  have hwide := (hflat.built placed (List.mem_of_getElem? hplaced)).wide
  have hheld := hproper index placed hplaced
  have hnative := hflat.wired.native placed (List.mem_of_getElem? hplaced)
  cases hmemory : (state.part index).memory with
  | input value =>
    rw [hmemory] at hheld
    cases hdevice : placed.device with
    | input width initial =>
      rw [hdevice] at hheld
      rw [Part.Keeps, hwide.input hdevice]
      exact le_mask_of_trim hheld
    | scripted => exact (hdevice ▸ hnative).elim
    | _ =>
      rw [hdevice] at hheld
      cases hheld
  | ram cells =>
    rw [hmemory] at hheld
    cases hdevice : placed.device with
    | ram addrWidth width =>
      rw [hdevice] at hheld
      rw [Part.Keeps, hwide.ram hdevice]
      exact fun cell hcell => le_mask_of_trim (hheld.2 cell hcell)
    | scripted => exact (hdevice ▸ hnative).elim
    | _ =>
      rw [hdevice] at hheld
      cases hheld
  | register value =>
    rw [hmemory] at hheld
    cases hdevice : placed.device with
    | register => exact h.register hplaced hdevice hmemory
    | scripted => exact (hdevice ▸ hnative).elim
    | _ =>
      rw [hdevice] at hheld
      cases hheld
  | _ => trivial

namespace Simulation

variable {library : Library} {schematic : Schematic} {previous : Option Simulation}
  {first simulation : Simulation}

/-- Whatever is done with a circuit, every value stays in range, except what registers
held when the circuit replaced another one: such a value stays in the register, and on
its output, until the next one is stored. -/
theorem values_fit_unless_handed_over (hbegins : Begins library schematic previous first)
    (hcontinues : first.Continues simulation) (hsized : simulation.netlist.Sized) :
    let netlist := simulation.netlist
    let state := simulation.state
    (∀ index net, netlist.nets[index]? = some net → (state.net index).value ≤ mask net.width) ∧
    (∀ ref port, netlist.port? ref = some port →
      (state.pin ref).value ≤ mask port.width ∨
        netlist.ShowsRegister ref ∧ HandedOver previous netlist ref.part (state.pin ref).value) ∧
    ∀ index (placed : Part), netlist.parts[index]? = some placed →
      placed.Keeps (HandedOver previous netlist index) (state.part index).memory := by
  intro netlist state
  have hflat : netlist.Flat := (hcontinues.reachable hbegins.reachable).coherent.flat
  have hsame : netlist = flatten library schematic := hcontinues.netlist.trans hbegins.netlist
  obtain ⟨hproper, hranged⟩ := hbegins.lasting
    (State.lasting_ranged (HandedOver previous netlist))
    (fun hflat hnew => ⟨State.proper_new hflat hnew, fun _ => by rw [hsame]; exact ranged_new hnew⟩)
    hcontinues
  have h := hranged hsized
  exact ⟨fun _ _ => h.net, fun _ _ => h.pin, fun _ _ => h.keeps hflat hproper⟩

/-- A register of some width that stores a constant. -/
def storedConstant (width value : Nat) : Schematic where
  components :=
    [⟨"k", Builtin.constant.id, .obj [("width", .int width), ("value", .int value)]⟩,
      ⟨"r", Builtin.register.id, .obj [("width", .int width)]⟩]
  wires := [⟨"d", [⟨"k", "out"⟩, ⟨"r", "d"⟩]⟩, ⟨"q", [⟨"r", "q"⟩]⟩]

/-- The register stores 200, and is then made 4 bits wide. -/
def narrowed : Simulation :=
  let wide := (ofNetlist (flatten Library.builtin (storedConstant 8 200))).step
  (wide.rebuild Library.builtin (storedConstant 4 9)).toOption.getD wide

theorem narrowed_begins : Begins Library.builtin (storedConstant 4 9)
    (some (ofNetlist (flatten Library.builtin (storedConstant 8 200))).step) narrowed :=
  .rebuild (reachable_ofNetlist (by decide +kernel)).step Library.native_builtin
    (rebuild_eq _ (by decide +kernel))

/-- The net behind the register is in range, and what the register shows was handed
over. -/
theorem values_fit_unless_handed_over_narrowed :
    (narrowed.state.net 1).value ≤ mask 4 ∧
      HandedOver (some (ofNetlist (flatten Library.builtin (storedConstant 8 200))).step)
        narrowed.netlist 1 200 := by
  obtain ⟨hnets, hpins, -⟩ :=
    values_fit_unless_handed_over narrowed_begins .refl (by decide +kernel)
  refine ⟨hnets 1 ((flatten Library.builtin (storedConstant 4 9)).nets.getD 1 default)
    (by decide +kernel), ?_⟩
  have hshown : (narrowed.state.pin ⟨1, 2⟩).value = 200 := by decide +kernel
  have hport : narrowed.netlist.port? ⟨1, 2⟩ =
      some ⟨⟨"q", .dataOut, 4⟩, some 1⟩ := by decide +kernel
  rcases hpins ⟨1, 2⟩ _ hport with hfits | ⟨-, hover⟩
  · exact absurd hfits (by decide +kernel)
  · rwa [hshown] at hover

/-- A register that is made narrower goes on holding and showing what it held. -/
theorem register_exceeds_width :
    ¬ ∀ simulation : Simulation, simulation.Reachable → simulation.netlist.Sized →
      ∀ index (placed : Part) value, simulation.netlist.parts[index]? = some placed →
        (simulation.state.part index).memory = .register value →
        value ≤ mask (placed.ports.getD 2 default).width := by
  intro h
  have hle := h narrowed narrowed_begins.reachable (by decide +kernel) 1
    ((flatten Library.builtin (storedConstant 4 9)).parts.getD 1 default) 200
    (by rw [narrowed_begins.netlist]; rfl) (by decide +kernel)
  revert hle
  decide +kernel

end Simulation

end Breadboard
