import Breadboard.Proofs.Looks
import Breadboard.Proofs.Voices

/-!
# What phases do apart from values

The values that a part reads decide on the values that it writes; whether it drives,
which input it ignores and which way its pins face is decided by control inputs and by
resolved flags alone (`Builtin.effect_shadows`). Where all that a part looks at is the
same it does the same, and a multiplexer does not look at the input that it ignores
(`Part.Built.effect_of_looked`).
-/

namespace Breadboard

namespace Pin

variable {first second : Pin}

/-- The pin apart from its value. -/
def bare (pin : Pin) : Pin :=
  { pin with value := 0 }

theorem bare_eq_iff : first.bare = second.bare ↔
    first.enabled = second.enabled ∧ first.facing = second.facing ∧ first.used = second.used ∧
      first.resolved = second.resolved := by
  simp [bare]

theorem eq_of_bare (hbare : first.bare = second.bare) (hvalue : first.value = second.value) :
    first = second := by
  obtain ⟨henabled, hfacing, hused, hresolved⟩ := bare_eq_iff.mp hbare
  obtain ⟨_, _, _, _, _⟩ := first
  obtain ⟨_, _, _, _, _⟩ := second
  simp_all

theorem drives_of_bare (hbare : first.bare = second.bare) (type : PortType) :
    first.drives type = second.drives type := by
  obtain ⟨henabled, hfacing, -⟩ := bare_eq_iff.mp hbare
  rw [drives, drives, henabled, hfacing]

theorem bare_hear {decided other : Option Word} (hbare : first.bare = second.bare)
    (hdecided : decided.isSome = other.isSome) :
    (first.hear decided).bare = (second.hear other).bare := by
  obtain ⟨henabled, hfacing, hused, -⟩ := bare_eq_iff.mp hbare
  rw [bare_eq_iff]
  simp [henabled, hfacing, hused, hdecided]

end Pin

namespace Edit

variable {first second : Edit}

/-- The edit apart from the value that it gives. -/
def bare : Edit → Edit
  | .set _ => .set 0
  | .drive both value => .drive both (value.map fun _ => 0)
  | edit => edit

theorem bare_apply (edit : Edit) (pin : Pin) :
    (edit.apply pin).bare = (edit.bare.apply pin.bare).bare := by
  cases edit with
  | drive both value => cases value <;> rfl
  | _ => rfl

theorem bare_apply_congr {pin other : Pin} (hedit : first.bare = second.bare)
    (hpin : pin.bare = other.bare) : (first.apply pin).bare = (second.apply other).bare := by
  rw [bare_apply, bare_apply second, hedit, hpin]

end Edit

/-- Two effects that differ at most in the values that they give to certain pins, and in
what the part remembers. -/
structure Effect.Shadows (loose : Nat → Prop) (first second : Effect) : Prop where
  bare : ∀ index, (first.edit index).bare = (second.edit index).bare
  edit : ∀ index, ¬ loose index → first.edit index = second.edit index
  stop : first.stop = second.stop

/-- Whether a circuit stops is up to the part. -/
theorem Effect.status_congr {first second : Effect} (hstop : first.stop = second.stop)
    (status : Status) : first.status status = second.status status := by
  obtain ⟨_, _, stop⟩ := first
  obtain ⟨_, _, other⟩ := second
  obtain rfl : stop = other := hstop
  rfl

namespace Effect.Shadows

variable {loose weak : Nat → Prop} {first second : Effect} {edit other : Edit} {index : Nat}

theorem refl (loose : Nat → Prop) (effect : Effect) : Shadows loose effect effect :=
  ⟨fun _ => rfl, fun _ _ => rfl, rfl⟩

theorem idle (loose : Nat → Prop) (memory other : Memory) :
    Shadows loose (.idle memory) (.idle other) :=
  ⟨fun _ => rfl, fun _ _ => rfl, rfl⟩

theorem mono (h : Shadows loose first second) (hweak : ∀ index, loose index → weak index) :
    Shadows weak first second :=
  ⟨h.bare, fun index hindex => h.edit index (mt (hweak index) hindex), h.stop⟩

theorem put (h : Shadows loose first second) (hindex : loose index)
    (hbare : edit.bare = other.bare) :
    Shadows loose (first.put index edit) (second.put index other) := by
  refine ⟨fun place => ?_, fun place hplace => ?_, h.stop⟩
  · rw [edit_put, edit_put]
    split
    · exact hbare
    · exact h.bare place
  · have hne : place ≠ index := fun heq => hplace (heq ▸ hindex)
    rw [edit_put, edit_put, if_neg hne, if_neg hne]
    exact h.edit place hplace

end Effect.Shadows

namespace Builtin

variable {builtin : Builtin} {args : Json} {placed : List Port} {first second : PartState}
  {phase : Phase}

/-- What a boundary port passes on may differ; whether it passes anything on may not. -/
theorem passed_map (inbound : Bool) (value : Word) (bound : Bool) {pin other : Pin}
    (hresolved : pin.resolved = other.resolved) :
    (Device.passed inbound value bound pin).map (fun _ => (0 : Word)) =
      (Device.passed inbound value bound other).map fun _ => 0 := by
  rw [Device.passed, Device.passed, hresolved]
  cases bound
  · rfl
  · cases other.resolved <;> rfl

theorem effect_shadows_boundary
    (hphase : (boundary.assemble args).phases[0]? = some phase)
    (hresolved : ∀ index ∈ phase.reads,
      (first.pin index).resolved = (second.pin index).resolved) :
    Effect.Shadows (· ∈ phase.writes)
      ((boundary.assemble args).device.effect placed 0 first)
      ((boundary.assemble args).device.effect placed 0 second) := by
  obtain ⟨inbound, hinbound⟩ : ∃ inbound, (Boundary.outerDecl args "").type.input = inbound :=
    ⟨_, rfl⟩
  obtain ⟨hreads, hwrites⟩ : phase.reads = [if inbound then 1 else 0] ∧
      phase.writes = [if inbound then 0 else 1] := by
    cases inbound <;>
      simp only [assemble, hinbound, Bool.false_eq_true, if_false, if_true,
        List.getElem?_cons_zero, Option.some.injEq] at hphase <;>
      subst hphase <;> exact ⟨rfl, rfl⟩
  have hshown := passed_map inbound (trim (args.width "width" 1) (args.word "value" 0))
    (placed.getD (if inbound then 1 else 0) default).bound
    (hresolved (if inbound then 1 else 0) (hreads ▸ List.mem_singleton_self _))
  have hsides : (if inbound then (1, 0) else (0, 1) : Nat × Nat) =
      (if inbound then 1 else 0, if inbound then 0 else 1) := by
    cases inbound <;> rfl
  simp only [assemble, Device.effect, hinbound]
  rw [hsides, hwrites]
  dsimp only
  generalize Device.passed inbound _ _ (first.pin _) = shown at hshown ⊢
  generalize Device.passed inbound _ _ (second.pin _) = other at hshown ⊢
  generalize (if inbound then 0 else 1 : Nat) = far
  cases (Boundary.outerDecl args "").type.tristate with
  | true =>
    have hdrive : ∀ both, (Edit.drive both shown).bare = (Edit.drive both other).bare :=
      fun both => congrArg (Edit.drive both) hshown
    exact (Effect.Shadows.idle ..).put (List.mem_singleton_self _) (hdrive _)
  | false =>
    cases shown <;> cases other
    · exact .idle ..
    · cases hshown
    · cases hshown
    · exact (Effect.Shadows.idle ..).put (List.mem_singleton_self _) rfl

/-- Control inputs and resolved flags decide on everything but values. -/
theorem effect_shadows
    (hphase : (builtin.assemble args).phases[(builtin.assemble args).device.last]? = some phase)
    (hwrites : phase.writes ≠ []) (hbridge : builtin ≠ .bridge)
    (hmemory : first.memory = second.memory)
    (hcontrol : ∀ index ∈ phase.reads, ∀ decl, (builtin.assemble args).ports[index]? = some decl →
      decl.type.ctrl = true → (first.pin index).value = (second.pin index).value)
    (hresolved : ∀ index ∈ phase.reads,
      (first.pin index).resolved = (second.pin index).resolved) :
    Effect.Shadows (· ∈ phase.writes)
      ((builtin.assemble args).device.effect placed (builtin.assemble args).device.last first)
      ((builtin.assemble args).device.effect placed (builtin.assemble args).device.last second) := by
  obtain ⟨firstPins, memory⟩ := first
  obtain ⟨secondPins, _⟩ := second
  obtain rfl := hmemory
  cases builtin with
  | constant => exact .refl ..
  | input => cases memory <;> exact .refl ..
  | register => cases memory <;> exact .refl ..
  | boundary => exact effect_shadows_boundary hphase hresolved
  | bridge => exact absurd rfl hbridge
  | probe | halt =>
    obtain rfl := Option.some.inj hphase
    exact absurd rfl hwrites
  | mux =>
    obtain rfl := Option.some.inj hphase
    have hsel := hcontrol 2 (by simp) _ rfl rfl
    simp only [assemble, Device.effect, hsel]
    split <;> exact (Effect.Shadows.refl ..).put (by simp) rfl
  | adder =>
    obtain rfl := Option.some.inj hphase
    simp only [assemble, Device.effect]
    split
    · refine Effect.Shadows.put (Effect.Shadows.put (.refl _ (.idle memory)) ?_ rfl) ?_ rfl
      · simp
      · simp
    · exact (Effect.Shadows.refl _ (.idle memory)).put (by simp) rfl
  | buffer =>
    obtain rfl := Option.some.inj hphase
    have henable := hcontrol 0 (by simp) _ rfl rfl
    simp only [assemble, Device.effect, henable]
    refine (Effect.Shadows.refl ..).put (by simp) ?_
    split <;> rfl
  | ram =>
    obtain rfl := Option.some.inj hphase
    have hwrite := hcontrol 2 (by simp) _ rfl rfl
    have hread := hcontrol 3 (by simp) _ rfl rfl
    cases memory with
    | ram cells =>
      simp only [assemble, Device.effect, Device.last, if_true, hwrite, hread]
      refine (Effect.Shadows.refl ..).put (by simp) ?_
      split <;> rfl
    | _ => exact .refl ..

/-- A multiplexer does not look at the input that it ignores. -/
theorem effect_mux {held other : PartState} (hmemory : held.memory = other.memory)
    (hlooked : ∀ index ∈ [0, 1, 2],
      (Device.mux.effect placed 0 held).edit index ≠ .ignore →
        (held.pin index).value = (other.pin index).value) :
    Device.mux.effect placed 0 held = Device.mux.effect placed 0 other := by
  have hsel : (held.pin 2).value = (other.pin 2).value := by
    refine hlooked 2 (by simp) ?_
    simp only [Device.effect]
    split <;> simp
  simp only [Device.effect, hsel, hmemory] at hlooked ⊢
  split
  · next hzero =>
    rw [hlooked 0 (by simp) (by simp [hzero])]
  · next hone =>
    rw [hlooked 1 (by simp) (by simp [hone])]

end Builtin

namespace Device

variable {device : Device} {effect : Effect} {edit : Edit} {index target : Nat}

theorem idle_ne_ignore {memory : Memory} : (Effect.idle memory).edit index ≠ .ignore := by
  simp

theorem put_ne_ignore (hself : edit ≠ .ignore) (hrest : effect.edit index ≠ .ignore) :
    (effect.put target edit).edit index ≠ .ignore := by
  rw [Effect.edit_put]
  split
  · exact hself
  · exact hrest

/-- Only multiplexers ignore an input. -/
theorem edit_ne_ignore (hmux : device ≠ .mux) (ports : List Port) (position : Nat)
    (held : PartState) (index : Nat) :
    (device.effect ports position held).edit index ≠ .ignore := by
  obtain ⟨pins, memory⟩ := held
  cases device with
  | mux => exact absurd rfl hmux
  | inert | probe | scripted => exact idle_ne_ignore
  | halt => simp [Device.effect]
  | constant | buffer => exact put_ne_ignore (by simp) idle_ne_ignore
  | input =>
    cases memory with
    | input value => exact put_ne_ignore (by simp) idle_ne_ignore
    | _ => exact idle_ne_ignore
  | adder =>
    simp only [Device.effect]
    split
    · exact put_ne_ignore (by simp) (put_ne_ignore (by simp) idle_ne_ignore)
    · exact put_ne_ignore (by simp) idle_ne_ignore
  | register =>
    cases memory with
    | register value =>
      simp only [Device.effect]
      split
      · exact put_ne_ignore (by simp) idle_ne_ignore
      · split <;> exact idle_ne_ignore
    | _ => exact idle_ne_ignore
  | ram =>
    cases memory with
    | ram cells =>
      simp only [Device.effect]
      split
      · exact put_ne_ignore (by simp) idle_ne_ignore
      · split <;> exact idle_ne_ignore
    | _ => exact idle_ne_ignore
  | bridge =>
    cases memory with
    | bridge enabled forward =>
      simp only [Device.effect]
      split <;> exact put_ne_ignore (by simp) (put_ne_ignore (by simp) idle_ne_ignore)
    | _ => exact idle_ne_ignore
  | boundary inbound tristate value =>
    simp only [Device.effect]
    split
    · exact put_ne_ignore (by simp) idle_ne_ignore
    · split
      · exact put_ne_ignore (by simp) idle_ne_ignore
      · exact idle_ne_ignore

end Device

namespace Part

variable {part : Part} {position : Nat} {phase : Phase} {first second : PartState}

/-- A phase that waits for what it reads does the same where all that it looks at is the
same. -/
theorem Built.effect_of_looked (h : part.Built) (hphase : part.phases[position]? = some phase)
    (hcopy : part.device = .bridge → position ≠ 1)
    (hmemory : first.memory = second.memory)
    (hresolved : ∀ index ∈ phase.reads, (first.pin index).resolved = (second.pin index).resolved)
    (hvalue : ∀ index ∈ phase.reads,
      (part.device.effect part.ports position first).edit index ≠ .ignore →
        (first.pin index).value = (second.pin index).value) :
    part.device.effect part.ports position first = part.device.effect part.ports position second := by
  by_cases hmux : part.device = .mux
  · obtain ⟨rfl, hreads⟩ : position = 0 ∧ phase.reads = [0, 1, 2] := by
      rcases h.cases with ⟨builtin, args, hmade⟩ | ⟨hinert, -⟩
      · rw [hmade.phases] at hphase
        rw [hmade.device] at hmux
        cases builtin with
        | mux =>
          cases position with
          | zero => exact ⟨rfl, by rw [← Option.some.inj hphase]⟩
          | succ position => cases hphase
        | _ => cases hmux
      · rw [hmux] at hinert
        cases hinert
    rw [hreads] at hvalue
    rw [hmux] at hvalue ⊢
    exact Builtin.effect_mux hmemory hvalue
  · exact h.regular.effect_congr hphase hcopy (congrArg _ hmemory) hresolved fun index hread _ =>
      hvalue index hread (Device.edit_ne_ignore hmux part.ports position first index)

theorem Built.writes_probe (h : part.Built) (hprobe : part.device = .probe)
    (hphase : part.phases[position]? = some phase) : phase.writes = [] := by
  rcases h.cases with ⟨builtin, args, hmade⟩ | ⟨hinert, -⟩
  · rw [hmade.phases] at hphase
    rw [hmade.device] at hprobe
    cases builtin with
    | probe =>
      cases position with
      | zero => rw [← Option.some.inj hphase]
      | succ position => cases hphase
    | _ => cases hprobe
  · rw [hprobe] at hinert
    cases hinert

/-- A phase with outputs does the same but for the values that it gives them, where the
control inputs and the resolved flags are the same. -/
theorem Built.effect_shadows (h : part.Built)
    (hphase : part.phases[part.device.last]? = some phase) (hwrites : phase.writes ≠ [])
    (hbridge : part.device ≠ .bridge) (hmemory : first.memory = second.memory)
    (hcontrol : ∀ index ∈ phase.reads, ∀ port, part.ports[index]? = some port →
      port.type.ctrl = true → (first.pin index).value = (second.pin index).value)
    (hresolved : ∀ index ∈ phase.reads,
      (first.pin index).resolved = (second.pin index).resolved) :
    Effect.Shadows (· ∈ phase.writes) (part.device.effect part.ports part.device.last first)
      (part.device.effect part.ports part.device.last second) := by
  rcases h.cases with ⟨builtin, args, hmade⟩ | ⟨hinert, -⟩
  · rw [hmade.phases, hmade.device] at hphase
    rw [hmade.device]
    refine Builtin.effect_shadows hphase hwrites ?_ hmemory (fun index hread decl hdecl hctrl => ?_)
      hresolved
    · rintro rfl
      exact hbridge hmade.device
    · rw [← hmade.ports, List.getElem?_map] at hdecl
      obtain ⟨port, hport, rfl⟩ := Option.map_eq_some_iff.mp hdecl
      exact hcontrol index hread port hport hctrl
  · rw [hinert]
    exact ⟨fun _ => rfl, fun _ _ => rfl, rfl⟩

end Part

end Breadboard
