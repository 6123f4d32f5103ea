import Breadboard.Proofs.Bare
import Breadboard.Proofs.Idempotence
import Breadboard.Proofs.Marks

/-!
# Inputs that are not used

Two settles of a static circuit that differ in what one input holds, while the output of
that input is not used, come out the same wherever something is used
(`Netlist.Nudged.final`). The first one starts in a state that it leaves alone, so the
marks in that state say what each of its tasks looks at. The second one runs the same
tasks in the same order: which pins drive is decided by control inputs, and these are
always used. By induction along the settle, pins that are used show the same, and all
pins are the same apart from their values (`Netlist.Apart`).
-/

namespace Breadboard

namespace Netlist

variable {netlist : Netlist} {state other first second : State} {ref : PortRef} {port : Port}
  {placed : Part} {hidden part position index : Nat} {phase : Phase} {net : Net} {task : Task}
  {left right : List Task}

/-! ## Static circuits at rest -/

theorem stable_static (hflat : netlist.Flat) (hstatic : netlist.Static)
    (h : State.Sound netlist first) (hloose : State.Loose netlist first)
    (h' : State.Sound netlist second) (hagrees : second.Matches (netlist.final first)) :
    netlist.Stable second := by
  have hwired := hflat.wired
  have hfinal := sound_final hwired h
  have hsettled := (settled_final hflat hstatic h hloose).matches hwired hfinal h' hagrees
  refine ⟨fun hpart hbridge => Or.inl (hsettled.again (copy_ordinary hwired hpart hbridge) _),
    fun {index net source port} hnet hone hsource hport hplain => ?_⟩
  obtain ⟨found, hattached, houtput⟩ := hwired.source hnet hsource
  obtain rfl := Option.some.inj (hattached.found.symm.trans hport)
  cases htristate : net.tristate with
  | false =>
    rw [hagrees.net, net_static hflat hstatic h hnet, verdict_plain hnet htristate] at hone
    refine (hsettled.plain hnet htristate).1 source ?_
    rcases hsources : net.sources with _ | ⟨only, _ | _⟩
    · rw [hsources] at hsource
      cases hsource
    · rw [hsources] at hsource
      rw [List.mem_singleton.mp hsource]
    · rw [hsources] at hone
      simp at hone
  | true =>
    rw [hsettled.count hnet htristate] at hone
    obtain ⟨only, hdriving⟩ := List.length_eq_one_iff.mp hone
    have hmem : source ∈ net.driving netlist second := by
      refine List.mem_filter.mpr ⟨hsource, ?_⟩
      rw [isDriving_eq hport, hagrees.drives, final_eq]
      exact drives_plain hwired h (List.append_nil _).symm hport houtput hplain
    rw [hdriving] at hmem
    rw [List.mem_singleton.mp hmem]
    exact (hsettled.driven hnet htristate hdriving).1

/-- Settling a static circuit twice is settling it once. -/
theorem matches_static (hflat : netlist.Flat) (hstatic : netlist.Static)
    (h : State.Sound netlist first) (hloose : State.Loose netlist first)
    (h' : State.Sound netlist second) (hagrees : second.Matches (netlist.final first)) :
    (netlist.final second).Matches second :=
  matches_of_stable ⟨hflat, hstatic.loops, hstatic.crossing, h, h', hagrees,
    stable_static hflat hstatic h hloose h' hagrees⟩

/-! ## States apart -/

/-- The pin was used, or it is a side of a bridge, to which nothing is wired. -/
def Relied (netlist : Netlist) (state : State) (ref : PortRef) : Prop :=
  (state.pin ref).used = true ∨ ∃ placed, netlist.parts[ref.part]? = some placed ∧
    placed.device = .bridge ∧ (ref.port = 2 ∨ ref.port = 3)

/-- Two states that differ in what one part remembers and in the values of pins that
nothing relies on. -/
structure Apart (netlist : Netlist) (relied : PortRef → Prop) (hidden : Nat)
    (first second : State) : Prop where
  sound : State.Sound netlist first
  sound' : State.Sound netlist second
  bare : ∀ ref, (first.pin ref).bare = (second.pin ref).bare
  value : ∀ ref, relied ref → (first.pin ref).value = (second.pin ref).value
  memory : ∀ part, part ≠ hidden → (first.part part).memory = (second.part part).memory
  status : first.status = second.status

theorem Apart.isDriving {relied : PortRef → Prop} (h : netlist.Apart relied hidden first second)
    (ref : PortRef) : Net.isDriving netlist first ref = Net.isDriving netlist second ref :=
  Pin.drives_of_bare (h.bare ref) _

theorem Apart.driving {relied : PortRef → Prop} (h : netlist.Apart relied hidden first second)
    (net : Net) : net.driving netlist first = net.driving netlist second :=
  List.filter_congr fun ref _ => h.isDriving ref

theorem Apart.resolved {relied : PortRef → Prop} (h : netlist.Apart relied hidden first second)
    (ref : PortRef) : (first.pin ref).resolved = (second.pin ref).resolved :=
  (Pin.bare_eq_iff.mp (h.bare ref)).2.2.2

/-- Where there is no pin there is nothing to tell apart. -/
theorem Apart.value_of_port (h : netlist.Apart (netlist.Relied state) hidden first second)
    (ref : PortRef) (hused : ∀ port, netlist.port? ref = some port → (state.pin ref).used = true) :
    (first.pin ref).value = (second.pin ref).value := by
  cases hport : netlist.port? ref with
  | none => rw [State.pin_eq_default h.sound hport, State.pin_eq_default h.sound' hport]
  | some port => exact h.value ref (Or.inl (hused port hport))

/-- The second state has something else in an input whose output is not used in the
first, which has been settled. -/
structure Nudged (netlist : Netlist) (hidden : Nat) (first second : State) : Prop where
  flat : netlist.Flat
  static : netlist.Static
  rests : (netlist.final first).Matches first
  covered : netlist.Covered first
  apart : netlist.Apart (netlist.Relied first) hidden first second
  input : ∃ placed width initial, netlist.parts[hidden]? = some placed ∧
    placed.device = .input width initial
  unused : (first.pin ⟨hidden, 0⟩).used = false

namespace Nudged

/-! ### Phases -/

/-- An input that the phase did not ignore when it ran does not count as ignored. -/
theorem not_ignored (h : netlist.Nudged hidden first second)
    (hpart : netlist.parts[part]? = some placed)
    (htrace : netlist.trace first = left ++ .phase part placed.device.last :: right)
    (hport : netlist.port? ⟨part, index⟩ = some port) (houtput : port.type.output = false)
    (hedit : ((netlist.after first left).effect netlist part placed.device.last).edit index ≠
      .ignore) : (first.pin ⟨part, index⟩).isIgnored port.type = false := by
  have hwired := h.flat.wired
  obtain ⟨owner, howner, hplace⟩ := part_of_port hport
  obtain rfl := Option.some.inj (howner.symm.trans hpart)
  cases htristate : port.type.tristate with
  | true => simp [Pin.isIgnored, htristate]
  | false =>
    have hsplit : netlist.trace first = (left ++ [.phase part owner.device.last]) ++ right := by
      rw [htrace, List.append_assoc, List.singleton_append]
    have hturn := turn_final hwired h.apart.sound hsplit hport hpart
      (List.mem_append_right _ (List.mem_singleton_self _))
    have hlast := (not_mem_split htrace).1
    have hearly := enabled_early hwired h.apart.sound htrace hport hpart hlast
    have hfinal := (hwired.regularAt hpart).final ((netlist.after first left).part part) hplace
    rw [← State.effect_eq hpart (netlist.after first left) owner.device.last] at hfinal
    have henabled : (first.pin ⟨part, index⟩).enabled = true := by
      rw [← h.rests.enabled, ← (Prod.mk.inj hturn).1, pin_after_phase hwired h.apart.sound hport,
        if_pos rfl]
      generalize ((netlist.after first left).effect netlist part owner.device.last).edit index =
        edit at hfinal hedit
      cases hfinal with
      | keep => exact hearly.trans (by rw [htristate]; rfl)
      | ignore => exact absurd rfl hedit
      | set value hout => rw [houtput] at hout; cases hout
      | drive value hout => rw [houtput] at hout; cases hout
    simp [Pin.isIgnored, henabled]

/-- What an input holds does not matter, as long as its output is not used. -/
theorem shadows_input (h : netlist.Nudged hidden first second)
    (hsame : netlist.Apart (netlist.Relied first) hidden state other) :
    Effect.Shadows (fun index => ¬ netlist.Relied first ⟨hidden, index⟩)
      (state.effect netlist hidden position) (other.effect netlist hidden position) := by
  obtain ⟨placed, width, initial, hpart, hinput⟩ := h.input
  have hfits := hsame.sound.fits hpart
  have hfits' := hsame.sound'.fits hpart
  rw [hinput] at hfits hfits'
  have hfree : ¬ netlist.Relied first ⟨hidden, 0⟩ := by
    rintro (hused | ⟨owner, howner, hbridge, -⟩)
    · rw [h.unused] at hused
      cases hused
    · obtain rfl := Option.some.inj (howner.symm.trans hpart)
      rw [hinput] at hbridge
      cases hbridge
  rw [State.effect_eq hpart, State.effect_eq hpart, hinput]
  generalize state.part hidden = held at hfits ⊢
  generalize other.part hidden = held' at hfits' ⊢
  obtain ⟨pins, memory⟩ := held
  obtain ⟨pins', memory'⟩ := held'
  cases memory with
  | input value =>
    cases memory' with
    | input value' =>
      refine Effect.Shadows.put (.idle _ (.input value) (.input value')) ?_ rfl
      exact hfree
    | _ => exact hfits'.elim
  | _ => exact hfits.elim

/-- A bridge looks at control inputs and at its own sides. -/
theorem relied_bridge (h : netlist.Nudged hidden first second)
    (hpart : netlist.parts[part]? = some placed) (hbridge : placed.device = .bridge)
    (hphase : netlist.Ordinary part position phase) (hlook : index ∈ phase.reads ++ phase.anyOf) :
    netlist.Relied first ⟨part, index⟩ := by
  have hwired := h.flat.wired
  obtain ⟨owner, howner, hfound⟩ := part_of_phase hphase
  obtain rfl := Option.some.inj (hpart.symm.trans howner)
  rcases List.mem_append.mp hlook with hread | hany
  · refine Or.inl ?_
    cases hport : netlist.port? ⟨part, index⟩ with
    | none => rw [State.pin_eq_default h.apart.sound hport]
    | some port =>
      refine h.covered.control hphase hread hport ?_
      obtain ⟨owner, howner, hplace⟩ := part_of_port hport
      obtain rfl := Option.some.inj (hpart.symm.trans howner)
      have hplace : placed.ports[index]? = some port := hplace
      have hindex := bridge_read hwired hpart hbridge hfound hread
      rcases bridge_port hwired hpart hbridge hplace with ⟨-, htype⟩ | ⟨hside, -⟩
      · rw [htype]
        rfl
      · omega
  · exact Or.inr ⟨placed, hpart, hbridge, bridge_side hwired hpart hbridge hfound hany⟩

theorem effect_bridge (h : netlist.Nudged hidden first second)
    (hsame : netlist.Apart (netlist.Relied first) hidden state other)
    (hpart : netlist.parts[part]? = some placed) (hbridge : placed.device = .bridge)
    (hphase : netlist.Ordinary part position phase) :
    state.effect netlist part position = other.effect netlist part position := by
  obtain ⟨owner, howner, hfound⟩ := part_of_phase hphase
  obtain rfl := Option.some.inj (hpart.symm.trans howner)
  have hmemory : (state.part part).memory = (other.part part).memory := by
    refine hsame.memory part ?_
    rintro rfl
    obtain ⟨input, width, initial, hinput, hdevice⟩ := h.input
    obtain rfl := Option.some.inj (hinput.symm.trans hpart)
    rw [hbridge] at hdevice
    cases hdevice
  rw [State.effect_eq hpart, State.effect_eq hpart]
  refine (h.flat.wired.regularAt hpart).alike hfound ⟨congrArg _ hmemory, fun index hlook _ => ?_,
    fun index _ => hsame.resolved ⟨part, index⟩⟩
  refine hsame.value ⟨part, index⟩ (h.relied_bridge hpart hbridge hphase ?_)
  rw [hbridge] at hlook
  unfold Device.looked at hlook
  split at hlook
  · exact (List.mem_append.mp hlook).elim (List.mem_append_left _)
      fun hany => List.mem_append_right _ (List.mem_filter.mp hany).1
  · exact hlook

section

variable {placed : Part} (h : netlist.Nudged hidden first second)
  (hsame : netlist.Apart (netlist.Relied first) hidden (netlist.after first left) other)
  (hpart : netlist.parts[part]? = some placed) (hhidden : part ≠ hidden)
  (hbridge : placed.device ≠ .bridge)
  (hphase : netlist.Ordinary part placed.device.last phase)

include h hsame hpart hhidden hbridge hphase

/-- A phase that is needed does the same: all that it looks at has been used. -/
theorem effect_needed (htrace : netlist.trace first = left ++ .phase part placed.device.last :: right)
    (hneeds : first.Needs part phase) :
    (netlist.after first left).effect netlist part placed.device.last =
      other.effect netlist part placed.device.last := by
  obtain ⟨owner, howner, hfound⟩ := part_of_phase hphase
  obtain rfl := Option.some.inj (howner.symm.trans hpart)
  rw [State.effect_eq hpart, State.effect_eq hpart]
  refine (h.flat.built owner (List.mem_of_getElem? hpart)).effect_of_looked hfound
    (fun hdevice => absurd hdevice hbridge) (hsame.memory part hhidden)
    (fun index _ => hsame.resolved ⟨part, index⟩) fun index hread hedit =>
      hsame.value_of_port ⟨part, index⟩ fun port hport => ?_
  obtain ⟨owner', howner', hplace⟩ := part_of_port hport
  obtain rfl := Option.some.inj (howner'.symm.trans hpart)
  refine h.covered.phase hphase hneeds hread hport (h.not_ignored hpart htrace hport
    ((h.flat.wired.regularAt hpart).reads hfound hphase.2 hread hplace).2 ?_)
  rwa [State.effect_eq hpart]

/-- A phase that is not needed does the same but for the values that it writes. -/
theorem shadows_unneeded (hneeds : ¬ first.Needs part phase) :
    Effect.Shadows (fun index => ¬ netlist.Relied first ⟨part, index⟩)
        ((netlist.after first left).effect netlist part placed.device.last)
        (other.effect netlist part placed.device.last) ∧
      ((netlist.after first left).effect netlist part placed.device.last).memory =
        (other.effect netlist part placed.device.last).memory := by
  obtain ⟨owner, howner, hfound⟩ := part_of_phase hphase
  obtain rfl := Option.some.inj (howner.symm.trans hpart)
  have hbuilt := h.flat.built owner (List.mem_of_getElem? hpart)
  have hwrites : phase.writes ≠ [] := fun hnone => hneeds (Or.inl hnone)
  have hshadows := hbuilt.effect_shadows hfound hwrites hbridge (hsame.memory part hhidden)
    (fun index hread port hplace hctrl => hsame.value_of_port ⟨part, index⟩
      fun _ _ => h.covered.control hphase hread (port_of_part hpart hplace) hctrl)
    fun index _ => hsame.resolved ⟨part, index⟩
  rw [State.effect_eq hpart, State.effect_eq hpart]
  refine ⟨hshadows.mono fun index hindex hrelied => hneeds ?_, ?_⟩
  · rcases hrelied with hused | ⟨owner', howner', hdevice, -⟩
    · exact Or.inr ⟨index, hindex, hused⟩
    · obtain rfl := Option.some.inj (howner'.symm.trans hpart)
      exact absurd hdevice hbridge
  · have hprobe : owner.device ≠ .probe := fun hprobe =>
      hwrites (hbuilt.writes_probe hprobe hfound)
    have hkept : ∀ held, (owner.device.effect owner.ports owner.device.last held).memory =
        held.memory := fun held =>
      (((h.flat.wired.regularAt hpart).memory held hfound hphase.2).resolve_right fun hcases =>
        hcases.elim hprobe fun hfirst => hbridge hfirst.1)
    rw [hkept, hkept, hsame.memory part hhidden]

end

/-- Every phase does the same in both states but for values that nothing relies on. -/
theorem shadows (h : netlist.Nudged hidden first second)
    (hsame : netlist.Apart (netlist.Relied first) hidden (netlist.after first left) other)
    (htrace : netlist.trace first = left ++ .phase part position :: right) :
    Effect.Shadows (fun index => ¬ netlist.Relied first ⟨part, index⟩)
        ((netlist.after first left).effect netlist part position)
        (other.effect netlist part position) ∧
      (part ≠ hidden → ((netlist.after first left).effect netlist part position).memory =
        (other.effect netlist part position).memory) := by
  obtain ⟨phase, hphase⟩ := ordinary_of_split htrace
  obtain ⟨placed, hpart, -⟩ := part_of_phase hphase
  by_cases hhidden : part = hidden
  · subst hhidden
    exact ⟨h.shadows_input hsame, fun hne => absurd rfl hne⟩
  by_cases hbridge : placed.device = .bridge
  · rw [h.effect_bridge hsame hpart hbridge hphase]
    exact ⟨.refl .., fun _ => rfl⟩
  obtain rfl := (last_or_bridge h.flat.wired hpart hphase).resolve_right
    fun hfirst => hbridge hfirst.1
  by_cases hneeds : first.Needs part phase
  · rw [h.effect_needed hsame hpart hhidden hbridge hphase htrace hneeds]
    exact ⟨.refl .., fun _ => rfl⟩
  · obtain ⟨hshadows, hmemory⟩ := h.shadows_unneeded hsame hpart hhidden hbridge hphase hneeds
    exact ⟨hshadows, fun _ => hmemory⟩

theorem phase_step (h : netlist.Nudged hidden first second)
    (hsame : netlist.Apart (netlist.Relied first) hidden (netlist.after first left)
      (netlist.after second left))
    (htrace : netlist.trace first = left ++ .phase part position :: right) :
    netlist.Apart (netlist.Relied first) hidden
      (netlist.after first (left ++ [.phase part position]))
      (netlist.after second (left ++ [.phase part position])) := by
  have hwired := h.flat.wired
  obtain ⟨phase, hphase⟩ := ordinary_of_split htrace
  obtain ⟨placed, hpart, -⟩ := part_of_phase hphase
  obtain ⟨hshadows, hmemory⟩ := h.shadows hsame htrace
  have hsound := sound_after hwired h.apart.sound (left ++ [.phase part position])
  have hsound' := sound_after hwired h.apart.sound' (left ++ [.phase part position])
  refine ⟨hsound, hsound', fun ref => ?_, fun ref hrelied => ?_, fun other hother => ?_, ?_⟩
  · cases hport : netlist.port? ref with
    | none => rw [State.pin_eq_default hsound hport, State.pin_eq_default hsound' hport]
    | some port =>
      rw [pin_after_phase hwired h.apart.sound hport, pin_after_phase hwired h.apart.sound' hport]
      split
      · exact Edit.bare_apply_congr (hshadows.bare ref.port) (hsame.bare ref)
      · exact hsame.bare ref
  · cases hport : netlist.port? ref with
    | none => rw [State.pin_eq_default hsound hport, State.pin_eq_default hsound' hport]
    | some port =>
      rw [pin_after_phase hwired h.apart.sound hport, pin_after_phase hwired h.apart.sound' hport]
      split
      · next hpart =>
        subst hpart
        rw [hshadows.edit ref.port (not_not_intro hrelied), Edit.value_apply, Edit.value_apply,
          hsame.value ref hrelied]
      · exact hsame.value ref hrelied
  · rw [memory_after_phase hwired h.apart.sound hpart, memory_after_phase hwired h.apart.sound' hpart]
    split
    · next heq => exact hmemory (heq ▸ hother)
    · exact hsame.memory other hother
  · rw [status_after_phase hwired, status_after_phase hwired, hsame.status]
    exact Effect.status_congr hshadows.stop _

/-! ### Nets -/

/-- A reader of a net that is relied on has been used. -/
theorem used_of_target (h : netlist.Nudged hidden first second)
    (hnet : netlist.nets[index]? = some net) (htarget : ref ∈ net.targets)
    (hrelied : netlist.Relied first ref) : (first.pin ref).used = true := by
  refine hrelied.resolve_right ?_
  rintro ⟨placed, hpart, hbridge, hside⟩
  have hwired := h.flat.wired
  obtain ⟨port, hattached, -⟩ := hwired.target hnet htarget
  exact not_lists_of_unbound hwired hattached.found
    (unbound_side hwired h.static hpart hbridge hside hattached.found) ⟨net, hnet, Or.inr htarget⟩

/-- A net decides on the same value in both states if one of its readers is relied on. -/
theorem verdict (h : netlist.Nudged hidden first second)
    (hsame : netlist.Apart (netlist.Relied first) hidden (netlist.after first left) other)
    (htrace : netlist.trace first = left ++ .net index :: right)
    (hnet : netlist.nets[index]? = some net) :
    ((netlist.after first left).verdict netlist index).1.isSome =
        (other.verdict netlist index).1.isSome ∧
      ∀ target ∈ net.targets, netlist.Relied first target →
        ((netlist.after first left).verdict netlist index).1 = (other.verdict netlist index).1 := by
  have hwired := h.flat.wired
  have hshown : ∀ source ∈ net.sources,
      net.tristate = false ∨ Net.isDriving netlist first source = true →
      ∀ target ∈ net.targets, netlist.Relied first target →
        ((netlist.after first left).pin source).value = (other.pin source).value :=
    fun source hsource hdrives target htarget hrelied =>
      hsame.value source (Or.inl (h.covered.net hnet htarget
        (h.used_of_target hnet htarget hrelied) hsource hdrives))
  cases htristate : net.tristate with
  | true =>
    have hdriving := driving_after hwired h.apart.sound htrace hnet
    rw [counted_static hwired h.static hnet, h.rests.driving] at hdriving
    have hother := (hsame.driving net).symm.trans hdriving
    rw [verdict_tristate hnet htristate, verdict_tristate hnet htristate, hdriving, hother]
    rcases hcases : net.driving netlist first with _ | ⟨source, _ | _⟩
    · exact ⟨rfl, fun _ _ _ => rfl⟩
    · refine ⟨rfl, fun target htarget hrelied => ?_⟩
      obtain ⟨hsource, hdrives⟩ : source ∈ net.sources ∧ Net.isDriving netlist first source = true := by
        have hmem : source ∈ net.driving netlist first := by simp [hcases]
        exact List.mem_filter.mp hmem
      dsimp only
      rw [hshown source hsource (Or.inr hdrives) target htarget hrelied]
    · exact ⟨rfl, fun _ _ _ => rfl⟩
  | false =>
    rw [verdict_plain hnet htristate, verdict_plain hnet htristate]
    rcases hcases : net.sources with _ | ⟨source, _ | _⟩
    · exact ⟨rfl, fun _ _ _ => rfl⟩
    · refine ⟨rfl, fun target htarget hrelied => ?_⟩
      dsimp only
      rw [hshown source (by simp [hcases]) (Or.inl htristate) target htarget hrelied]
    · exact ⟨rfl, fun _ _ _ => rfl⟩

theorem net_step (h : netlist.Nudged hidden first second)
    (hsame : netlist.Apart (netlist.Relied first) hidden (netlist.after first left)
      (netlist.after second left))
    (htrace : netlist.trace first = left ++ .net index :: right) :
    netlist.Apart (netlist.Relied first) hidden (netlist.after first (left ++ [.net index]))
      (netlist.after second (left ++ [.net index])) := by
  have hwired := h.flat.wired
  obtain ⟨net, hnet⟩ : ∃ net, netlist.nets[index]? = some net := by
    have hmem : .net index ∈ netlist.trace first := by
      rw [htrace]
      exact List.mem_append_right _ (List.mem_cons_self ..)
    exact ⟨_, List.getElem?_eq_getElem (mem_tasks_net.mp (mem_trace.mp hmem))⟩
  obtain ⟨hdecides, hverdict⟩ := h.verdict hsame htrace hnet
  have hsound := sound_after hwired h.apart.sound (left ++ [.net index])
  have hsound' := sound_after hwired h.apart.sound' (left ++ [.net index])
  refine ⟨hsound, hsound', fun ref => ?_, fun ref hrelied => ?_, fun part hpart => ?_, ?_⟩
  · cases hport : netlist.port? ref with
    | none => rw [State.pin_eq_default hsound hport, State.pin_eq_default hsound' hport]
    | some port =>
      rw [pin_after_net hwired h.apart.sound hport, pin_after_net hwired h.apart.sound' hport]
      split
      · exact Pin.bare_hear (hsame.bare ref) hdecides
      · exact hsame.bare ref
  · cases hport : netlist.port? ref with
    | none => rw [State.pin_eq_default hsound hport, State.pin_eq_default hsound' hport]
    | some port =>
      rw [pin_after_net hwired h.apart.sound hport, pin_after_net hwired h.apart.sound' hport,
        getD_nets hnet]
      split
      · next htarget =>
        rw [hverdict ref htarget hrelied, Pin.value_hear, Pin.value_hear, hsame.value ref hrelied]
      · exact hsame.value ref hrelied
  · rw [after_snoc, after_snoc, State.perform, State.perform, State.memory_resolve,
      State.memory_resolve]
    exact hsame.memory part hpart
  · rw [after_snoc, after_snoc, State.perform, State.perform, State.status_resolve,
      State.status_resolve]
    exact hsame.status

/-! ### The whole settle -/

theorem begun (h : netlist.Nudged hidden first second) :
    netlist.Apart (netlist.Relied first) hidden (netlist.begun first) (netlist.begun second) := by
  have hsound : State.Sound netlist (netlist.begun first) := h.apart.sound.mapPins _
  have hsound' : State.Sound netlist (netlist.begun second) := h.apart.sound'.mapPins _
  refine ⟨hsound, hsound', fun ref => ?_, fun ref hrelied => ?_, fun part hpart => ?_,
    h.apart.status⟩
  · cases hport : netlist.port? ref with
    | none => rw [State.pin_eq_default hsound hport, State.pin_eq_default hsound' hport]
    | some port =>
      rw [pin_begun h.apart.sound hport, pin_begun h.apart.sound' hport]
      exact Pin.bare_eq_iff.mpr ⟨rfl, (Pin.bare_eq_iff.mp (h.apart.bare ref)).2⟩
  · cases hport : netlist.port? ref with
    | none => rw [State.pin_eq_default hsound hport, State.pin_eq_default hsound' hport]
    | some port =>
      rw [pin_begun h.apart.sound hport, pin_begun h.apart.sound' hport]
      exact h.apart.value ref hrelied
  · exact (State.memory_mapPins h.apart.sound _ part).trans
      ((h.apart.memory part hpart).trans (State.memory_mapPins h.apart.sound' _ part).symm)

theorem step (h : netlist.Nudged hidden first second)
    (hsame : netlist.Apart (netlist.Relied first) hidden (netlist.after first left)
      (netlist.after second left)) (htrace : netlist.trace first = left ++ task :: right) :
    netlist.Apart (netlist.Relied first) hidden (netlist.after first (left ++ [task]))
      (netlist.after second (left ++ [task])) := by
  cases task with
  | phase part position => exact h.phase_step hsame htrace
  | net index => exact h.net_step hsame htrace

theorem of_prefix (h : netlist.Nudged hidden first second)
    (htrace : netlist.trace first = left ++ right) :
    netlist.Apart (netlist.Relied first) hidden (netlist.after first left)
      (netlist.after second left) := by
  induction left using List.reverseRecOn generalizing right with
  | nil => exact h.begun
  | append_singleton left task ih =>
    rw [List.append_assoc, List.singleton_append] at htrace
    exact h.step (ih htrace) htrace

theorem agree (h : netlist.Nudged hidden first second)
    (htrace : netlist.trace first = left ++ task :: right) :
    netlist.Agree first second left task := by
  have hsame := h.step (h.of_prefix htrace) htrace
  intro trigger
  cases trigger with
  | fired => rfl
  | driving port =>
    cases task with
    | phase part position => exact hsame.isDriving ⟨part, port⟩
    | net index => rfl

theorem executed_eq (h : netlist.Nudged hidden first second) :
    netlist.executed second = netlist.executed first :=
  executed_congr fun htrace _ => h.agree htrace

theorem trace_eq (h : netlist.Nudged hidden first second) :
    netlist.trace second = netlist.trace first := by
  rw [trace, trace, h.executed_eq]

theorem final (h : netlist.Nudged hidden first second) :
    netlist.Apart (netlist.Relied first) hidden (netlist.final first) (netlist.final second) := by
  rw [final_eq, final_eq, h.trace_eq]
  exact h.of_prefix (List.append_nil _).symm

end Nudged

end Netlist

end Breadboard
