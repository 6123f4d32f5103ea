import Breadboard.Proofs.Cover
import Breadboard.Proofs.Spoken
import Mathlib.Data.List.GetD
import Mathlib.Data.List.Induction

/-!
# Two settles of one circuit

Two states of a static circuit may differ in everything but what inputs, registers
and memories hold. If every bus has one driver after the first settle, both settles
come out the same (`Twins.observed`), and the clock edge sees the same
(`Twins.edges`).

The two settles need not run their tasks in the same order. Compared is what each
task comes to in the end (`SameTask`), by induction along the first settle: what a
task depends on has run before it.
-/

namespace Breadboard

namespace Netlist

/-- The states hold the same in inputs, registers and memories. -/
def SameStored (netlist : Netlist) (first second : State) : Prop :=
  ∀ part placed, netlist.parts[part]? = some placed → placed.device.stores = true →
    (first.part part).memory = (second.part part).memory

/-- Two states that hold the same, whatever they have been through, and a settle of
the first one after which every bus has one driver. -/
structure Twins (netlist : Netlist) (first second : State) : Prop where
  flat : netlist.Flat
  static : netlist.Static
  sound : State.Sound netlist first
  sound' : State.Sound netlist second
  blank : State.Blank netlist first
  blank' : State.Blank netlist second
  stored : netlist.SameStored first second
  single : ∀ {index : Nat} {net : Net}, netlist.nets[index]? = some net → net.tristate = true →
    ((netlist.final first).net index).enabledCount = 1

/-- The task comes out the same in both settles. -/
def SameTask (netlist : Netlist) (first second : State) : Task → Prop
  | .net index =>
    (netlist.final first).verdict netlist index = (netlist.final second).verdict netlist index
  | .phase part position =>
    let done (state : State) := (netlist.final state).effect netlist part position
    (done first).edit = (done second).edit ∧
      ((netlist.parts.getD part default).device.remembers = true →
        (done first).memory = (done second).memory)

namespace Twins

variable {netlist : Netlist} {first second : State} {ref : PortRef} {port : Port} {placed : Part}
  {index part position : Nat} {net : Net} {phase : Phase} {left right : List Task}

/-- Every net decides on a value. -/
theorem exists_verdict (h : netlist.Twins first second) (hnet : netlist.nets[index]? = some net) :
    ∃ word, ((netlist.final first).verdict netlist index).1 = some word := by
  cases htristate : net.tristate with
  | true =>
    have hone := h.single hnet htristate
    rw [net_static h.flat h.static h.sound hnet] at hone
    exact Option.isSome_iff_exists.mp (decides_of_one hnet hone)
  | false =>
    rw [verdict_plain hnet htristate]
    rcases net.sources with _ | ⟨source, _ | _⟩ <;> exact ⟨_, rfl⟩

/-- What the readers of a net see. -/
theorem look_target (h : netlist.Twins first second) (hnet : netlist.nets[index]? = some net)
    (htarget : ref ∈ net.targets) (hsame : netlist.SameTask first second (.net index)) :
    ∃ word, (netlist.final first).look ref = (word, true) ∧
      (netlist.final second).look ref = (word, true) := by
  obtain ⟨word, hword⟩ := h.exists_verdict hnet
  obtain ⟨held, hlook⟩ := target_static h.flat h.static h.sound hnet htarget
  obtain ⟨held', hlook'⟩ := target_static h.flat h.static h.sound' hnet htarget
  rw [hword] at hlook
  rw [← hsame, hword] at hlook'
  exact ⟨word, hlook, hlook'⟩

/-- An input that nothing is wired to. -/
theorem look_untold (h : netlist.Twins first second) (hport : netlist.port? ref = some port)
    (huntold : netlist.Untold ref) (houtput : port.type.output = false) :
    (netlist.final first).look ref = (0, true) ∧ (netlist.final second).look ref = (0, true) := by
  obtain ⟨placed, hpart, hplace⟩ := part_of_port hport
  have hmute := (h.flat.wired.regularAt hpart).mute_of_input hplace houtput
  have hblank := blank_final h.flat h.sound h.blank
  have hblank' := blank_final h.flat h.sound' h.blank'
  rw [State.look, State.look, hblank.resolved hport huntold, hblank'.resolved hport huntold,
    hblank.value hport hpart huntold hmute, hblank'.value hport hpart huntold hmute]
  exact ⟨rfl, rfl⟩

/-- What a phase reads. -/
theorem look_read (h : netlist.Twins first second)
    (htrace : netlist.trace first = left ++ .phase part position :: right)
    (hsame : ∀ task ∈ left, netlist.SameTask first second task)
    (hphase : netlist.Ordinary part position phase) (hread : index ∈ phase.reads)
    (hanyOf : phase.anyOf = []) :
    ∃ word, (netlist.final first).look ⟨part, index⟩ = (word, true) ∧
      (netlist.final second).look ⟨part, index⟩ = (word, true) := by
  have hwired := h.flat.wired
  cases hport : netlist.port? ⟨part, index⟩ with
  | none =>
    refine ⟨0, ?_, ?_⟩
    · rw [State.look, State.pin_eq_default (sound_final hwired h.sound) hport]
    · rw [State.look, State.pin_eq_default (sound_final hwired h.sound') hport]
  | some port =>
    obtain ⟨placed, hpart, hplace⟩ := part_of_port hport
    obtain ⟨owner, howner, hfound⟩ := part_of_phase hphase
    obtain rfl := Option.some.inj (howner.symm.trans hpart)
    obtain ⟨hinput, houtput⟩ := (hwired.regularAt hpart).reads hfound hphase.2 hread hplace
    cases hbound : port.net with
    | none =>
      exact ⟨0, h.look_untold hport (untold_of_unbound hwired hport hbound) houtput⟩
    | some net =>
      have hleft := net_mem_left hwired h.static.loops h.static.crossing htrace hphase hread hanyOf
        hport hbound
      obtain ⟨found, hnet, htarget, -⟩ := hwired.known hport hbound
      exact h.look_target hnet (htarget hinput) (hsame _ hleft)

/-! ### Phases -/

/-- What a phase recalls of its memory. -/
theorem recalled (h : netlist.Twins first second) (hpart : netlist.parts[part]? = some placed)
    (hcopy : placed.device = .bridge → position = 0) (hremembers : placed.device.remembers = true) :
    placed.device.recalled position ((netlist.final first).part part).memory =
      placed.device.recalled position ((netlist.final second).part part).memory := by
  have hwired := h.flat.wired
  rcases placed.device.remembers_cases hremembers with hstores | hprobe | hbridge
  · rw [memory_stored hwired h.sound hpart hstores, memory_stored hwired h.sound' hpart hstores,
      h.stored part placed hpart hstores]
  · rw [hprobe, Device.recalled, Device.recalled]
  · obtain ⟨enabled, forward, hmemory⟩ := bridge_memory hpart hbridge (sound_final hwired h.sound)
    obtain ⟨enabled', forward', hmemory'⟩ :=
      bridge_memory hpart hbridge (sound_final hwired h.sound')
    rw [hmemory, hmemory', hbridge, hcopy hbridge, Device.recalled, Device.recalled]

/-- The copy phase of a bridge finds nothing on either side. -/
theorem copy (h : netlist.Twins first second) (hpart : netlist.parts[part]? = some placed)
    (hbridge : placed.device = .bridge)
    (hsame : netlist.SameTask first second (.phase part 0)) :
    (netlist.final first).effect netlist part 1 = (netlist.final second).effect netlist part 1 := by
  have hwired := h.flat.wired
  have hphase := turn_ordinary hwired hpart hbridge
  -- the bridge remembers what its first phase found
  have hturn : ∀ {state : State}, State.Sound netlist state →
      ((netlist.final state).part part).memory =
        ((netlist.final state).effect netlist part 0).memory := by
    intro state hsound
    obtain ⟨left, right, htrace⟩ := exists_split_phase hphase state
    rw [memory_turn hwired hsound hpart hbridge htrace,
      effect_static hwired h.static hsound htrace hpart]
  have hremembers : (netlist.parts.getD part default).device.remembers = true := by
    rw [List.getD_eq_getElem?_getD, hpart, Option.getD_some, hbridge]
    rfl
  have hmemory : ((netlist.final first).part part).memory =
      ((netlist.final second).part part).memory :=
    (hturn h.sound).trans ((hsame.2 hremembers).trans (hturn h.sound').symm)
  obtain ⟨enabled, forward, hheld⟩ := bridge_memory hpart hbridge (sound_final hwired h.sound)
  have hheld' := hmemory.symm.trans hheld
  have huntold : ∀ side, side = 2 ∨ side = 3 → netlist.Untold ⟨part, side⟩ := by
    intro side hside index htarget
    obtain ⟨port, hport⟩ : ∃ port, netlist.port? ⟨part, side⟩ = some port := by
      obtain ⟨near, far, hnear, hfar, -⟩ := bridge_ports hwired hpart hbridge true
      rcases hside with rfl | rfl
      · exact ⟨near, hnear⟩
      · exact ⟨far, hfar⟩
    exact untold_of_unbound hwired hport (unbound_side hwired h.static hpart hbridge hside hport)
      index htarget
  obtain ⟨source, -, hsource, -⟩ := bridge_ports hwired hpart hbridge forward
  have hside := huntold _ (side_or forward).1
  have hblank := blank_final h.flat h.sound h.blank
  have hblank' := blank_final h.flat h.sound' h.blank'
  have hcopied : ((netlist.final first).part part).copied =
      ((netlist.final second).part part).copied := by
    have hleft := huntold 2 (Or.inl rfl)
    have hright := huntold 3 (Or.inr rfl)
    have hvalue := hblank.sides hpart hbridge hleft hright forward
    have hvalue' := hblank'.sides hpart hbridge hleft hright forward
    have hresolved := hblank.resolved hsource hside
    have hresolved' := hblank'.resolved hsource hside
    rw [State.pin] at hvalue hvalue' hresolved hresolved'
    rw [PartState.copied, PartState.copied, hheld, hheld']
    dsimp only
    rw [hvalue, hvalue', hresolved, hresolved']
  rw [State.effect_eq hpart, State.effect_eq hpart, hbridge, Device.effect_copy _ hheld,
    Device.effect_copy _ hheld', hcopied]

theorem phase_step (h : netlist.Twins first second)
    (htrace : netlist.trace first = left ++ .phase part position :: right)
    (hsame : ∀ task ∈ left, netlist.SameTask first second task) :
    netlist.SameTask first second (.phase part position) := by
  have hwired := h.flat.wired
  obtain ⟨phase, hphase⟩ := ordinary_of_split htrace
  obtain ⟨placed, hpart, hfound⟩ := part_of_phase hphase
  have hregular := hwired.regularAt hpart
  by_cases hcopy : placed.device = .bridge ∧ position = 1
  · obtain ⟨hbridge, rfl⟩ := hcopy
    have hbefore := turn_before_copy hwired hpart hbridge first
    have heffect := h.copy hpart hbridge (hsame _ ((before_iff_mem_left htrace).mp hbefore))
    exact ⟨congrArg Effect.edit heffect, fun _ => congrArg Effect.memory heffect⟩
  · have hearly : placed.device = .bridge → position = 0 := by
      intro hbridge
      rcases last_or_bridge hwired hpart hphase with rfl | ⟨-, hzero⟩
      · exact absurd ⟨hbridge, by rw [hbridge]; rfl⟩ hcopy
      · exact hzero
    have hwaits : placed.device = .bridge → position ≠ 1 :=
      fun hbridge hone => hcopy ⟨hbridge, hone⟩
    have hlook : ∀ index ∈ phase.reads, (netlist.final first).look ⟨part, index⟩ =
        (netlist.final second).look ⟨part, index⟩ := by
      intro index hread
      obtain ⟨word, hfirst, hsecond⟩ := h.look_read htrace hsame hphase hread
        (hregular.anyOf_eq_nil hfound hwaits)
      exact hfirst.trans hsecond.symm
    have hcongr := hregular.edit_congr hfound hwaits (h.recalled hpart hearly)
      (fun index hread => (Prod.mk.inj (hlook index hread)).2)
      (fun index hread => (Prod.mk.inj (hlook index hread)).1)
    unfold SameTask
    dsimp only
    rw [State.effect_eq hpart, State.effect_eq hpart, List.getD_eq_getElem?_getD, hpart,
      Option.getD_some]
    exact hcongr

/-! ### Nets -/

/-- A pin that drives was told a value by its part, or never is. -/
theorem spoken (h : netlist.Twins first second)
    (hsame : ∀ task ∈ left, netlist.SameTask first second task)
    (hport : netlist.port? ref = some port) (hpart : netlist.parts[ref.part]? = some placed)
    (htrace : netlist.trace first = left ++ .phase ref.part placed.device.last :: right)
    (hdrives : ((netlist.final first).pin ref).drives port.type = true) :
    netlist.Spoken (netlist.final first) ref := by
  have hwired := h.flat.wired
  have hregular := hwired.regularAt hpart
  obtain ⟨owner, howner, hplace⟩ := part_of_port hport
  obtain rfl := Option.some.inj (howner.symm.trans hpart)
  rw [drives_last h.flat h.static h.sound hport] at hdrives
  obtain ⟨houtput, hdrives⟩ := Bool.and_eq_true_iff.mp hdrives
  cases htristate : port.type.tristate with
  | true =>
    rw [htristate] at hdrives
    exact Or.inl hdrives
  | false =>
    rcases hregular.mute_or_set hplace htristate with hmute | hset
    · refine Or.inr ⟨untold_of_output hwired hport ?_, owner, hpart, hmute⟩
      cases hinput : port.type.input with
      | false => rfl
      | true =>
        have hboth := tristate_of_bidirectional hwired hport
          (by simp [PortType.bidirectional, hinput, houtput])
        rw [htristate] at hboth
        cases hboth
    · refine Or.inl ?_
      rw [lastEdit_eq hpart, State.effect_eq hpart]
      refine hset _ ((sound_final hwired h.sound).fits hpart) fun near hnear => ?_
      obtain ⟨phase, hphase, hlatch⟩ := hregular.exists_last
      have hread := (h.flat.built owner (List.mem_of_getElem? hpart)).near_mem_reads hphase hnear
      have hbridge : owner.device ≠ .bridge := by
        intro hbridge
        rw [hbridge] at hnear
        cases hnear
      obtain ⟨word, hlook, -⟩ := h.look_read htrace hsame (phase_of_part hpart hphase hlatch) hread
        (hregular.anyOf hphase hbridge)
      exact (Prod.mk.inj hlook).2

theorem lastEdit (hpart : netlist.parts[ref.part]? = some placed)
    (hsame : netlist.SameTask first second (.phase ref.part placed.device.last)) :
    netlist.lastEdit (netlist.final first) ref = netlist.lastEdit (netlist.final second) ref := by
  rw [lastEdit_eq hpart, lastEdit_eq hpart]
  exact congrFun hsame.1 ref.port

theorem drives (h : netlist.Twins first second) (hport : netlist.port? ref = some port)
    (hpart : netlist.parts[ref.part]? = some placed)
    (hsame : netlist.SameTask first second (.phase ref.part placed.device.last)) :
    ((netlist.final first).pin ref).drives port.type =
      ((netlist.final second).pin ref).drives port.type := by
  rw [drives_last h.flat h.static h.sound hport, drives_last h.flat h.static h.sound' hport,
    lastEdit hpart hsame]

theorem spoken_congr (hpart : netlist.parts[ref.part]? = some placed)
    (hsame : netlist.SameTask first second (.phase ref.part placed.device.last))
    (hspoken : netlist.Spoken (netlist.final first) ref) :
    netlist.Spoken (netlist.final second) ref := by
  rw [Spoken, lastEdit hpart hsame] at hspoken
  exact hspoken

/-- The sources of a net have been driven before it is resolved. -/
theorem source (h : netlist.Twins first second)
    (htrace : netlist.trace first = left ++ .net index :: right)
    (hsame : ∀ task ∈ left, netlist.SameTask first second task)
    (hnet : netlist.nets[index]? = some net) (href : ref ∈ net.sources) :
    Net.isDriving netlist (netlist.final first) ref =
        Net.isDriving netlist (netlist.final second) ref ∧
      netlist.lastEdit (netlist.final first) ref = netlist.lastEdit (netlist.final second) ref ∧
      (Net.isDriving netlist (netlist.final first) ref = true →
        netlist.Spoken (netlist.final first) ref ∧ netlist.Spoken (netlist.final second) ref) := by
  have hwired := h.flat.wired
  obtain ⟨port, hattached, houtput⟩ := hwired.source hnet href
  have hport := hattached.found
  obtain ⟨placed, hpart, -⟩ := part_of_port hport
  have hdriven := drivenBefore_static hwired h.static hnet href first
  rw [drivenBefore_eq hwired htrace hport hpart houtput, decide_eq_true_eq] at hdriven
  have hlast := hsame _ hdriven
  obtain ⟨front, middle, rfl⟩ := List.append_of_mem hdriven
  rw [List.append_assoc, List.cons_append] at htrace
  rw [isDriving_eq hport, isDriving_eq hport]
  refine ⟨h.drives hport hpart hlast, lastEdit hpart hlast, fun hdrives => ?_⟩
  have hspoken := h.spoken (fun task htask => hsame task (List.mem_append_left _ htask)) hport hpart
    htrace hdrives
  exact ⟨hspoken, spoken_congr hpart hlast hspoken⟩

theorem net_step (h : netlist.Twins first second)
    (htrace : netlist.trace first = left ++ .net index :: right)
    (hsame : ∀ task ∈ left, netlist.SameTask first second task) :
    netlist.SameTask first second (.net index) := by
  have hindex : index < netlist.nets.length :=
    mem_tasks_net.mp (mem_trace.mp (htrace ▸ List.mem_append_right _ (List.mem_cons_self ..)))
  have hnet := List.getElem?_eq_getElem hindex
  generalize netlist.nets[index] = net at hnet
  have hsource := fun ref (href : ref ∈ net.sources) => h.source htrace hsame hnet href
  show (netlist.final first).verdict netlist index = (netlist.final second).verdict netlist index
  -- a net that one pin decides shows what that pin was told
  have hdecided : ∀ ref ∈ net.sources, Net.isDriving netlist (netlist.final first) ref = true →
      (∀ state, state = first ∨ state = second →
        if net.tristate then net.driving netlist (netlist.final state) = [ref]
        else net.sources = [ref]) →
      (netlist.final first).verdict netlist index =
        (netlist.final second).verdict netlist index := by
    intro ref href hdrives halone
    obtain ⟨-, hedit, hspoken⟩ := hsource ref href
    obtain ⟨hfirst, hsecond⟩ := hspoken hdrives
    have halone' := halone second (Or.inr rfl)
    rw [verdict_spoken h.flat h.static h.sound h.blank hnet href (halone first (Or.inl rfl)) hfirst,
      verdict_spoken h.flat h.static h.sound' h.blank' hnet href halone' hsecond, hedit]
  cases htristate : net.tristate with
  | true =>
    have hdriving : net.driving netlist (netlist.final first) =
        net.driving netlist (netlist.final second) :=
      List.filter_congr fun ref href => (hsource ref href).1
    have hone := h.single hnet htristate
    rw [net_static h.flat h.static h.sound hnet] at hone
    obtain ⟨driver, halone, -⟩ := exists_driver_of_one hnet htristate hone
    have hdriver : driver ∈ net.driving netlist (netlist.final first) := by
      rw [halone]
      exact List.mem_singleton_self driver
    obtain ⟨hin, hdrives⟩ := List.mem_filter.mp hdriver
    refine hdecided driver hin hdrives fun state hstate => ?_
    rw [htristate, if_pos rfl]
    rcases hstate with rfl | rfl
    · exact halone
    · exact hdriving.symm.trans halone
  | false =>
    rcases hsources : net.sources with _ | ⟨ref, _ | ⟨other, rest⟩⟩
    · rw [verdict_plain hnet htristate, verdict_plain hnet htristate, hsources]
    · have href : ref ∈ net.sources := by
        rw [hsources]
        exact List.mem_singleton_self ref
      refine hdecided ref href ?_ fun _ _ => ?_
      · obtain ⟨port, hattached, houtput⟩ := h.flat.wired.source hnet href
        have hplain : port.type.tristate = false := by
          cases hbus : port.type.tristate with
          | false => rfl
          | true =>
            rw [hattached.tristate hbus] at htristate
            cases htristate
        rw [isDriving_eq hattached.found, drives_last h.flat h.static h.sound hattached.found,
          houtput, hplain]
        rfl
      · rw [htristate]
        exact hsources
    · rw [verdict_plain hnet htristate, verdict_plain hnet htristate, hsources]

/-! ### The whole settle -/

theorem same (h : netlist.Twins first second) :
    ∀ task ∈ netlist.trace first, netlist.SameTask first second task := by
  have hprefix : ∀ left right, netlist.trace first = left ++ right →
      ∀ task ∈ left, netlist.SameTask first second task := by
    intro left
    induction left using List.reverseRecOn with
    | nil => exact fun _ _ _ htask => absurd htask List.not_mem_nil
    | append_singleton left last ih =>
      intro right htrace task htask
      rw [List.append_assoc, List.singleton_append] at htrace
      have hsame := ih (last :: right) htrace
      rcases List.mem_append.mp htask with htask | htask
      · exact hsame task htask
      · obtain rfl := List.mem_singleton.mp htask
        cases task with
        | phase part position => exact h.phase_step htrace hsame
        | net index => exact h.net_step htrace hsame
  exact hprefix _ [] (List.append_nil _).symm

end Twins

/-- What can be seen of a circuit in which every bus has a driver. -/
structure Observed (netlist : Netlist) (first second : State) : Prop where
  net : ∀ index, first.net index = second.net index
  driving : ∀ ref, Net.isDriving netlist first ref = Net.isDriving netlist second ref
  look : ∀ ref, (Net.isDriving netlist first ref = true ∨
      ∃ (index : Nat) (net : Net), netlist.nets[index]? = some net ∧ ref ∈ net.targets) →
    first.look ref = second.look ref
  probe : ∀ part placed, netlist.parts[part]? = some placed → placed.device = .probe →
    (first.part part).memory = (second.part part).memory

namespace Twins

variable {netlist : Netlist} {first second : State} {ref : PortRef} {port : Port} {placed : Part}
  {index part position : Nat} {net : Net} {phase : Phase}

theorem same_net (h : netlist.Twins first second) (hnet : netlist.nets[index]? = some net) :
    netlist.SameTask first second (.net index) :=
  h.same _ (mem_trace.mpr (mem_tasks_net.mpr (List.getElem?_eq_some_iff.mp hnet).1))

theorem same_last (h : netlist.Twins first second)
    (hpart : netlist.parts[part]? = some placed) :
    netlist.SameTask first second (.phase part placed.device.last) := by
  obtain ⟨left, right, htrace⟩ := exists_split_last h.flat.wired hpart first
  exact h.same _ (htrace ▸ List.mem_append_right _ (List.mem_cons_self ..))

theorem net_final (h : netlist.Twins first second) (index : Nat) :
    (netlist.final first).net index = (netlist.final second).net index := by
  have hwired := h.flat.wired
  cases hnet : netlist.nets[index]? with
  | none =>
    have hle := List.getElem?_eq_none_iff.mp hnet
    rw [State.net, State.net, List.getD_eq_default, List.getD_eq_default]
    · rw [(sound_final hwired h.sound').nets]
      exact hle
    · rw [(sound_final hwired h.sound).nets]
      exact hle
  | some net =>
    obtain ⟨word, hword⟩ := h.exists_verdict hnet
    have hsame : (netlist.final first).verdict netlist index =
        (netlist.final second).verdict netlist index := h.same_net hnet
    rw [net_static h.flat h.static h.sound hnet, net_static h.flat h.static h.sound' hnet, ← hsame,
      hword]
    rfl

theorem look_driving (h : netlist.Twins first second)
    (hdrives : Net.isDriving netlist (netlist.final first) ref = true)
    (huntold : netlist.Untold ref) :
    (netlist.final first).look ref = (netlist.final second).look ref := by
  cases hport : netlist.port? ref with
  | none =>
    rw [State.look, State.look, State.pin_eq_default (sound_final h.flat.wired h.sound) hport,
      State.pin_eq_default (sound_final h.flat.wired h.sound') hport]
  | some port =>
    obtain ⟨placed, hpart, -⟩ := part_of_port hport
    obtain ⟨left, right, htrace⟩ := exists_split_last h.flat.wired hpart first
    have hlast := h.same_last hpart
    rw [isDriving_eq hport] at hdrives
    have hspoken := h.spoken
      (fun task htask => h.same task (htrace ▸ List.mem_append_left _ htask)) hport hpart htrace
      hdrives
    rw [look_spoken h.flat h.static h.sound h.blank hport huntold hspoken,
      look_spoken h.flat h.static h.sound' h.blank' hport huntold
        (spoken_congr hpart hlast hspoken), lastEdit hpart hlast]

theorem observed (h : netlist.Twins first second) :
    netlist.Observed (netlist.final first) (netlist.final second) := by
  have hwired := h.flat.wired
  refine ⟨h.net_final, fun ref => ?_, fun ref href => ?_, fun part placed hpart hprobe => ?_⟩
  · cases hport : netlist.port? ref with
    | none =>
      rw [Net.isDriving, Net.isDriving, State.pin_eq_default (sound_final hwired h.sound) hport,
        State.pin_eq_default (sound_final hwired h.sound') hport]
    | some port =>
      obtain ⟨placed, hpart, -⟩ := part_of_port hport
      rw [isDriving_eq hport, isDriving_eq hport]
      exact h.drives hport hpart (h.same_last hpart)
  · by_cases htold : ∃ (index : Nat) (net : Net),
        netlist.nets[index]? = some net ∧ ref ∈ net.targets
    · obtain ⟨index, net, hnet, htarget⟩ := htold
      obtain ⟨word, hfirst, hsecond⟩ := h.look_target hnet htarget (h.same_net hnet)
      exact hfirst.trans hsecond.symm
    · refine h.look_driving (href.resolve_right htold) fun index htarget => ?_
      obtain ⟨net, hnet, htarget⟩ := mem_targets_getD.mp htarget
      exact htold ⟨index, net, hnet, htarget⟩
  · have hlast := h.same_last hpart
    rw [memory_last hwired h.static h.sound hpart, memory_last hwired h.static h.sound' hpart]
    refine hlast.2 ?_
    rw [List.getD_eq_getElem?_getD, hpart, Option.getD_some, hprobe]
    rfl

end Twins

/-! ## The clock edge -/

/-- The data pin of every memory is wired. -/
def Routed (netlist : Netlist) : Prop :=
  ∀ part ∈ netlist.parts, part.device.isMemory = true → (part.ports.getD 1 default).bound = true

instance (netlist : Netlist) : Decidable netlist.Routed :=
  inferInstanceAs (Decidable (∀ part ∈ netlist.parts, _))

/-- Two states that hold the same and in which the clock edge sees the same. -/
structure Edges (netlist : Netlist) (first second : State) : Prop where
  sound : State.Sound netlist first
  sound' : State.Sound netlist second
  stored : netlist.SameStored first second
  look : ∀ {part position index : Nat} {phase : Phase},
    netlist.phase? part position = some phase → phase.latch = true → index ∈ phase.reads →
    first.look ⟨part, index⟩ = second.look ⟨part, index⟩

variable {netlist : Netlist} {state first second : State} {ref : PortRef} {part position : Nat}
  {phase : Phase}

theorem pin_latch (hflat : netlist.Flat) (h : State.Sound netlist state)
    (hphase : netlist.phase? part position = some phase) (hlatch : phase.latch = true)
    (ref : PortRef) :
    (state.perform netlist (.phase part position)).pin ref = state.pin ref := by
  have hwired := hflat.wired
  by_cases hne : ref.part = part
  · subst hne
    cases hport : netlist.port? ref with
    | none =>
      exact (State.pin_eq_default (h.perform hwired.native) hport).trans
        (State.pin_eq_default h hport).symm
    | some port =>
      obtain ⟨placed, hpart, hfound⟩ := Option.bind_eq_some_iff.mp hphase
      have hbuilt := hflat.built placed (List.mem_of_getElem? hpart)
      rw [State.pin_phase hwired h hport, State.effect_eq hpart,
        hbuilt.edit_latch hfound hlatch]
      rfl
  · exact State.pin_phase_of_ne hwired hne

theorem Edges.step (hflat : netlist.Flat) (h : netlist.Edges first second)
    (hphase : netlist.phase? part position = some phase) (hlatch : phase.latch = true) :
    netlist.Edges (first.perform netlist (.phase part position))
      (second.perform netlist (.phase part position)) := by
  have hwired := hflat.wired
  refine ⟨h.sound.perform hwired.native, h.sound'.perform hwired.native,
    fun other placed hplaced hstores => ?_, fun hother hlatch' hread => ?_⟩
  · by_cases hne : other = part
    · subst hne
      obtain ⟨owner, howner, hfound⟩ := Option.bind_eq_some_iff.mp hphase
      obtain rfl := Option.some.inj (howner.symm.trans hplaced)
      have hmemory : ∀ {state : State}, State.Sound netlist state →
          ((state.perform netlist (.phase other position)).part other).memory =
            (state.effect netlist other position).memory := by
        intro state hstate
        have hlt : other < state.parts.length := by
          rw [hstate.parts]
          exact (List.getElem?_eq_some_iff.mp hplaced).1
        rw [State.perform, State.part_runPhase (State.native_getD hwired.native other) hlt,
          if_pos rfl]
        rfl
      obtain ⟨-, hcongr⟩ := (hwired.regularAt hplaced).edit_congr hfound
        (fun hbridge => by rw [hbridge] at hstores; cases hstores)
        (fun _ => congrArg (owner.device.recalled position) (h.stored other _ hplaced hstores))
        (fun index hread => (Prod.mk.inj (h.look hphase hlatch hread)).2)
        (fun index hread => (Prod.mk.inj (h.look hphase hlatch hread)).1)
      rw [hmemory h.sound, hmemory h.sound', State.effect_eq hplaced, State.effect_eq hplaced]
      exact hcongr (owner.device.remembers_of_stores hstores)
    · rw [State.part_phase hwired hne, State.part_phase hwired hne]
      exact h.stored other placed hplaced hstores
  · have hlook := h.look hother hlatch' hread
    rw [State.look, State.look, pin_latch hflat h.sound hphase hlatch,
      pin_latch hflat h.sound' hphase hlatch]
    exact hlook

theorem Edges.foldl (hflat : netlist.Flat) (steps : List (Nat × Nat))
    (hsteps : ∀ step ∈ steps, ∃ phase,
      netlist.phase? step.1 step.2 = some phase ∧ phase.latch = true) :
    ∀ {first second : State}, netlist.Edges first second →
      netlist.Edges
        (steps.foldl (fun state (part, phase) => state.runPhase netlist part phase) first)
        (steps.foldl (fun state (part, phase) => state.runPhase netlist part phase) second) := by
  induction steps with
  | nil => exact id
  | cons step steps ih =>
    intro first second h
    obtain ⟨phase, hphase, hlatch⟩ := hsteps step (List.mem_cons_self ..)
    exact ih (fun other hother => hsteps other (List.mem_cons_of_mem _ hother))
      (h.step hflat hphase hlatch)

/-- The clock edge sees inputs and the data pins of memories. -/
theorem Twins.edges (h : netlist.Twins first second) (hrouted : netlist.Routed) :
    netlist.Edges (netlist.final first) (netlist.final second) := by
  have hwired := h.flat.wired
  have hsound := sound_final hwired h.sound
  have hsound' := sound_final hwired h.sound'
  refine ⟨hsound, hsound', fun part placed hpart hstores => ?_,
    fun {part position index phase} hphase hlatch hread => ?_⟩
  · rw [memory_stored hwired h.sound hpart hstores, memory_stored hwired h.sound' hpart hstores]
    exact h.stored part placed hpart hstores
  · cases hport : netlist.port? ⟨part, index⟩ with
    | none =>
      rw [State.look, State.look, State.pin_eq_default hsound hport,
        State.pin_eq_default hsound' hport]
    | some port =>
      obtain ⟨placed, hpart, hplace⟩ := part_of_port hport
      obtain ⟨owner, howner, hfound⟩ := Option.bind_eq_some_iff.mp hphase
      obtain rfl := Option.some.inj (howner.symm.trans hpart)
      have hmem := List.mem_of_getElem? hpart
      obtain ⟨hinput, hkind⟩ := (h.flat.built owner hmem).reads_latch hfound hlatch hread hplace
      cases hbound : port.net with
      | some net =>
        obtain ⟨found, hnet, htarget, -⟩ := hwired.known hport hbound
        obtain ⟨word, hfirst, hsecond⟩ := h.look_target hnet (htarget hinput) (h.same_net hnet)
        exact hfirst.trans hsecond.symm
      | none =>
        rcases hkind with houtput | ⟨hmemory, rfl⟩
        · obtain ⟨hfirst, hsecond⟩ :=
            h.look_untold hport (untold_of_unbound hwired hport hbound) houtput
          exact hfirst.trans hsecond.symm
        · have hrouted' := hrouted owner hmem hmemory
          rw [List.getD_eq_getElem?_getD, hplace, Option.getD_some, Port.bound, hbound] at hrouted'
          cases hrouted'

theorem Observed.matches {first' second' : State} (h : netlist.Observed first second)
    (hfirst : first'.Matches first) (hsecond : second'.Matches second) :
    netlist.Observed first' second' := by
  have hlook : ∀ {state state' : State}, state'.Matches state → ∀ ref,
      state'.look ref = state.look ref := fun hmatches ref => by
    rw [State.look, State.look, hmatches.value, hmatches.resolved]
  have hdriving : ∀ {state state' : State}, state'.Matches state → ∀ ref,
      Net.isDriving netlist state' ref = Net.isDriving netlist state ref :=
    fun hmatches ref => hmatches.drives ref _
  refine ⟨fun index => ?_, fun ref => ?_, fun ref href => ?_, fun part placed hpart hprobe => ?_⟩
  · rw [hfirst.net, hsecond.net]
    exact h.net index
  · rw [hdriving hfirst, hdriving hsecond]
    exact h.driving ref
  · rw [hdriving hfirst] at href
    rw [hlook hfirst, hlook hsecond]
    exact h.look ref href
  · rw [hfirst.memory, hsecond.memory]
    exact h.probe part placed hpart hprobe

theorem Edges.matches {first' second' : State} (h : netlist.Edges first second)
    (hfirst : State.Tracked netlist first first') (hsecond : State.Tracked netlist second second') :
    netlist.Edges first' second' := by
  refine ⟨hfirst.sound h.sound, hsecond.sound h.sound', fun part placed hpart hstores => ?_,
    fun hphase hlatch hread => ?_⟩
  · rw [hfirst.agrees.memory, hsecond.agrees.memory]
    exact h.stored part placed hpart hstores
  · rw [State.look, State.look, hfirst.agrees.value, hfirst.agrees.resolved, hsecond.agrees.value,
      hsecond.agrees.resolved]
    exact h.look hphase hlatch hread

end Netlist

end Breadboard
