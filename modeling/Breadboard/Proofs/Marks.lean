import Breadboard.Proofs.Cover
import Breadboard.Proofs.Fixpoint
import Breadboard.Proofs.Voices

/-!
# What usage marks cover

Usage is found by walking backwards through the tasks of a settle. In a static circuit
every task waits for all that it depends on, so that what a task passes on has been
marked by the time the walk comes to it, and nothing it passes on is marked later. So
the marks that are left in the end are closed against the flow of values
(`Netlist.Covered`): a phase of which an output is used uses what it looks at, and a net
of which a reader is used uses the sources that decided on its value.
-/

namespace Breadboard

theorem Netlist.getD_phase {netlist : Netlist} {part position : Nat} {phase : Phase}
    (hphase : netlist.phase? part position = some phase) :
    (netlist.parts.getD part default).phases.getD position default = phase := by
  obtain ⟨placed, hpart, hfound⟩ := Option.bind_eq_some_iff.mp hphase
  simp [List.getD_eq_getElem?_getD, hpart, hfound]

namespace State

variable {netlist : Netlist} {state : State} {ref other : PortRef} {port : Port}
  {part position index : Nat} {phase : Phase} {net : Net} {task : Task} {tasks : List Task}
  {p : PortType → Pin → Bool}

/-! ## Marking -/

theorem pin_markPin (h : Sound netlist state) (hport : netlist.port? ref = some port)
    (p : PortType → Pin → Bool) (other : PortRef) :
    (state.markPin netlist p other).pin ref =
      if ref = other ∧ p port.type (state.pin ref) = true then (state.pin ref).markUsed
      else state.pin ref := by
  unfold markPin
  by_cases heq : ref = other
  · subst heq
    rw [hport, Option.getD_some]
    by_cases hmarked : p port.type (state.pin ref) = true
    · rw [if_pos hmarked, if_pos ⟨rfl, hmarked⟩,
        pin_updatePin_self state _ (h.has hport).1 (h.has hport).2]
    · rw [if_neg hmarked, if_neg fun hboth => hmarked hboth.2]
  · rw [if_neg (c := ref = other ∧ _) fun hboth => heq hboth.1]
    split
    · exact pin_updatePin_of_ne state _ (Ne.symm heq)
    · rfl

theorem used_markPin (h : Sound netlist state) (hport : netlist.port? ref = some port)
    (p : PortType → Pin → Bool) (other : PortRef) :
    ((state.markPin netlist p other).pin ref).used = true ↔
      (state.pin ref).used = true ∨ ref = other ∧ p port.type (state.pin ref) = true := by
  rw [pin_markPin h hport]
  split
  · next hmarked => exact iff_of_true rfl (Or.inr hmarked)
  · next hunmarked => simp [hunmarked]

/-- Marking pins by a condition that does not look at the marks. -/
theorem used_foldl_markPin
    (hp : ∀ type first second, first.unmarked = second.unmarked → p type first = p type second)
    (hport : netlist.port? ref = some port) (refs : List PortRef) :
    ∀ {state : State}, Sound netlist state →
      (((refs.foldl (markPin netlist p) state).pin ref).used = true ↔
        (state.pin ref).used = true ∨ ref ∈ refs ∧ p port.type (state.pin ref) = true) := by
  induction refs with
  | nil => exact fun _ => by simp
  | cons other refs ih =>
    intro state h
    have htracked : Tracked netlist state (state.markPin netlist p other) := tracked_markPin ..
    rw [List.foldl_cons, ih (htracked.sound h), used_markPin h hport,
      hp _ _ _ (htracked.agrees.pin ref), List.mem_cons, or_assoc, or_and_right]

/-! ## One task -/

/-- A phase has no outputs, or one of them is used. -/
def Needs (state : State) (part : Nat) (phase : Phase) : Prop :=
  phase.writes = [] ∨ ∃ index ∈ phase.writes, (state.pin ⟨part, index⟩).used = true

theorem used_tracePhase (h : Sound netlist state) (hport : netlist.port? ref = some port)
    (hphase : (netlist.parts.getD part default).phases.getD position default = phase) :
    ((state.tracePhase netlist part position).pin ref).used = true ↔
      (state.pin ref).used = true ∨ ref.part = part ∧ ref.port ∈ phase.reads ++ phase.anyOf ∧
        (port.type.ctrl = true ∨
          state.Needs part phase ∧ (state.pin ref).isIgnored port.type = false) := by
  have hmem : ref ∈ (phase.reads ++ phase.anyOf).map (PortRef.mk part) ↔
      ref.part = part ∧ ref.port ∈ phase.reads ++ phase.anyOf := by
    rw [List.mem_map]
    constructor
    · rintro ⟨index, hindex, rfl⟩
      exact ⟨rfl, hindex⟩
    · rintro ⟨rfl, hindex⟩
      exact ⟨_, hindex, rfl⟩
  have hneeds : (phase.writes.isEmpty || phase.writes.any fun port => (state.pin ⟨part, port⟩).used) =
      true ↔ state.Needs part phase := by
    simp [Needs]
  unfold tracePhase
  rw [hphase]
  dsimp only
  generalize (phase.writes.isEmpty || phase.writes.any fun port => (state.pin ⟨part, port⟩).used) =
    needed at hneeds ⊢
  have hmarks := used_foldl_markPin
    (p := fun type pin => type.ctrl || (needed && !pin.isIgnored type))
    (fun type first second hpin => by
      rw [Pin.isIgnored, Pin.isIgnored, (Pin.unmarked_eq_iff.mp hpin).2.1])
    hport ((phase.reads ++ phase.anyOf).map (PortRef.mk part)) h
  rw [List.foldl_map, hmem, and_assoc] at hmarks
  rw [hmarks, ← hneeds]
  simp

theorem used_traceNet (h : Sound netlist state) (hport : netlist.port? ref = some port)
    (hnet : netlist.nets.getD index default = net) :
    ((state.traceNet netlist index).pin ref).used = true ↔
      (state.pin ref).used = true ∨ (∃ target ∈ net.targets, (state.pin target).used = true) ∧
        ref ∈ net.sources ∧ (net.tristate = false ∨ (state.pin ref).drives port.type = true) := by
  have hany : (net.targets.any fun ref => (state.pin ref).used) = true ↔
      ∃ target ∈ net.targets, (state.pin target).used = true := List.any_eq_true
  unfold traceNet
  rw [hnet]
  dsimp only
  rw [← hany]
  split
  · next hused =>
    rw [used_foldl_markPin (fun type first second hpin => ?_) hport _ h]
    · simp [hused]
    · obtain ⟨-, henabled, hfacing, -⟩ := Pin.unmarked_eq_iff.mp hpin
      rw [Pin.drives, Pin.drives, henabled, hfacing]
  · next hunused => simp [hunused]

/-- The pins that the walk may mark when it comes to a task. -/
def Passes (netlist : Netlist) (ref : PortRef) : Task → Prop
  | .phase part position =>
    let phase := (netlist.parts.getD part default).phases.getD position default
    ref.part = part ∧ ref.port ∈ phase.reads ++ phase.anyOf
  | .net index => ref ∈ (netlist.nets.getD index default).sources

theorem used_traceTask (h : Sound netlist state) (hport : netlist.port? ref = some port)
    (task : Task) (hused : (state.pin ref).used = true) :
    ((state.traceTask netlist task).pin ref).used = true := by
  cases task with
  | phase part position => exact (used_tracePhase h hport rfl).mpr (Or.inl hused)
  | net index => exact (used_traceNet h hport rfl).mpr (Or.inl hused)

theorem used_or_passes (h : Sound netlist state) (hport : netlist.port? ref = some port)
    (hused : ((state.traceTask netlist task).pin ref).used = true) :
    (state.pin ref).used = true ∨ Passes netlist ref task := by
  cases task with
  | phase part position =>
    exact ((used_tracePhase h hport rfl).mp hused).imp_right fun hmarked => ⟨hmarked.1, hmarked.2.1⟩
  | net index => exact ((used_traceNet h hport rfl).mp hused).imp_right fun hmarked => hmarked.2.1

/-! ## Walks -/

/-- Walk backwards through some tasks. -/
def traceBack (netlist : Netlist) (tasks : List Task) (state : State) : State :=
  tasks.foldr (fun task state => state.traceTask netlist task) state

theorem traceBack_split (left right : List Task) (state : State) :
    state.traceBack netlist (left ++ task :: right) =
      ((state.traceBack netlist right).traceTask netlist task).traceBack netlist left := by
  rw [traceBack, List.foldr_append]
  rfl

theorem tracked_traceBack (tasks : List Task) (state : State) :
    Tracked netlist state (state.traceBack netlist tasks) := by
  induction tasks with
  | nil => exact .refl _
  | cons task tasks ih => exact ih.trans (tracked_traceTask _ task)

/-- The walk through the tasks that ran before a task changes marks and nothing else. -/
theorem tracked_split (left right : List Task) (state : State) :
    Tracked netlist (state.traceBack netlist right)
      (state.traceBack netlist (left ++ task :: right)) := by
  rw [traceBack_split]
  exact (tracked_traceTask _ task).trans (tracked_traceBack left _)

theorem used_traceBack (h : Sound netlist state) (hport : netlist.port? ref = some port)
    (tasks : List Task) (hused : (state.pin ref).used = true) :
    ((state.traceBack netlist tasks).pin ref).used = true := by
  induction tasks with
  | nil => exact hused
  | cons task tasks ih => exact used_traceTask ((tracked_traceBack tasks state).sound h) hport task ih

/-- What is used when the walk has come past a task stays so. -/
theorem used_split (h : Sound netlist state) (hport : netlist.port? ref = some port)
    (left : List Task) {right : List Task}
    (hused : (((state.traceBack netlist right).traceTask netlist task).pin ref).used = true) :
    ((state.traceBack netlist (left ++ task :: right)).pin ref).used = true := by
  rw [traceBack_split]
  exact used_traceBack ((tracked_traceTask _ task).sound ((tracked_traceBack right state).sound h))
    hport left hused

/-- What is used behind a walk was used before it, or some task of the walk passes it on. -/
theorem used_or_exists_passes (h : Sound netlist state) (hport : netlist.port? ref = some port)
    (hused : ((state.traceBack netlist tasks).pin ref).used = true) :
    (state.pin ref).used = true ∨ ∃ task ∈ tasks, Passes netlist ref task := by
  induction tasks with
  | nil => exact Or.inl hused
  | cons task tasks ih =>
    rcases used_or_passes ((tracked_traceBack tasks state).sound h) hport hused with hearlier | hpasses
    · exact (ih hearlier).imp_right fun ⟨other, hother, hpasses⟩ =>
        ⟨other, List.mem_cons_of_mem _ hother, hpasses⟩
    · exact Or.inr ⟨task, List.mem_cons_self .., hpasses⟩

/-! ### All of it -/

theorem foldl_markLatched_eq (steps : List (Nat × Nat)) (state : State) :
    steps.foldl (markLatched netlist) state =
      (steps.flatMap fun step => ((netlist.parts.getD step.1 default).phases.getD step.2
        default).reads.map (PortRef.mk step.1)).foldl (markPin netlist fun _ _ => true) state := by
  rw [List.foldl_flatMap]
  congr 1
  funext state step
  rw [List.foldl_map]
  rfl

/-- The walk starts with the inputs of all latch phases. -/
theorem traceUsage_eq (schedule : Schedule) (executed : List Nat) (state : State) :
    state.traceUsage netlist schedule executed =
      ((schedule.latchSteps.foldl (markLatched netlist)
        (state.mapPins netlist fun _ pin => { pin with used := false })).traceBack netlist
          (schedule.trace executed)) := by
  have hsteps : schedule.trace executed =
      (executed.flatMap fun block => (schedule.blocks.getD block default).steps).map (·.task) :=
    (List.map_flatMap ..).symm
  rw [traceBack, hsteps, List.foldr_map, traceUsage, List.foldl_reverse]

theorem used_markLatched (h : Sound netlist state)
    (hphase : netlist.phase? part position = some phase) (hlatch : phase.latch = true)
    (hread : index ∈ phase.reads) :
    (((compile netlist).latchSteps.foldl (markLatched netlist) state).pin ⟨part, index⟩).used =
      true := by
  rw [foldl_markLatched_eq]
  cases hport : netlist.port? ⟨part, index⟩ with
  | none =>
    rw [pin_eq_default _ hport]
    exact (tracked_foldl (fun state ref => tracked_markPin _ state ref) _ state).sound h
  | some port =>
    refine (used_foldl_markPin (fun _ _ _ _ => rfl) hport _ h).mpr (Or.inr ⟨?_, rfl⟩)
    refine List.mem_flatMap.mpr ⟨(part, position),
      Netlist.mem_latchSteps.mpr ⟨phase, hphase, hlatch⟩, List.mem_map_of_mem ?_⟩
    rw [Netlist.getD_phase hphase]
    exact hread

end State

/-! ## What phases write -/

theorem Builtin.output_of_writes {builtin : Builtin} {args : Json} {position index : Nat}
    {phase : Phase} {decl : PortDecl}
    (hphase : (builtin.assemble args).phases[position]? = some phase)
    (hwrites : index ∈ phase.writes) (hdecl : (builtin.assemble args).ports[index]? = some decl) :
    decl.type.output = true := by
  cases builtin with
  | adder =>
    rcases position with _ | position
    · simp only [assemble, List.getElem?_cons_zero, Option.some.injEq] at hphase
      subst hphase
      cases hin : args.flag "carryIn" false <;> cases hout : args.flag "carryOut" false <;>
        rcases index with _ | _ | _ | _ | _ | index <;>
        simp_all [assemble, ports, PortType.dataOut] <;> subst hdecl <;> rfl
    · simp [assemble] at hphase
  | boundary =>
    rcases position with _ | position
    · simp only [assemble, List.getElem?_cons_zero, Option.some.injEq] at hphase
      subst hphase
      by_cases hdir : args.text "dir" "in" = "out" <;>
        rcases index with _ | _ | index <;>
        simp_all [assemble, ports, PortType.flipped, Boundary.outerDecl] <;> subst hdecl <;> simp_all
    · simp [assemble] at hphase
  | _ =>
    rcases position with _ | _ | position <;> simp_all [assemble] <;> subst hphase <;>
      simp_all <;> rcases index with _ | _ | _ | _ | index <;>
      simp_all [ports, PortType.dataOut, PortType.dataOutTri, PortType.dataBus] <;>
      subst hdecl <;> rfl

theorem Part.Built.output_of_writes {part : Part} {position index : Nat} {phase : Phase}
    {port : Port} (h : part.Built) (hphase : part.phases[position]? = some phase)
    (hwrites : index ∈ phase.writes) (hport : part.ports[index]? = some port) :
    port.type.output = true := by
  obtain ⟨definition, args, assembly, hnative, hassemble, hmade⟩ := h
  have hdecl := hmade.decl hport
  rw [hmade.phases] at hphase
  rcases hnative with ⟨builtin, rfl⟩ | ⟨id, schematic, rfl⟩
  · obtain rfl := Except.ok.inj hassemble
    exact Builtin.output_of_writes hphase hwrites hdecl
  · obtain rfl := Except.ok.inj hassemble
    rcases position with _ | position
    · obtain rfl := Option.some.inj hphase
      obtain ⟨-, houtput⟩ := List.mem_filter.mp hwrites
      have hdecl' : (Builder.start id args (Library.boundaryPorts schematic)).ports[index]? =
        some port.toPortDecl := hdecl
      rw [hdecl'] at houtput
      simpa using houtput
    · cases hphase

namespace Netlist

variable {netlist : Netlist} {state begin : State} {ref target source : PortRef} {port : Port}
  {placed : Part} {part position index : Nat} {phase : Phase} {net : Net} {left right : List Task}

theorem mem_sources_getD : ref ∈ (netlist.nets.getD index default).sources ↔
    ∃ net, netlist.nets[index]? = some net ∧ ref ∈ net.sources := by
  rw [List.getD_eq_getElem?_getD]
  cases netlist.nets[index]? with
  | none => exact iff_of_false List.not_mem_nil (fun ⟨_, hnet, _⟩ => nomatch hnet)
  | some net => simp

/-! ## What comes before what -/

/-- A phase that looks at a port runs behind the net of that port. -/
theorem before_look (hflat : netlist.Flat) (hstatic : netlist.Static) (state : State)
    (hphase : netlist.Ordinary part position phase) (hlook : index ∈ phase.reads ++ phase.anyOf)
    (hport : netlist.port? ⟨part, index⟩ = some port) {wired : Nat} (hbound : port.net = some wired) :
    Before (netlist.trace state) (.net wired) (.phase part position) := by
  have hwired := hflat.wired
  rcases List.mem_append.mp hlook with hread | hany
  · obtain ⟨placed, hpart, hfound⟩ := part_of_phase hphase
    have hregular := hwired.regularAt hpart
    have hanyOf : phase.anyOf = [] := by
      refine hregular.anyOf_eq_nil hfound fun hbridge hone => ?_
      rw [(hregular.bridge hbridge).1, hone] at hfound
      obtain rfl := Option.some.inj hfound
      cases hread
    obtain ⟨left, right, htrace⟩ := exists_split_phase hphase state
    have hleft := net_mem_left hwired hstatic.loops hstatic.crossing htrace hphase hread hanyOf
      hport hbound
    rw [htrace]
    exact Before.of_append hleft (List.mem_cons_self ..)
  · have hunbound := hstatic.anyOf hphase hany hport
    rw [Port.bound, hbound] at hunbound
    cases hunbound

/-- A net is resolved behind the parts that drive it. -/
theorem before_net (hwired : netlist.Wired) (hstatic : netlist.Static) (state : State)
    (hnet : netlist.nets[index]? = some net) (hsource : source ∈ net.sources)
    (hpart : netlist.parts[source.part]? = some placed) :
    Before (netlist.trace state) (.phase source.part placed.device.last) (.net index) := by
  obtain ⟨port, hattached, houtput⟩ := hwired.source hnet hsource
  obtain ⟨left, right, htrace⟩ := exists_split hnet state
  have hdriven := drivenBefore_static hwired hstatic hnet hsource state
  rw [drivenBefore_eq hwired htrace hattached.found hpart houtput, decide_eq_true_eq] at hdriven
  rw [htrace]
  exact Before.of_append hdriven (List.mem_cons_self ..)

/-! ## The ports of bridges -/

/-- A bridge has two control inputs and two sides. -/
theorem bridge_port (hwired : netlist.Wired) (hpart : netlist.parts[part]? = some placed)
    (hbridge : placed.device = .bridge) (hplace : placed.ports[index]? = some port) :
    (index = 0 ∨ index = 1) ∧ port.type = .ctrlIn ∨
      (index = 2 ∨ index = 3) ∧ port.type = .dataBus := by
  obtain ⟨-, width, hports⟩ := (hwired.regularAt hpart).bridge hbridge
  have hdecl : (placed.ports.map (·.toPortDecl))[index]? = some port.toPortDecl := by
    rw [List.getElem?_map, hplace]
    rfl
  rw [hports] at hdecl
  rcases index with _ | _ | _ | _ | index
  · exact Or.inl ⟨Or.inl rfl, (congrArg PortDecl.type (Option.some.inj hdecl)).symm⟩
  · exact Or.inl ⟨Or.inr rfl, (congrArg PortDecl.type (Option.some.inj hdecl)).symm⟩
  · exact Or.inr ⟨Or.inl rfl, (congrArg PortDecl.type (Option.some.inj hdecl)).symm⟩
  · exact Or.inr ⟨Or.inr rfl, (congrArg PortDecl.type (Option.some.inj hdecl)).symm⟩
  · cases hdecl

theorem bridge_read (hwired : netlist.Wired) (hpart : netlist.parts[part]? = some placed)
    (hbridge : placed.device = .bridge) (hfound : placed.phases[position]? = some phase)
    (hread : index ∈ phase.reads) : index = 0 ∨ index = 1 := by
  rw [((hwired.regularAt hpart).bridge hbridge).1] at hfound
  rcases position with _ | _ | position
  · obtain rfl := Option.some.inj hfound
    exact List.mem_pair.mp hread
  · obtain rfl := Option.some.inj hfound
    cases hread
  · cases hfound

theorem bridge_side (hwired : netlist.Wired) (hpart : netlist.parts[part]? = some placed)
    (hbridge : placed.device = .bridge) (hfound : placed.phases[position]? = some phase)
    (hany : index ∈ phase.anyOf) : index = 2 ∨ index = 3 := by
  rw [((hwired.regularAt hpart).bridge hbridge).1] at hfound
  rcases position with _ | _ | position
  · obtain rfl := Option.some.inj hfound
    cases hany
  · obtain rfl := Option.some.inj hfound
    exact List.mem_pair.mp hany
  · cases hfound

/-- Bridges are the only parts with any-of ports, and these are no control ports. -/
theorem control_read (hwired : netlist.Wired) (hpart : netlist.parts[part]? = some placed)
    (hfound : placed.phases[position]? = some phase) (hlook : index ∈ phase.reads ++ phase.anyOf)
    (hplace : placed.ports[index]? = some port) (hctrl : port.type.ctrl = true) :
    index ∈ phase.reads := by
  refine (List.mem_append.mp hlook).resolve_right fun hany => ?_
  by_cases hbridge : placed.device = .bridge
  · have hside := bridge_side hwired hpart hbridge hfound hany
    rcases bridge_port hwired hpart hbridge hplace with ⟨hcontrol, -⟩ | ⟨-, htype⟩
    · omega
    · rw [htype] at hctrl
      cases hctrl
  · rw [(hwired.regularAt hpart).anyOf hfound hbridge] at hany
    cases hany

/-! ## What the walk passes too late -/

section

variable (hflat : netlist.Flat) (hstatic : netlist.Static)

include hflat hstatic

/-- What runs before a net neither looks at its readers nor lists them. -/
theorem not_passes_target (htrace : netlist.trace state = left ++ .net index :: right)
    (hnet : netlist.nets[index]? = some net) (htarget : target ∈ net.targets) {task : Task}
    (htask : task ∈ left) : ¬ State.Passes netlist target task := by
  intro hpasses
  have hwired := hflat.wired
  have hlists : netlist.Lists index target := ⟨net, hnet, Or.inr htarget⟩
  have hnodup := netlist.trace_nodup state
  have hbefore : Before (netlist.trace state) task (.net index) :=
    htrace ▸ Before.of_append htask (List.mem_cons_self ..)
  cases task with
  | phase part position =>
    obtain ⟨rfl, hlook⟩ := hpasses
    obtain ⟨phase, hphase⟩ := ordinary_of_mem_left htrace htask
    obtain ⟨port, hattached, -⟩ := hwired.target hnet htarget
    have hport := hattached.found
    rw [getD_phase hphase.1] at hlook
    exact (before_look hflat hstatic state hphase hlook hport
      (hwired.net_eq hstatic.single hlists hport)).asymm hnodup hbefore
  | net other =>
    obtain ⟨found, hfound, hsource⟩ := mem_sources_getD.mp hpasses
    have hsame := hstatic.single other index target ⟨found, hfound, Or.inl hsource⟩ hlists
    exact hbefore.ne hnodup (congrArg Task.net hsame)

/-- What runs before a phase neither looks at what it writes nor resolves a net that it
drives. -/
theorem not_passes_written (htrace : netlist.trace state = left ++ .phase part position :: right)
    (hphase : netlist.Ordinary part position phase) {written : Nat}
    (hwritten : written ∈ phase.writes) {task : Task} (htask : task ∈ left) :
    ¬ State.Passes netlist ⟨part, written⟩ task := by
  intro hpasses
  have hwired := hflat.wired
  obtain ⟨placed, hpart, hfound⟩ := part_of_phase hphase
  have hregular := hwired.regularAt hpart
  have hnodup := netlist.trace_nodup state
  have hbefore : Before (netlist.trace state) task (.phase part position) :=
    htrace ▸ Before.of_append htask (List.mem_cons_self ..)
  -- only the last phase of a part writes anything
  obtain rfl : position = placed.device.last := by
    refine (last_or_bridge hwired hpart hphase).resolve_right fun ⟨hbridge, hzero⟩ => ?_
    rw [(hregular.bridge hbridge).1, hzero] at hfound
    obtain rfl := Option.some.inj hfound
    cases hwritten
  cases task with
  | phase other position =>
    obtain ⟨hsame, hlook⟩ := hpasses
    obtain rfl : part = other := hsame
    obtain ⟨phase', hphase'⟩ := ordinary_of_mem_left htrace htask
    rw [getD_phase hphase'.1] at hlook
    rcases last_or_bridge hwired hpart hphase' with rfl | ⟨hbridge, rfl⟩
    · exact hbefore.ne hnodup rfl
    · obtain ⟨owner', howner', hfound'⟩ := part_of_phase hphase'
      obtain rfl := Option.some.inj (howner'.symm.trans hpart)
      rw [(hregular.bridge hbridge).1] at hfound hfound'
      rw [hbridge] at hfound
      obtain rfl := Option.some.inj hfound
      obtain rfl := Option.some.inj hfound'
      simp only [List.append_nil, List.mem_cons, List.not_mem_nil, or_false] at hlook hwritten
      omega
  | net other =>
    obtain ⟨net, hnet, hsource⟩ := mem_sources_getD.mp hpasses
    exact (before_net hwired hstatic state hnet hsource hpart).asymm hnodup hbefore

end

/-! ## Closure -/

/-- The marks are closed against the flow of values. -/
structure Covered (netlist : Netlist) (state : State) : Prop where
  /-- A net whose value is used uses the sources that decided on it. -/
  net : ∀ {index : Nat} {net : Net} {target source : PortRef}, netlist.nets[index]? = some net →
    target ∈ net.targets → (state.pin target).used = true → source ∈ net.sources →
    net.tristate = false ∨ Net.isDriving netlist state source = true →
    (state.pin source).used = true
  /-- A phase that is needed uses what it reads, unless it ignored it. -/
  phase : ∀ {part position index : Nat} {phase : Phase} {port : Port},
    netlist.Ordinary part position phase → state.Needs part phase → index ∈ phase.reads →
    netlist.port? ⟨part, index⟩ = some port →
    (state.pin ⟨part, index⟩).isIgnored port.type = false → (state.pin ⟨part, index⟩).used = true
  /-- Control inputs are used. -/
  control : ∀ {part position index : Nat} {phase : Phase} {port : Port},
    netlist.Ordinary part position phase → index ∈ phase.reads →
    netlist.port? ⟨part, index⟩ = some port → port.type.ctrl = true →
    (state.pin ⟨part, index⟩).used = true
  /-- The clock edge uses what it reads. -/
  latch : ∀ {part position index : Nat} {phase : Phase},
    netlist.phase? part position = some phase → phase.latch = true → index ∈ phase.reads →
    (state.pin ⟨part, index⟩).used = true

section

variable (hflat : netlist.Flat) (hstatic : netlist.Static) (h : State.Sound netlist begin)

include hflat hstatic h

/-- When the walk comes to a net, one of its readers is used already if one ever is. -/
theorem target_used_before (htrace : netlist.trace state = left ++ .net index :: right)
    (hnet : netlist.nets[index]? = some net) (htarget : target ∈ net.targets)
    (hused : ((begin.traceBack netlist (netlist.trace state)).pin target).used = true) :
    ∃ other ∈ net.targets, ((begin.traceBack netlist right).pin other).used = true := by
  obtain ⟨port, hattached, -⟩ := hflat.wired.target hnet htarget
  have hbehind := (State.tracked_traceBack right begin).sound h
  rw [htrace, State.traceBack_split] at hused
  rcases State.used_or_exists_passes ((State.tracked_traceTask _ _).sound hbehind) hattached.found
    hused with hbefore | ⟨task, htask, hpasses⟩
  · rcases (State.used_traceNet hbehind hattached.found (getD_nets hnet)).mp hbefore with
      hself | ⟨hany, -⟩
    · exact ⟨target, htarget, hself⟩
    · exact hany
  · exact absurd hpasses (not_passes_target hflat hstatic htrace hnet htarget htask)

/-- When the walk comes to a phase, it is needed already if it ever is. -/
theorem needs_before (htrace : netlist.trace state = left ++ .phase part position :: right)
    (hphase : netlist.Ordinary part position phase)
    (hneeds : (begin.traceBack netlist (netlist.trace state)).Needs part phase) :
    (begin.traceBack netlist right).Needs part phase := by
  have hwired := hflat.wired
  obtain ⟨placed, hpart, hfound⟩ := part_of_phase hphase
  have hbehind := (State.tracked_traceBack right begin).sound h
  rw [htrace, State.traceBack_split] at hneeds
  rcases hneeds with hnone | ⟨written, hwritten, hused⟩
  · exact Or.inl hnone
  cases hport : netlist.port? ⟨part, written⟩ with
  | none =>
    refine Or.inr ⟨written, hwritten, ?_⟩
    rw [State.pin_eq_default hbehind hport]
  | some port =>
    obtain ⟨owner, howner, hplace⟩ := part_of_port hport
    obtain rfl := Option.some.inj (howner.symm.trans hpart)
    rcases State.used_or_exists_passes ((State.tracked_traceTask _ _).sound hbehind) hport hused with
      hbefore | ⟨task, htask, hpasses⟩
    · rcases (State.used_tracePhase hbehind hport (getD_phase hphase.1)).mp hbefore with
        hself | ⟨-, hlook, hctrl | ⟨hneeds, -⟩⟩
      · exact Or.inr ⟨written, hwritten, hself⟩
      · have houtput := (hflat.built owner (List.mem_of_getElem? hpart)).output_of_writes hfound
          hwritten hplace
        have hread := control_read hwired hpart hfound hlook hplace hctrl
        rw [((hwired.regularAt hpart).reads hfound hphase.2 hread hplace).2] at houtput
        cases houtput
      · exact hneeds
    · exact absurd hpasses (not_passes_written hflat hstatic htrace hphase hwritten htask)

/-- The marks that a walk through a whole settle leaves are closed. -/
theorem covered_traceBack (state : State)
    (hlatch : ∀ {part position index : Nat} {phase : Phase},
      netlist.phase? part position = some phase → phase.latch = true → index ∈ phase.reads →
      (begin.pin ⟨part, index⟩).used = true) :
    netlist.Covered (begin.traceBack netlist (netlist.trace state)) := by
  have hwired := hflat.wired
  have hdone : State.Sound netlist (begin.traceBack netlist (netlist.trace state)) :=
    (State.tracked_traceBack _ begin).sound h
  refine ⟨fun {index net target source} hnet htarget hused hsource hdrives => ?_,
    fun {part position index phase port} hphase hneeds hread hport hlooked => ?_,
    fun {part position index phase port} hphase hread hport hctrl => ?_,
    fun {part position index phase} hphase hlatched hread => ?_⟩
  · obtain ⟨port, hattached, -⟩ := hwired.source hnet hsource
    have hport := hattached.found
    obtain ⟨left, right, htrace⟩ := exists_split hnet state
    have hany := target_used_before hflat hstatic h htrace hnet htarget hused
    have hbehind := (State.tracked_traceBack right begin).sound h
    rw [htrace] at hdrives ⊢
    refine State.used_split h hport left
      ((State.used_traceNet hbehind hport (getD_nets hnet)).mpr (Or.inr ⟨hany, hsource, ?_⟩))
    rwa [isDriving_eq hport, (State.tracked_split left right begin).agrees.drives] at hdrives
  · obtain ⟨left, right, htrace⟩ := exists_split_phase hphase state
    have hneeds := needs_before hflat hstatic h htrace hphase hneeds
    have hbehind := (State.tracked_traceBack right begin).sound h
    rw [htrace] at hlooked ⊢
    rw [Pin.isIgnored, (State.tracked_split left right begin).agrees.enabled] at hlooked
    exact State.used_split h hport left
      ((State.used_tracePhase hbehind hport (getD_phase hphase.1)).mpr
        (Or.inr ⟨rfl, List.mem_append_left _ hread, Or.inr ⟨hneeds, hlooked⟩⟩))
  · obtain ⟨left, right, htrace⟩ := exists_split_phase hphase state
    have hbehind := (State.tracked_traceBack right begin).sound h
    rw [htrace]
    exact State.used_split h hport left
      ((State.used_tracePhase hbehind hport (getD_phase hphase.1)).mpr
        (Or.inr ⟨rfl, List.mem_append_left _ hread, Or.inl hctrl⟩))
  · cases hport : netlist.port? ⟨part, index⟩ with
    | none => rw [State.pin_eq_default hdone hport]
    | some port => exact State.used_traceBack h hport _ (hlatch hphase hlatched hread)

/-- Finding out what was used leaves closed marks. -/
theorem covered_traceUsage {executed : List Nat}
    (htrace : (compile netlist).trace executed = netlist.trace state) :
    netlist.Covered (begin.traceUsage netlist (compile netlist) executed) := by
  have hclear : State.Sound netlist
      (begin.mapPins netlist fun _ pin => { pin with used := false }) := h.mapPins _
  rw [State.traceUsage_eq, htrace]
  refine covered_traceBack hflat hstatic ?_ state fun hphase hlatch hread =>
    State.used_markLatched hclear hphase hlatch hread
  rw [State.foldl_markLatched_eq]
  exact (State.tracked_foldl (fun state ref => State.tracked_markPin _ state ref) _ _).sound hclear

end

end Netlist

end Breadboard
