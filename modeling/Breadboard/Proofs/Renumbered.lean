import Breadboard.Proofs.Embedded
import Breadboard.Proofs.Exchange
import Breadboard.Proofs.Ranked
import Breadboard.Proofs.Parallel

/-!
# One circuit numbered in two ways

An embedding that leaves no part and no net out numbers a circuit in another
way. The second circuit is static if the first one is (`Renumbers.static`),
although its tasks stand in another order, fall into other blocks and run in
another sequence: what feeds what is the same, and a settle follows nothing
else. So the two circuits settle to the same (`Renumbers.final`), and the order
of the latch phases does not matter either (`Renumbers.latched`).
-/

namespace Breadboard

namespace Netlist

variable {netlist : Netlist} {p q i j n m : Nat}

theorem mem_tasks_iff : .phase p i ∈ netlist.tasks ↔ ∃ phase, netlist.Ordinary p i phase := by
  refine ⟨fun hmem => ?_, fun ⟨_, hphase⟩ => mem_tasks_phase hphase⟩
  obtain ⟨_, _, phase, hphase, heq⟩ | ⟨_, -, heq⟩ := mem_tasks.mp hmem
  · cases heq
    exact ⟨phase, hphase⟩
  · cases heq

theorem mem_tasks_of_fed {task other : Task} (h : netlist.Feeds task other) :
    other ∈ netlist.tasks := by
  cases h with
  | next _ hafter _ => exact mem_tasks_phase hafter
  | write hwrites =>
    obtain ⟨_, -, -, hnet⟩ := hwrites
    exact mem_tasks_net.mpr (drivenNet_lt hnet)
  | read hreads _ =>
    obtain ⟨_, hphase, -⟩ := hreads
    exact mem_tasks_phase hphase

/-! ## What feeds what, by kind of task -/

theorem feeds_phases : netlist.Feeds (.phase p i) (.phase q j) ↔ p = q ∧
    (∃ before, netlist.Ordinary p i before) ∧ (∃ after, netlist.Ordinary q j after) ∧ i < j := by
  constructor
  · intro h
    cases h with
    | next hbefore hafter hlt => exact ⟨rfl, ⟨_, hbefore⟩, ⟨_, hafter⟩, hlt⟩
  · rintro ⟨rfl, ⟨_, hbefore⟩, ⟨_, hafter⟩, hlt⟩
    exact .next hbefore hafter hlt

theorem feeds_write : netlist.Feeds (.phase p i) (.net n) ↔ ∃ port, netlist.Writes p i port n :=
  ⟨fun h => by cases h with | write hwrites => exact ⟨_, hwrites⟩,
    fun ⟨_, hwrites⟩ => .write hwrites⟩

theorem feeds_read : netlist.Feeds (.net n) (.phase p i) ↔
    ∃ port mode, netlist.Reads p i port n mode ∧ mode ≠ .crossing :=
  ⟨fun h => by cases h with | read hreads hmode => exact ⟨_, _, hreads, hmode⟩,
    fun ⟨_, _, hreads, hmode⟩ => .read hreads hmode⟩

theorem not_feeds_nets : ¬ netlist.Feeds (.net n) (.net m) := fun h => by cases h

/-! ## The order of the latch phases -/

/-- Any order of the latch phases leads to the same. -/
theorem level_latched {state : State} (hflat : netlist.Flat) (hsound : State.Sound netlist state)
    {steps : List (Nat × Nat)} (hperm : steps.Perm (compile netlist).latchSteps) :
    (netlist.latched state).Level
      (steps.foldl (fun state (part, phase) => state.runPhase netlist part phase) state) := by
  have hsounds : ∀ steps : List (Nat × Nat), State.Sound netlist
      (steps.foldl (fun state (part, phase) => state.runPhase netlist part phase) state) := by
    intro steps
    have hfoldl := State.Sound.foldl_perform hflat.wired.native
      (steps.map fun step => .phase step.1 step.2) hsound
    rwa [List.foldl_map] at hfoldl
  have hlatched := latched_latched hflat hsound
  have hlatched' := latched_foldl hflat steps (hperm.nodup_iff.mpr netlist.nodup_latchSteps)
    (fun _ hstep => mem_latchSteps.mp (hperm.subset hstep)) hsound
  refine .of_places (hsounds _) (hsounds _) (fun ref _ _ => ?_) (fun part => ?_) ?_ ?_
  · exact (hlatched.pin ref).trans (hlatched'.pin ref).symm
  · rw [hlatched.memory, hlatched'.memory]
    simp only [hperm.mem_iff]
  · exact hlatched.nets.trans hlatched'.nets.symm
  · rw [hlatched.status, hlatched'.status]

end Netlist

namespace Embedding

variable {e : Embedding} {inner outer : Netlist} {small big : State} {p n position port : Nat}
  {ref : PortRef} {task other : Task}

/-- The inner circuit binds its ports to its own nets. -/
structure Seated (e : Embedding) (inner outer : Netlist) : Prop extends e.Places inner outer where
  bound : ∀ {ref : PortRef} {port : Port} {n : Nat}, inner.port? ref = some port →
    port.net = some n → n < inner.nets.length

/-- Nothing of the outer circuit is left out. -/
structure Renumbers (e : Embedding) (inner outer : Netlist) : Prop extends
    e.Places inner outer where
  part_onto : ∀ p < outer.parts.length, ∃ q < inner.parts.length, e.part q = p
  net_onto : ∀ n < outer.nets.length, ∃ m < inner.nets.length, e.net m = n
  flat : inner.Flat
  flat' : outer.Flat
  static : outer.Static

theorem Extends.level {big' : State} (h : e.Extends inner small big) (hlevel : big.Level big') :
    e.Extends inner small big' :=
  ⟨hlevel.parts ▸ h.part, hlevel.nets ▸ h.net, h.halted.trans hlevel.halted⟩

/-! ## Ports and nets -/

namespace Places

variable (h : e.Places inner outer)

include h

theorem ref_inj {other : PortRef} (href : ref.part < inner.parts.length)
    (hother : other.part < inner.parts.length) (heq : e.ref ref = e.ref other) : ref = other := by
  obtain ⟨part, port⟩ := ref
  obtain ⟨part', port'⟩ := other
  simp only [Embedding.ref, PortRef.mk.injEq] at heq
  rw [h.part_inj part href part' hother heq.1, heq.2]

theorem hasSource_iff (hn : n < inner.nets.length) (href : ref.part < inner.parts.length) :
    outer.HasSource (e.net n) (e.ref ref) ↔ inner.HasSource n ref := by
  have hjoined := List.getElem?_eq_getElem hn
  obtain ⟨host, hhost, -, -, hsources, -⟩ := h.net hjoined
  constructor
  · rintro ⟨net, hnet, hmem⟩
    obtain rfl := Option.some.inj (hhost.symm.trans hnet)
    obtain ⟨source, hsource, heq⟩ := List.mem_map.mp (hsources.subset hmem)
    have hlisted := h.listed n source ⟨_, hjoined, Or.inl hsource⟩
    exact ⟨_, hjoined, h.ref_inj hlisted href heq ▸ hsource⟩
  · rintro ⟨net, hnet, hmem⟩
    obtain rfl := Option.some.inj (hjoined.symm.trans hnet)
    exact ⟨host, hhost, hsources.symm.subset (List.mem_map_of_mem hmem)⟩

theorem hasTarget_iff (hn : n < inner.nets.length) (href : ref.part < inner.parts.length) :
    outer.HasTarget (e.net n) (e.ref ref) ↔ inner.HasTarget n ref := by
  have hjoined := List.getElem?_eq_getElem hn
  obtain ⟨host, hhost, -, -, -, htargets⟩ := h.net hjoined
  constructor
  · rintro ⟨net, hnet, hmem⟩
    obtain rfl := Option.some.inj (hhost.symm.trans hnet)
    exact ⟨_, hjoined, (htargets ref href).mp hmem⟩
  · rintro ⟨net, hnet, hmem⟩
    obtain rfl := Option.some.inj (hjoined.symm.trans hnet)
    exact ⟨host, hhost, (htargets ref href).mpr hmem⟩

theorem phase? (hp : p < inner.parts.length) (position : Nat) :
    outer.phase? (e.part p) position = inner.phase? p position := by
  obtain ⟨placed, host, hplaced, hhost, -, hphases, -⟩ := h.exists_host hp
  rw [Netlist.phase?, Netlist.phase?, hplaced, hhost]
  simp [hphases]

theorem ordinary_iff (hp : p < inner.parts.length) {phase : Phase} :
    outer.Ordinary (e.part p) position phase ↔ inner.Ordinary p position phase := by
  rw [Netlist.Ordinary, Netlist.Ordinary, h.phase? hp]

/-- A port is listed by the image of a net as by the net. -/
theorem lists (hlists : inner.Lists n ref) : outer.Lists (e.net n) (e.ref ref) := by
  have href := h.listed n ref hlists
  obtain ⟨net, hnet, -⟩ := id hlists
  have hn := (List.getElem?_eq_some_iff.mp hnet).1
  rw [Netlist.lists_iff] at hlists ⊢
  rwa [h.hasSource_iff hn href, h.hasTarget_iff hn href]

end Places

/-- A task of a circuit is about one of its parts or nets. -/
theorem known_of_mem {netlist : Netlist} (htask : task ∈ netlist.tasks) : Known netlist task := by
  obtain ⟨p, position, phase, hphase, rfl⟩ | ⟨n, hn, rfl⟩ := Netlist.mem_tasks.mp htask
  · obtain ⟨placed, hplaced, -⟩ := Netlist.part_of_phase hphase
    exact (List.getElem?_eq_some_iff.mp hplaced).1
  · exact hn

theorem drivenNet_iff {netlist : Netlist} : netlist.drivenNet? ref = some n ↔
    (netlist.port? ref).bind (·.net) = some n ∧ netlist.HasSource n ref := by
  rw [Netlist.drivenNet?, Option.filter_eq_some_iff, Netlist.HasSource]
  refine and_congr_right fun _ => ?_
  cases netlist.nets[n]? <;> simp

theorem readNet_iff {netlist : Netlist} : netlist.readNet? ref = some n ↔
    (netlist.port? ref).bind (·.net) = some n ∧ netlist.HasTarget n ref := by
  rw [Netlist.readNet?, Option.filter_eq_some_iff, Netlist.HasTarget]
  refine and_congr_right fun _ => ?_
  cases netlist.nets[n]? <;> simp

/-! ## What feeds what -/

namespace Seated

variable (h : e.Seated inner outer)

include h

/-- A port is bound to the image of a net if it is bound to the net. -/
theorem bound_iff (hn : n < inner.nets.length) (href : ref.part < inner.parts.length) :
    (outer.port? (e.ref ref)).bind (·.net) = some (e.net n) ↔
      (inner.port? ref).bind (·.net) = some n := by
  rw [h.port? href]
  cases hport : inner.port? ref with
  | none => simp
  | some found =>
    simp only [Option.map_some, Option.bind_some, Embedding.port]
    cases hbound : found.net with
    | none => simp
    | some m =>
      have hm := h.bound hport hbound
      simp only [Option.map_some, Option.some.injEq]
      exact ⟨fun heq => h.net_inj m hm n hn heq, fun heq => heq ▸ rfl⟩

theorem drives_iff (hn : n < inner.nets.length) (href : ref.part < inner.parts.length) :
    outer.drivenNet? (e.ref ref) = some (e.net n) ↔ inner.drivenNet? ref = some n := by
  rw [drivenNet_iff, drivenNet_iff, h.bound_iff hn href, h.hasSource_iff hn href]

theorem reads_iff (hn : n < inner.nets.length) (href : ref.part < inner.parts.length) :
    outer.readNet? (e.ref ref) = some (e.net n) ↔ inner.readNet? ref = some n := by
  rw [readNet_iff, readNet_iff, h.bound_iff hn href, h.hasTarget_iff hn href]

theorem writes_iff (hp : p < inner.parts.length) (hn : n < inner.nets.length) :
    outer.Writes (e.part p) position port (e.net n) ↔ inner.Writes p position port n := by
  refine exists_congr fun phase => and_congr (h.ordinary_iff hp) (and_congr_right fun _ => ?_)
  exact h.drives_iff hn (show (⟨p, port⟩ : PortRef).part < inner.parts.length from hp)

theorem drivesFrom_eq (hp : p < inner.parts.length) (hn : n < inner.nets.length) :
    outer.drivesFrom (e.part p) position (e.net n) = inner.drivesFrom p position n := by
  obtain ⟨placed, host, hplaced, hhost, -, hphases, -⟩ := h.exists_host hp
  have hport : ∀ port, decide (outer.drivenNet? ⟨e.part p, port⟩ = some (e.net n)) =
      decide (inner.drivenNet? ⟨p, port⟩ = some n) := fun port =>
    decide_eq_decide.mpr
      (h.drives_iff hn (show (⟨p, port⟩ : PortRef).part < inner.parts.length from hp))
  rw [Netlist.drivesFrom, Netlist.drivesFrom, List.getD_eq_getElem?_getD,
    List.getD_eq_getElem?_getD, hplaced, hhost]
  simp only [Option.getD_some, hphases, hport]

theorem reads_mode (hp : p < inner.parts.length) (hn : n < inner.nets.length) {mode : ReadMode} :
    outer.Reads (e.part p) position port (e.net n) mode ↔ inner.Reads p position port n mode := by
  refine exists_congr fun phase => and_congr (h.ordinary_iff hp) (and_congr_right fun _ => ?_)
  rw [h.drivesFrom_eq hp hn]
  exact and_congr_left fun _ =>
    h.reads_iff hn (show (⟨p, port⟩ : PortRef).part < inner.parts.length from hp)

/-- The images of two tasks feed each other as the tasks do. -/
theorem feeds_iff (htask : Known inner task) (hother : Known inner other) :
    outer.Feeds (e.task task) (e.task other) ↔ inner.Feeds task other := by
  match task, other with
  | .phase p i, .phase q j =>
    simp only [Embedding.task, Netlist.feeds_phases, h.ordinary_iff htask, h.ordinary_iff hother]
    exact and_congr_left fun _ =>
      ⟨fun heq => h.part_inj p htask q hother heq, fun heq => congrArg e.part heq⟩
  | .phase p i, .net n =>
    simp only [Embedding.task, Netlist.feeds_write, h.writes_iff htask hother]
  | .net n, .phase p i =>
    simp only [Embedding.task, Netlist.feeds_read, h.reads_mode hother htask]
  | .net n, .net m => exact iff_of_false Netlist.not_feeds_nets Netlist.not_feeds_nets

theorem task_mem_iff (hknown : Known inner task) :
    e.task task ∈ outer.tasks ↔ task ∈ inner.tasks := by
  cases task with
  | phase p position =>
    simp only [Embedding.task, Netlist.mem_tasks_iff, h.ordinary_iff hknown]
  | net n =>
    obtain ⟨host, hhost, -⟩ := h.net (List.getElem?_eq_getElem hknown)
    have hlt := (List.getElem?_eq_some_iff.mp hhost).1
    simp only [Embedding.task, Netlist.mem_tasks_net, hlt, true_iff]
    exact hknown

/-! ## Static circuits -/

/-- A circuit that stands in a static one is static: the order in which the tasks of the
outer one run ranks those of the inner one. -/
theorem inner_static (hstatic : outer.Static) : inner.Static := by
  let rank (task : Task) : Nat := (outer.trace (.fresh outer)).idxOf (e.task task)
  refine @Netlist.static_of_rank inner rank
    (fun first second hfeeds => ?_) (fun {p position port phase found} hphase hany hport => ?_)
    (fun {p position port n mode} hreads => ?_) fun n m ref hfirst hsecond => ?_
  · have hknown : ∀ {task : Task}, task ∈ inner.tasks → Known inner task := known_of_mem
    have hfeeds := (h.feeds_iff (hknown (Netlist.mem_tasks_of_feeds hfeeds))
      (hknown (Netlist.mem_tasks_of_fed hfeeds))).mpr hfeeds
    exact (Netlist.before_of_feeds hstatic _ hfeeds).idxOf_lt (Netlist.trace_nodup outer _)
  · have hp : p < inner.parts.length := known_of_mem (Netlist.mem_tasks_phase hphase)
    have hfound : outer.port? (e.ref ⟨p, port⟩) = some (e.port found) := by
      rw [h.port? hp, hport, Option.map_some]
    have hunbound := hstatic.anyOf ((h.ordinary_iff hp).mpr hphase) hany hfound
    simpa [Port.bound, Embedding.port] using hunbound
  · obtain ⟨phase, hphase, hport, hnet, -⟩ := id hreads
    have hp : p < inner.parts.length := known_of_mem (Netlist.mem_tasks_phase hphase)
    have hn := Netlist.readNet_lt hnet
    rw [← h.drivesFrom_eq hp hn]
    exact hstatic.uncrossed ((h.reads_mode hp hn).mpr hreads)
  · obtain ⟨net, hnet, -⟩ := id hfirst
    obtain ⟨net', hnet', -⟩ := id hsecond
    exact h.net_inj n (List.getElem?_eq_some_iff.mp hnet).1 m (List.getElem?_eq_some_iff.mp hnet').1
      (hstatic.single _ _ _ (h.lists hfirst) (h.lists hsecond))

end Seated

/-! ## Another numbering -/

namespace Renumbers

variable (h : e.Renumbers inner outer)

include h

theorem seated : e.Seated inner outer where
  toPlaces := h.toPlaces
  bound hport hbound := by
    obtain ⟨net, hnet, -⟩ := h.flat.wired.known hport hbound
    exact (List.getElem?_eq_some_iff.mp hnet).1

/-- The tasks of the inner circuit are those of the outer one under other names. -/
theorem tasks_perm : (inner.tasks.map e.task).Perm outer.tasks := by
  have hinj : ∀ task ∈ inner.tasks, ∀ other ∈ inner.tasks, e.task task = e.task other →
      task = other := by
    intro task htask other hother heq
    have htask := known_of_mem htask
    have hother := known_of_mem hother
    match task, other, heq with
    | .phase p i, .phase q j, heq =>
      obtain ⟨hpart, rfl⟩ := Task.phase.inj heq
      rw [h.part_inj p htask q hother hpart]
    | .net n, .net m, heq => rw [h.net_inj n htask m hother (Task.net.inj heq)]
  refine (List.perm_ext_iff_of_nodup (inner.nodup_tasks.map_on hinj) outer.nodup_tasks).mpr
    fun task => ⟨fun htask => ?_, fun htask => ?_⟩
  · obtain ⟨source, hsource, rfl⟩ := List.mem_map.mp htask
    exact (h.seated.task_mem_iff (known_of_mem hsource)).mpr hsource
  · have honto : ∃ source, Known inner source ∧ e.task source = task := by
      cases task with
      | phase p position =>
        obtain ⟨q, hq, rfl⟩ := h.part_onto p (known_of_mem htask)
        exact ⟨.phase q position, hq, rfl⟩
      | net n =>
        obtain ⟨m, hm, rfl⟩ := h.net_onto n (known_of_mem htask)
        exact ⟨.net m, hm, rfl⟩
    obtain ⟨source, hknown, rfl⟩ := honto
    exact List.mem_map_of_mem ((h.seated.task_mem_iff hknown).mp htask)

/-! ## Settling -/

theorem trace_perm (state : State) : ((inner.trace state).map e.task).Perm outer.tasks :=
  ((Netlist.trace_perm inner state).map e.task).trans h.tasks_perm

/-- The order in which one numbering settles heeds what feeds what in the other. -/
theorem heeds (state : State) : outer.Heeds ((inner.trace state).map e.task) := by
  intro first second hfeeds hbefore
  obtain ⟨task, other, hbefore', htask, hother⟩ := Before.of_map hbefore
  subst htask hother
  have hknown : ∀ {task : Task}, task ∈ inner.trace state → Known inner task := fun htask =>
    known_of_mem (Netlist.mem_trace.mp htask)
  have hfeeds' : inner.Feeds other task :=
    (h.seated.feeds_iff (hknown hbefore'.mem_second) (hknown hbefore'.mem_first)).mp hfeeds
  exact Netlist.heeds_trace (h.seated.inner_static h.static) state other task hfeeds' hbefore'

/-- Both numberings settle to the same. -/
theorem final (hsound : State.Sound outer big) (hstate : e.Extends inner small big) :
    e.Extends inner (inner.final small) (outer.final big) := by
  have hknown : ∀ task ∈ inner.trace small, Known inner task := fun task htask =>
    known_of_mem (Netlist.mem_trace.mp htask)
  have hlevel := Netlist.level_final h.flat'.wired h.static hsound (h.trace_perm small)
    (h.heeds small)
  rw [Netlist.final_eq]
  exact (h.foldl _ (h.begun hstate) hknown).level hlevel.symm

/-! ## The clock edge -/

theorem latchStep_iff (hp : p < inner.parts.length) :
    (e.part p, position) ∈ (compile outer).latchSteps ↔
      (p, position) ∈ (compile inner).latchSteps := by
  rw [Netlist.mem_latchSteps, Netlist.mem_latchSteps, h.phase? hp]

/-- The clock edge concerns the same parts. -/
theorem latchSteps_perm : ((compile inner).latchSteps.map fun step => (e.part step.1, step.2)).Perm
    (compile outer).latchSteps := by
  have hknown : ∀ step ∈ (compile inner).latchSteps, step.1 < inner.parts.length := by
    intro step hstep
    obtain ⟨_, hphase, -⟩ := Netlist.mem_latchSteps.mp hstep
    obtain ⟨placed, hplaced, -⟩ := Option.bind_eq_some_iff.mp hphase
    exact (List.getElem?_eq_some_iff.mp hplaced).1
  have hinj : ∀ step ∈ (compile inner).latchSteps, ∀ other ∈ (compile inner).latchSteps,
      (e.part step.1, step.2) = (e.part other.1, other.2) → step = other := by
    intro step hstep other hother heq
    obtain ⟨hpart, hposition⟩ := Prod.mk.inj heq
    exact Prod.ext (h.part_inj _ (hknown _ hstep) _ (hknown _ hother) hpart) hposition
  refine (List.perm_ext_iff_of_nodup (inner.nodup_latchSteps.map_on hinj)
    outer.nodup_latchSteps).mpr fun step => ⟨fun hstep => ?_, fun hstep => ?_⟩
  · obtain ⟨source, hsource, rfl⟩ := List.mem_map.mp hstep
    exact (h.latchStep_iff (hknown source hsource)).mpr hsource
  · obtain ⟨part, position⟩ := step
    obtain ⟨_, hphase, -⟩ := Netlist.mem_latchSteps.mp hstep
    obtain ⟨placed, hplaced, -⟩ := Option.bind_eq_some_iff.mp hphase
    obtain ⟨p, hp, rfl⟩ := h.part_onto part (List.getElem?_eq_some_iff.mp hplaced).1
    exact List.mem_map.mpr ⟨(p, position), (h.latchStep_iff hp).mp hstep, rfl⟩

/-- Both numberings remember the same at the clock edge. -/
theorem latched (hsound : State.Sound outer big) (hstate : e.Extends inner small big) :
    e.Extends inner (inner.latched small) (outer.latched big) := by
  have hknown : ∀ task ∈ (compile inner).latchSteps.map fun step => Task.phase step.1 step.2,
      Known inner task := by
    intro task htask
    obtain ⟨step, hstep, rfl⟩ := List.mem_map.mp htask
    obtain ⟨_, hphase, -⟩ := Netlist.mem_latchSteps.mp hstep
    obtain ⟨placed, hplaced, -⟩ := Option.bind_eq_some_iff.mp hphase
    exact (List.getElem?_eq_some_iff.mp hplaced).1
  have hfoldl := h.foldl _ hstate hknown
  have hlevel := Netlist.level_latched h.flat' hsound h.latchSteps_perm
  simp only [List.map_map, List.foldl_map, Function.comp_def] at hfoldl hlevel
  exact hfoldl.level hlevel.symm

end Renumbers

end Embedding

end Breadboard
