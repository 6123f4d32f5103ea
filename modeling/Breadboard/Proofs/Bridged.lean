import Breadboard.Proofs.Once
import Breadboard.Proofs.Stable

/-!
# When a bridge gets a value across

A bridge that is on carries the value of one bus over to another in three steps:
the first bus is resolved, the copy phase runs, and the second bus is resolved.
The schedule does not make them wait for each other, for the copy phase may run as
soon as any one of the sides is there. What a settle does to the second bus
therefore comes down to the order in which the three have run
(`settle_bridges_iff_timely`). If the copy phase runs first, it finds at its source
side what the settle before has left (`Netlist.sourceLook`); if it runs last, the
second bus has been resolved without it. Whether it comes in time can depend on the
order of the wires alone (`settle_misses_late_source`).
-/

namespace Breadboard

namespace Netlist

variable {netlist : Netlist} {state : State} {ref : PortRef} {port : Port} {placed : Part}
  {part index : Nat} {net : Net} {left middle right : List Task}

/-- The side of a bridge that is copied. -/
def sourceSide (part : Nat) (forward : Bool) : PortRef :=
  ⟨part, (Device.bridgeSides forward).1⟩

/-- The side of a bridge that the other one is copied onto. -/
def targetSide (part : Nat) (forward : Bool) : PortRef :=
  ⟨part, (Device.bridgeSides forward).2⟩

/-- What the copy phase of a bridge finds at its source side: what the settle
leaves there if it has resolved the net before, and otherwise what it has met. -/
def sourceLook (netlist : Netlist) (before after : State) (index part : Nat) (forward : Bool) :
    Word × Bool :=
  if Before (netlist.trace before) (.net index) (.phase part 1) then
    after.look (sourceSide part forward)
  else before.look (sourceSide part forward)

/-- A bridge that is on, between the net `near` of its source side and the net `far`
of its target side. Its second control pin says which side is which. -/
structure Bridges (netlist : Netlist) (state : State) (part : Nat) (forward : Bool)
    (source target : Port) (near far : Nat) : Prop where
  device : ∃ placed, netlist.parts[part]? = some placed ∧ placed.device = .bridge
  enabled : (state.pin ⟨part, 0⟩).value ≠ 0
  direction : forward = decide ((state.pin ⟨part, 1⟩).value = 0)
  sourcePort : netlist.port? (sourceSide part forward) = some source
  targetPort : netlist.port? (targetSide part forward) = some target
  sourceNet : source.net = some near
  targetNet : target.net = some far

/-! ## The two phases of a bridge -/

/-- In the end a bridge remembers what its control pins show. -/
theorem bridge_memory_final (hflat : netlist.Flat) (hloops : (compile netlist).diagnostics = [])
    (huncrossed : netlist.Uncrossed) (h : State.Sound netlist state)
    (hpart : netlist.parts[part]? = some placed) (hbridge : placed.device = .bridge) :
    ((netlist.final state).part part).memory =
      .bridge (decide (((netlist.final state).pin ⟨part, 0⟩).value ≠ 0))
        (decide (((netlist.final state).pin ⟨part, 1⟩).value = 0)) := by
  have hwired := hflat.wired
  have hphase := turn_ordinary hwired hpart hbridge
  obtain ⟨left, right, htrace⟩ := exists_split_phase hphase state
  have hlook : ∀ control ∈ [0, 1], ((netlist.after state left).pin ⟨part, control⟩).value =
      ((netlist.final state).pin ⟨part, control⟩).value := by
    intro control hcontrol
    have hlook := look_read hwired hloops huncrossed h htrace hphase hcontrol rfl
      fun first second hfirst hsecond => by
        obtain ⟨net, hnet, href⟩ := id hfirst
        obtain ⟨port, hattached⟩ := hwired.attached hnet href
        exact hflat.eq_of_wary hpart hattached.found (by rw [hbridge]; rfl) hfirst hsecond
    exact (Prod.mk.inj hlook).1
  obtain ⟨enabled, forward, hmemory⟩ := bridge_memory hpart hbridge (sound_after hwired h left)
  rw [memory_turn hwired h hpart hbridge htrace, State.effect_eq hpart, hbridge,
    ← hlook 0 (by simp), ← hlook 1 (by simp), State.pin, State.pin]
  generalize (netlist.after state left).part part = held at hmemory
  obtain ⟨pins, memory⟩ := held
  obtain rfl : memory = .bridge enabled forward := hmemory
  simp [Device.effect]

/-- The sides of a bridge have one width. -/
theorem width_sides (hwired : netlist.Wired) (hpart : netlist.parts[part]? = some placed)
    (hbridge : placed.device = .bridge) {forward : Bool} {source target : Port}
    (hsource : netlist.port? (sourceSide part forward) = some source)
    (htarget : netlist.port? (targetSide part forward) = some target) :
    source.width = target.width := by
  obtain ⟨-, width, hports⟩ := (hwired.regularAt hpart).bridge hbridge
  have hside : ∀ {side : Nat} {port : Port}, side = 2 ∨ side = 3 →
      netlist.port? ⟨part, side⟩ = some port → port.width = width := by
    intro side port hside hport
    obtain ⟨owner, howner, hplace⟩ := part_of_port hport
    obtain rfl := Option.some.inj (howner.symm.trans hpart)
    have hdecl : (owner.ports.map (·.toPortDecl))[side]? = some port.toPortDecl := by
      rw [List.getElem?_map]
      exact congrArg (Option.map (·.toPortDecl)) hplace
    rw [hports] at hdecl
    rcases hside with rfl | rfl <;> exact (congrArg PortDecl.width (Option.some.inj hdecl)).symm
  cases forward with
  | true => exact (hside (Or.inl rfl) hsource).trans (hside (Or.inr rfl) htarget).symm
  | false => exact (hside (Or.inr rfl) hsource).trans (hside (Or.inl rfl) htarget).symm

/-- What the copy phase finds at its source side. -/
theorem look_copied (hflat : netlist.Flat) (h : State.Sound netlist state)
    (hpart : netlist.parts[part]? = some placed)
    (hbridge : placed.device = .bridge)
    (htrace : netlist.trace state = left ++ .phase part 1 :: right) {enabled forward : Bool}
    (hmemory : ((netlist.after state left).part part).memory = .bridge enabled forward)
    {source : Port} (hsource : netlist.port? (sourceSide part forward) = some source)
    (hbound : source.net = some index) :
    (netlist.after state left).look (sourceSide part forward) =
      netlist.sourceLook state (netlist.final state) index part forward := by
  have hwired := hflat.wired
  obtain ⟨found, -, hfound, -, htype, -⟩ := bridge_ports hwired hpart hbridge forward
  obtain rfl := Option.some.inj (hfound.symm.trans hsource)
  have honly : ∀ other, sourceSide part forward ∈ (netlist.nets.getD other default).targets →
      other = index := by
    intro other htarget
    exact hflat.eq_of_bidirectional hsource (by rw [htype]; rfl)
      (input_of_mem_targets hwired hsource htarget).2 (hwired.lists_of_bound hsource hbound)
  rw [sourceLook]
  split
  · next hbefore =>
    have hleft := (before_iff_mem_left htrace).mp hbefore
    refine look_source hwired h hpart hbridge htrace hmemory fun other hother htarget => ?_
    rw [honly other htarget] at hother
    exact not_mem_right htrace hleft (List.mem_cons_of_mem _ hother)
  · next hbefore =>
    have hleft := mt (before_iff_mem_left htrace).mpr hbefore
    refine look_early hwired h (fun part position htask => ?_) hsource hpart ?_
      fun other hother htarget => ?_
    · exact ordinary_of_mem_left htrace htask
    · rw [hbridge]
      exact (not_mem_split htrace).1
    · rw [honly other htarget] at hother
      exact hleft hother

theorem filter_of_alone {p : PortRef → Bool} {list : List PortRef} (hmem : ref ∈ list)
    (hcount : list.count ref ≤ 1) (halone : ∀ other ∈ list, other ≠ ref → p other = false) :
    list.filter p = if p ref then [ref] else [] := by
  have hone : list.count ref = 1 := Nat.le_antisymm hcount (List.count_pos_iff.mpr hmem)
  have hfilter : list.filter p = (list.filter (· == ref)).filter p := by
    rw [List.filter_filter]
    refine List.filter_congr fun other hother => ?_
    by_cases heq : other = ref
    · simp [heq]
    · simp [halone other hother heq]
  rw [hfilter, List.filter_beq, hone, List.replicate_one, List.filter_singleton, cond_eq_ite]

/-! ## A bridge that is on -/

namespace Bridges

variable {forward : Bool} {source target : Port} {near far : Nat}

/-- The net of the target side lists it. -/
theorem mem_sources (hbridges : netlist.Bridges state part forward source target near far)
    (hflat : netlist.Flat) (hnet : netlist.nets[far]? = some net) :
    target.type = .dataBus ∧ targetSide part forward ∈ net.sources := by
  obtain ⟨placed, hpart, hbridge⟩ := hbridges.device
  obtain ⟨-, other, -, hother, -, htype⟩ := bridge_ports hflat.wired hpart hbridge forward
  obtain rfl := Option.some.inj (hother.symm.trans hbridges.targetPort)
  exact ⟨htype, (both_of_lists hflat hother (by rw [htype]; rfl) hnet
    (hflat.wired.lists_of_bound hother hbridges.targetNet)).1⟩

variable (hflat : netlist.Flat) (hloops : (compile netlist).diagnostics = [])
  (huncrossed : netlist.Uncrossed) (h : State.Sound netlist state)
  (hbridges : netlist.Bridges (netlist.final state) part forward source target near far)

include hflat hloops huncrossed h hbridges

/-- When the copy phase runs, the bridge knows what it is to do. -/
theorem memory_copied (htrace : netlist.trace state = left ++ .phase part 1 :: right) :
    ((netlist.after state left).part part).memory = .bridge true forward := by
  obtain ⟨placed, hpart, hbridge⟩ := hbridges.device
  rw [memory_from_last hflat.wired h hpart (by rw [hbridge]; exact htrace)
    (by rw [hbridge]; exact nofun), bridge_memory_final hflat hloops huncrossed h hpart hbridge,
    decide_eq_true hbridges.enabled, ← hbridges.direction]

/-- The target side is driven with what was found at the source side, if that was
resolved. -/
theorem pin_copied (htrace : netlist.trace state = left ++ .phase part 1 :: right) :
    let found := netlist.sourceLook state (netlist.final state) near part forward
    (netlist.after state (left ++ [.phase part 1])).pin (targetSide part forward) =
      ((netlist.after state left).pin (targetSide part forward)).drive true
        (if found.2 then some found.1 else none) := by
  intro found
  obtain ⟨placed, hpart, hbridge⟩ := hbridges.device
  have hwired := hflat.wired
  have hmemory := memory_copied hflat hloops huncrossed h hbridges htrace
  have hlook : _ = found := look_copied hflat h hpart hbridge htrace hmemory
    hbridges.sourcePort hbridges.sourceNet
  rw [State.look, State.pin, sourceSide] at hlook
  have hcopied : ((netlist.after state left).part part).copied =
      if found.2 then some found.1 else none := by
    rw [PartState.copied_eq hmemory, Bool.true_and, ← hlook]
  have hpin := pin_copy hwired hpart hbridge (sound_after hwired h left) hmemory
    (Device.bridgeSides forward).2
  rw [if_pos rfl, hcopied] at hpin
  rw [after_snoc]
  exact hpin

/-- In the end the target side drives if a value was found. -/
theorem isDriving_target (hnet : netlist.nets[far]? = some net) :
    Net.isDriving netlist (netlist.final state) (targetSide part forward) =
      (netlist.sourceLook state (netlist.final state) near part forward).2 := by
  have hwired := hflat.wired
  obtain ⟨htype, -⟩ := hbridges.mem_sources hflat hnet
  obtain ⟨placed, hpart, hbridge⟩ := hbridges.device
  have htarget := hbridges.targetPort
  obtain ⟨left, right, htrace⟩ := exists_split_phase (copy_ordinary hwired hpart hbridge) state
  have hsplit : netlist.trace state = (left ++ [.phase part 1]) ++ right := by
    rw [htrace, List.append_assoc, List.singleton_append]
  have hlast : Task.phase part placed.device.last ∈ left ++ [.phase part 1] := by
    rw [hbridge]
    exact List.mem_append_right _ (List.mem_singleton_self _)
  have hturn := turn_final hwired h hsplit htarget hpart hlast
  obtain ⟨henabled, hfacing⟩ := Prod.mk.inj hturn
  rw [isDriving_eq htarget, Pin.drives, ← henabled, ← hfacing,
    pin_copied hflat hloops huncrossed h hbridges htrace, htype]
  generalize netlist.sourceLook state (netlist.final state) near part forward = found
  obtain ⟨value, resolved⟩ := found
  cases resolved <;> rfl

/-- Nothing else driving it, the net counts the target side if that drives and was
driven in time. -/
theorem counted_target (hnet : netlist.nets[far]? = some net)
    (halone : ∀ ref ∈ net.sources, ref ≠ targetSide part forward →
      Net.isDriving netlist (netlist.final state) ref = false) :
    netlist.counted state (netlist.final state) far net =
      if Before (netlist.trace state) (.phase part 1) (.net far) ∧
        (netlist.sourceLook state (netlist.final state) near part forward).2 = true then
        [targetSide part forward]
      else [] := by
  have hwired := hflat.wired
  obtain ⟨htype, hin⟩ := hbridges.mem_sources hflat hnet
  obtain ⟨placed, hpart, hbridge⟩ := hbridges.device
  have htarget := hbridges.targetPort
  have hboth : target.type.bidirectional = true := by rw [htype]; rfl
  obtain ⟨before, behind, hcut⟩ := exists_split hnet state
  have htimely : netlist.drivenBefore state far (targetSide part forward) =
      decide (Before (netlist.trace state) (.phase part 1) (.net far)) := by
    rw [drivenBefore_eq hwired hcut htarget hpart (by rw [htype]; rfl), hbridge]
    exact decide_eq_decide.mpr (before_iff_mem_left hcut).symm
  rw [counted, Net.driving, filter_of_alone hin (hflat.count_le_one htarget hboth hnet) halone,
    isDriving_target hflat hloops huncrossed h hbridges hnet]
  cases (netlist.sourceLook state (netlist.final state) near part forward).2 with
  | false => simp
  | true =>
    have htristate : target.type.tristate = true := tristate_of_bidirectional hwired htarget hboth
    rw [if_pos rfl, List.filter_singleton, htarget, Option.getD_some, htristate, htimely]
    simp

/-- A net that counts the target side alone shows what was found. -/
theorem value_target (hnet : netlist.nets[far]? = some net)
    (hcounted : netlist.counted state (netlist.final state) far net = [targetSide part forward])
    (hbefore : Before (netlist.trace state) (.phase part 1) (.net far))
    (hfound : (netlist.sourceLook state (netlist.final state) near part forward).2 = true) :
    ((netlist.final state).net far).value =
      trim net.width (netlist.sourceLook state (netlist.final state) near part forward).1 := by
  have hwired := hflat.wired
  obtain ⟨htype, hin⟩ := hbridges.mem_sources hflat hnet
  obtain ⟨placed, hpart, hbridge⟩ := hbridges.device
  have htarget := hbridges.targetPort
  have hboth : target.type.bidirectional = true := by rw [htype]; rfl
  obtain ⟨found, hattached, -⟩ := hwired.source hnet hin
  obtain rfl := Option.some.inj (hattached.found.symm.trans htarget)
  have htristate := hattached.tristate (tristate_of_bidirectional hwired htarget hboth)
  obtain ⟨before, right, htrace⟩ := exists_split hnet state
  obtain ⟨left, middle, rfl⟩ := List.append_of_mem ((before_iff_mem_left htrace).mp hbefore)
  have hcut : netlist.trace state = left ++ .phase part 1 :: (middle ++ .net far :: right) := by
    rw [htrace, List.append_assoc, List.cons_append]
  have hsplit : netlist.trace state =
      (left ++ [.phase part 1]) ++ (middle ++ .net far :: right) := by
    rw [hcut, List.append_assoc, List.singleton_append]
  -- between the copy phase and the net nothing touches the target side
  have hpin := pin_between hwired h hsplit htarget hpart
    (by rw [hbridge]; exact List.mem_append_right _ (List.mem_singleton_self _))
    fun index hindex hlisted => by
      have heq : index = far := hflat.eq_of_bidirectional htarget hboth
        (input_of_mem_targets hwired htarget hlisted).2
        (hwired.lists_of_bound htarget hbridges.targetNet)
      rw [heq] at hindex
      exact (not_mem_split htrace).1 (List.mem_append_right _ (List.mem_cons_of_mem _ hindex))
  rw [List.append_assoc, List.singleton_append,
    pin_copied hflat hloops huncrossed h hbridges hcut, if_pos hfound] at hpin
  have hverdict := verdict_tristate hnet htristate
    (netlist.after state (left ++ .phase part 1 :: middle))
  rw [driving_after hwired h htrace hnet, hcounted] at hverdict
  rw [net_final hwired h htrace (List.getElem?_eq_some_iff.mp hnet).1, hverdict]
  simp only [Option.getD_some, hpin, Pin.drive]

/-- If the net of the source side was resolved first and had one driver, its value
is what was found. -/
theorem look_near (hnet : netlist.nets[near]? = some net)
    (hone : ((netlist.final state).net near).enabledCount = 1)
    (hbefore : Before (netlist.trace state) (.net near) (.phase part 1)) :
    netlist.sourceLook state (netlist.final state) near part forward =
      (((netlist.final state).net near).value, true) := by
  have hwired := hflat.wired
  obtain ⟨placed, hpart, hbridge⟩ := hbridges.device
  have hsource := hbridges.sourcePort
  obtain ⟨found, -, hfound, -, htype, -⟩ := bridge_ports hwired hpart hbridge forward
  obtain rfl := Option.some.inj (hfound.symm.trans hsource)
  have hboth : found.type.bidirectional = true := by rw [htype]; rfl
  obtain ⟨hin, htargets⟩ := both_of_lists hflat hsource hboth hnet
    (hwired.lists_of_bound hsource hbridges.sourceNet)
  obtain ⟨other, hattached, -⟩ := hwired.source hnet hin
  obtain rfl := Option.some.inj (hattached.found.symm.trans hsource)
  have htristate := hattached.tristate (tristate_of_bidirectional hwired hsource hboth)
  obtain ⟨left, right, htrace⟩ := exists_split_phase (copy_ordinary hwired hpart hbridge) state
  obtain ⟨before, middle, rfl⟩ := List.append_of_mem ((before_iff_mem_left htrace).mp hbefore)
  have hcut : netlist.trace state = before ++ .net near :: (middle ++ .phase part 1 :: right) := by
    rw [htrace, List.append_assoc, List.cons_append]
  have hsplit : netlist.trace state =
      (before ++ [.net near]) ++ (middle ++ .phase part 1 :: right) := by
    rw [hcut, List.append_assoc, List.singleton_append]
  have hfinal := net_final hwired h hcut (List.getElem?_eq_some_iff.mp hnet).1
  rw [hfinal] at hone ⊢
  obtain ⟨driver, -, hverdict⟩ := exists_driver_of_one hnet htristate hone
  -- the source side has heard it, and keeps it until the copy phase runs
  have hheard : (netlist.after state (before ++ [.net near])).look (sourceSide part forward) =
      (trim net.width ((netlist.after state before).pin driver).value, true) := by
    rw [after_snoc, State.look, State.perform,
      State.pin_resolve ((sound_after hwired h before).has hsource), getD_nets hnet,
      if_pos htargets, hverdict]
    rfl
  have hlast : Task.phase part placed.device.last ∉ middle := by
    rw [hbridge]
    exact fun hmem => (not_mem_split htrace).1
      (List.mem_append_right _ (List.mem_cons_of_mem _ hmem))
  have hkept := look_between hwired h hsplit hsource hpart hlast
    fun index hindex hlisted => by
      have heq : index = near := hflat.eq_of_bidirectional hsource hboth
        (input_of_mem_targets hwired hsource hlisted).2
        (hwired.lists_of_bound hsource hbridges.sourceNet)
      rw [heq] at hindex
      exact (not_mem_split hcut).2 (List.mem_append_left _ hindex)
  have hmemory := memory_copied hflat hloops huncrossed h hbridges htrace
  rw [← look_copied hflat h hpart hbridge htrace hmemory hsource hbridges.sourceNet,
    hverdict]
  rw [List.append_assoc, List.singleton_append, hheard] at hkept
  exact hkept

/-- What becomes of the net behind the bridge if nothing else drives it. -/
theorem far_final (hnet : netlist.nets[far]? = some net)
    (halone : ∀ ref ∈ net.sources, ref ≠ targetSide part forward →
      Net.isDriving netlist (netlist.final state) ref = false) :
    let found := netlist.sourceLook state (netlist.final state) near part forward
    (((netlist.final state).net far).enabledCount = 1 ↔
      Before (netlist.trace state) (.phase part 1) (.net far) ∧ found.2 = true) ∧
    (((netlist.final state).net far).enabledCount = 1 →
      ((netlist.final state).net far).value = trim net.width found.1) := by
  intro found
  obtain ⟨htype, hin⟩ := hbridges.mem_sources hflat hnet
  obtain ⟨other, hattached, -⟩ := hflat.wired.source hnet hin
  obtain rfl := Option.some.inj (hattached.found.symm.trans hbridges.targetPort)
  have htristate := hattached.tristate (by rw [htype]; rfl)
  have hcounted := counted_target hflat hloops huncrossed h hbridges hnet halone
  obtain ⟨hcount, -⟩ := count_final hflat h hnet htristate
  have hiff : ((netlist.final state).net far).enabledCount = 1 ↔
      Before (netlist.trace state) (.phase part 1) (.net far) ∧ found.2 = true := by
    rw [hcount, hcounted]
    split
    · next htimely => exact iff_of_true rfl htimely
    · next htimely => exact iff_of_false (by simp) htimely
  refine ⟨hiff, fun hone => ?_⟩
  obtain ⟨hbefore, hfound⟩ := hiff.mp hone
  rw [if_pos ⟨hbefore, hfound⟩] at hcounted
  exact value_target hflat hloops huncrossed h hbridges hnet hcounted hbefore hfound

omit hloops huncrossed in
/-- The bus on the far side is as wide as the one on the near side, so the value of a
driver fits. -/
theorem trim_near (hwidth : source.width ≠ 0) {behind : Net} (hnet : netlist.nets[near]? = some net)
    (hbehind : netlist.nets[far]? = some behind)
    (hone : ((netlist.final state).net near).enabledCount = 1) :
    trim behind.width ((netlist.final state).net near).value =
      ((netlist.final state).net near).value := by
  have hwired := hflat.wired
  obtain ⟨placed, hpart, hbridge⟩ := hbridges.device
  have hsource := hbridges.sourcePort
  obtain ⟨found, -, hfound, -, htype, -⟩ := bridge_ports hwired hpart hbridge forward
  obtain rfl := Option.some.inj (hfound.symm.trans hsource)
  have hboth : found.type.bidirectional = true := by rw [htype]; rfl
  obtain ⟨hin, -⟩ := both_of_lists hflat hsource hboth hnet
    (hwired.lists_of_bound hsource hbridges.sourceNet)
  obtain ⟨other, hattached, -⟩ := hwired.source hnet hin
  obtain rfl := Option.some.inj (hattached.found.symm.trans hsource)
  have htristate := hattached.tristate (tristate_of_bidirectional hwired hsource hboth)
  obtain ⟨-, hlisted⟩ := hbridges.mem_sources hflat hbehind
  obtain ⟨beyond, hbeyond, -⟩ := hwired.source hbehind hlisted
  obtain rfl := Option.some.inj (hbeyond.found.symm.trans hbridges.targetPort)
  have hsides := width_sides hwired hpart hbridge hsource hbridges.targetPort
  have hwidths : behind.width = net.width :=
    calc behind.width = beyond.width := (hbeyond.width.resolve_right (hsides ▸ hwidth)).symm
      _ = other.width := hsides.symm
      _ = net.width := hattached.width.resolve_right hwidth
  obtain ⟨left, right, htrace⟩ := exists_split hnet state
  rw [net_final hwired h htrace (List.getElem?_eq_some_iff.mp hnet).1] at hone ⊢
  obtain ⟨driver, -, hverdict⟩ := exists_driver_of_one hnet htristate hone
  rw [hverdict, hwidths]
  exact trim_trim ..

end Bridges

/-- What is found depends on what can be seen of the states. -/
theorem sourceLook_congr {before after other : State} (h : other.Matches after) (index part : Nat)
    (forward : Bool) : netlist.sourceLook before other index part forward =
      netlist.sourceLook before after index part forward := by
  have hlook : other.look (sourceSide part forward) = after.look (sourceSide part forward) := by
    rw [State.look, State.look, h.value, h.resolved]
  rw [sourceLook, sourceLook, hlook]

theorem Bridges.congr {first second : State} {forward : Bool} {source target : Port}
    {near far : Nat} (hbridges : netlist.Bridges first part forward source target near far)
    (h : first.Matches second) :
    netlist.Bridges second part forward source target near far := by
  obtain ⟨hdevice, henabled, hdirection, hsource, htarget, hnear, hfar⟩ := hbridges
  rw [h.value] at henabled hdirection
  exact ⟨hdevice, henabled, hdirection, hsource, htarget, hnear, hfar⟩

end Netlist

/-! ## Reachable simulations -/

namespace Simulation

variable {simulation : Simulation}

/-- Nothing else driving it, the net behind a bridge gets the value of the net in
front of it exactly if the copy phase ran before it was resolved and found that
value. In the right order it always does. -/
theorem settle_bridges_iff_timely (hreach : simulation.Reachable)
    (hloops : simulation.schedule.diagnostics = []) (huncrossed : simulation.netlist.Uncrossed)
    {part near far : Nat} {forward : Bool} {source target : Port} {net : Net}
    (hbridges : simulation.netlist.Bridges simulation.settle.state part forward source target
      near far)
    (hnet : simulation.netlist.nets[far]? = some net)
    (halone : ∀ ref ∈ net.sources, ref ≠ Netlist.targetSide part forward →
      Net.isDriving simulation.netlist simulation.settle.state ref = false) :
    let netlist := simulation.netlist
    let after := simulation.settle.state
    let trace := netlist.trace simulation.state
    let found := netlist.sourceLook simulation.state after near part forward
    let carried := (after.net far).enabledCount = 1 ∧ (after.net far).value = (after.net near).value
    (carried ↔ Before trace (.phase part 1) (.net far) ∧ found.2 = true ∧
      trim net.width found.1 = (after.net near).value) ∧
    (source.width ≠ 0 → (after.net near).enabledCount = 1 →
      Before trace (.net near) (.phase part 1) → Before trace (.phase part 1) (.net far) →
      carried) := by
  intro netlist after trace found carried
  have h := hreach.coherent
  have hloops' : (compile netlist).diagnostics = [] := h.schedule ▸ hloops
  have hmatches : after.Matches (netlist.final simulation.state) := h.tracked_settle.agrees
  have hfinal := hbridges.congr hmatches
  have hfound : found = netlist.sourceLook simulation.state (netlist.final simulation.state) near
      part forward := Netlist.sourceLook_congr hmatches near part forward
  obtain ⟨hcount, hvalue⟩ := Netlist.Bridges.far_final h.flat hloops' huncrossed h.sound hfinal hnet
    fun ref href hne => (hmatches.drives ref _).symm.trans (halone ref href hne)
  rw [← hmatches.net, ← hfound] at hcount hvalue
  have hiff : carried ↔ Before trace (.phase part 1) (.net far) ∧ found.2 = true ∧
      trim net.width found.1 = (after.net near).value := by
    constructor
    · rintro ⟨hone, heq⟩
      obtain ⟨hbefore, hresolved⟩ := hcount.mp hone
      exact ⟨hbefore, hresolved, (hvalue hone).symm.trans heq⟩
    · rintro ⟨hbefore, hresolved, heq⟩
      have hone := hcount.mpr ⟨hbefore, hresolved⟩
      exact ⟨hone, (hvalue hone).trans heq⟩
  refine ⟨hiff, fun hwidth hone hfirst hsecond => hiff.mpr ?_⟩
  obtain ⟨before, hbefore, -⟩ := h.flat.wired.known hfinal.sourcePort hfinal.sourceNet
  rw [hmatches.net] at hone ⊢
  have hlook := Netlist.Bridges.look_near h.flat hloops' huncrossed h.sound hfinal hbefore hone
    hfirst
  have htrim := Netlist.Bridges.trim_near h.flat h.sound hfinal hwidth hbefore
    hnet hone
  rw [hfound, hlook]
  exact ⟨hsecond, rfl, htrim⟩

/-- A buffer drives the first side of a bridge that is on. -/
def bridgedBuffer : Schematic where
  components :=
    [⟨"one", Builtin.constant.id, .obj [("value", .int 1)]⟩, ⟨"s", Builtin.buffer.id, .null⟩,
      ⟨"br", Builtin.bridge.id, .null⟩]
  wires :=
    [⟨"e", [⟨"one", "out"⟩, ⟨"s", "en"⟩, ⟨"s", "in"⟩, ⟨"br", "en"⟩]⟩,
      ⟨"a", [⟨"s", "out"⟩, ⟨"br", "a"⟩]⟩, ⟨"b", [⟨"br", "b"⟩]⟩]

theorem settle_bridges_iff_timely_buffered :
    let simulation := ofNetlist (flatten Library.builtin bridgedBuffer)
    (simulation.settle.state.net 2).enabledCount = 1 ∧
      (simulation.settle.state.net 2).value = (simulation.settle.state.net 1).value := by
  have hreach : (ofNetlist (flatten Library.builtin bridgedBuffer)).Reachable :=
    reachable_ofNetlist (by decide +kernel)
  have hnet : (ofNetlist (flatten Library.builtin bridgedBuffer)).netlist.nets[2]? =
      some ((flatten Library.builtin bridgedBuffer).nets.getD 2 default) := rfl
  have hbridges : (ofNetlist (flatten Library.builtin bridgedBuffer)).netlist.Bridges
      (ofNetlist (flatten Library.builtin bridgedBuffer)).settle.state 2 true
      (((flatten Library.builtin bridgedBuffer).port? ⟨2, 2⟩).getD default)
      (((flatten Library.builtin bridgedBuffer).port? ⟨2, 3⟩).getD default) 1 2 :=
    ⟨⟨(flatten Library.builtin bridgedBuffer).parts.getD 2 default, rfl, by decide +kernel⟩,
      by decide +kernel, by decide +kernel, rfl, rfl, by decide +kernel, by decide +kernel⟩
  exact (settle_bridges_iff_timely hreach (by decide +kernel) (by decide +kernel) hbridges hnet
    (by decide +kernel)).2 (by decide +kernel) (by decide +kernel) (by decide +kernel)
    (by decide +kernel)

/-- The buffer waits for the sum of a bus that floats, and the second side of the
bridge comes before that bus. -/
def lateBuffer : Schematic where
  components :=
    [⟨"one", Builtin.constant.id, .obj [("value", .int 1)]⟩, ⟨"br9", Builtin.bridge.id, .null⟩,
      ⟨"add", Builtin.adder.id, .null⟩, ⟨"s", Builtin.buffer.id, .null⟩,
      ⟨"br", Builtin.bridge.id, .null⟩]
  wires :=
    [⟨"e", [⟨"one", "out"⟩, ⟨"br", "en"⟩, ⟨"s", "en"⟩, ⟨"add", "b"⟩]⟩, ⟨"b", [⟨"br", "b"⟩]⟩,
      ⟨"f", [⟨"br9", "a"⟩, ⟨"add", "a"⟩]⟩, ⟨"c", [⟨"add", "out"⟩, ⟨"s", "in"⟩]⟩,
      ⟨"a", [⟨"s", "out"⟩, ⟨"br", "a"⟩]⟩]

/-- Two buses wait for a driver there, and the settle gives up on the first one of
them. That is the far side of the bridge, which lets the copy phase go before the
near side has its value. -/
theorem settle_misses_late_source :
    ¬ ∀ simulation : Simulation, simulation.Reachable → simulation.schedule.diagnostics = [] →
      simulation.netlist.Uncrossed → ∀ part forward source target near far net,
      simulation.netlist.Bridges simulation.settle.state part forward source target near far →
      near ≠ far → (simulation.settle.state.net near).enabledCount = 1 →
      simulation.netlist.nets[far]? = some net →
      (∀ ref ∈ net.sources, ref ≠ Netlist.targetSide part forward →
        Net.isDriving simulation.netlist simulation.settle.state ref = false) →
      (simulation.settle.state.net far).enabledCount = 1 ∧
        (simulation.settle.state.net far).value = (simulation.settle.state.net near).value := by
  intro h
  have hbridges : (ofNetlist (flatten Library.builtin lateBuffer)).netlist.Bridges
      (ofNetlist (flatten Library.builtin lateBuffer)).settle.state 4 true
      (((flatten Library.builtin lateBuffer).port? ⟨4, 2⟩).getD default)
      (((flatten Library.builtin lateBuffer).port? ⟨4, 3⟩).getD default) 4 1 :=
    ⟨⟨(flatten Library.builtin lateBuffer).parts.getD 4 default, rfl, by decide +kernel⟩,
      by decide +kernel, by decide +kernel, rfl, rfl, by decide +kernel, by decide +kernel⟩
  have hcarried := h (ofNetlist (flatten Library.builtin lateBuffer))
    (reachable_ofNetlist (by decide +kernel)) (by decide +kernel) (by decide +kernel) _ _ _ _ _ _ _
    hbridges (by decide) (by decide +kernel) rfl (by decide +kernel)
  revert hcarried
  decide +kernel

end Simulation

end Breadboard
