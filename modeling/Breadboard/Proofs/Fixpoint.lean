import Breadboard.Proofs.Looks

/-!
# Settling a static circuit reaches a fixpoint

In a static circuit every task waits for all that it depends on: no phase is
content with one of several nets, no tri-state net is resolved before one of its
drivers has run, and no phase reads a net that its own part drives. Then what a
task did still holds when the settle is over. A net shows what its drivers show in
the end (`verdict_static`), its readers have heard it (`target_static`), and a
phase that runs once more changes no pin (`again_static`).
-/

namespace Breadboard

namespace Netlist

/-- The state `after` a settle is consistent: every net shows what its drivers
show, or what it was `before`, and no phase has anything left to do. -/
structure Settled (netlist : Netlist) (before after : State) : Prop where
  plain : ∀ {index : Nat} {net : Net}, netlist.nets[index]? = some net → net.tristate = false →
    (∀ source, net.sources = [source] →
      (after.net index).value = trim net.width (after.pin source).value) ∧
    (net.sources.length ≠ 1 → (after.net index).value = 0) ∧
    ∀ target ∈ net.targets, (after.pin target).value = (after.net index).value ∧
      (after.pin target).resolved = true
  count : ∀ {index : Nat} {net : Net}, netlist.nets[index]? = some net → net.tristate = true →
    (after.net index).enabledCount = (net.driving netlist after).length
  driven : ∀ {index : Nat} {net : Net} {source : PortRef}, netlist.nets[index]? = some net →
    net.tristate = true → net.driving netlist after = [source] →
    (after.net index).value = trim net.width (after.pin source).value ∧
    ∀ target ∈ net.targets, (after.pin target).value = trim net.width (after.pin source).value ∧
      (after.pin target).resolved = true
  undriven : ∀ {index : Nat} {net : Net}, netlist.nets[index]? = some net → net.tristate = true →
    (net.driving netlist after).length ≠ 1 →
    (after.net index).value = (before.net index).value ∧
    ∀ target ∈ net.targets, (after.pin target).resolved = false
  again : ∀ {part position : Nat} {phase : Phase}, netlist.Ordinary part position phase →
    ∀ ref, (after.runPhase netlist part position).pin ref = after.pin ref

variable {netlist : Netlist} {state : State} {ref : PortRef} {port : Port} {placed : Part}
  {index part position : Nat} {net : Net} {phase : Phase} {left right : List Task}

/-! ## Nets -/

theorem drivenBefore_static (hwired : netlist.Wired) (hstatic : netlist.Static)
    (hnet : netlist.nets[index]? = some net) (href : ref ∈ net.sources) (state : State) :
    netlist.drivenBefore state index ref = true := by
  obtain ⟨port, hattached, -⟩ := hwired.source hnet href
  have hport := hattached.found
  obtain ⟨placed, hpart, -⟩ := part_of_port hport
  have hbound := hwired.net_eq hstatic.single ⟨net, hnet, Or.inl href⟩ hport
  exact drivenBefore_of_not_deferred hwired hstatic.loops hnet href hport hbound hpart
    (hstatic.deferred (hwired.writes hnet href hport hbound hpart))

theorem counted_static (hwired : netlist.Wired) (hstatic : netlist.Static)
    (hnet : netlist.nets[index]? = some net) (after : State) :
    netlist.counted state after index net = net.driving netlist after := by
  refine List.filter_eq_self.mpr fun ref href => ?_
  rw [drivenBefore_static hwired hstatic hnet (List.mem_filter.mp href).1, Bool.or_true]

/-- A net decides what it would decide in the end. -/
theorem verdict_static (hflat : netlist.Flat) (hstatic : netlist.Static)
    (h : State.Sound netlist state) (htrace : netlist.trace state = left ++ .net index :: right)
    (hnet : netlist.nets[index]? = some net) :
    (netlist.after state left).verdict netlist index =
      (netlist.final state).verdict netlist index := by
  have hwired := hflat.wired
  have hvalue : ∀ source ∈ net.sources, ((netlist.after state left).verdict netlist index).1 =
      some (trim net.width ((netlist.after state left).pin source).value) →
      trim net.width ((netlist.after state left).pin source).value =
        trim net.width ((netlist.final state).pin source).value :=
    fun source hsource => value_through hflat h htrace hnet hsource
      (drivenBefore_static hwired hstatic hnet hsource state)
  cases htristate : net.tristate with
  | true =>
    have hdriving := driving_after hwired h htrace hnet
    rw [counted_static hwired hstatic hnet] at hdriving
    have hverdict := verdict_tristate hnet htristate (netlist.after state left)
    rw [verdict_tristate hnet htristate (netlist.final state)]
    rw [hdriving] at hverdict
    rcases hcases : net.driving netlist (netlist.final state) with _ | ⟨source, _ | _⟩
    · rw [hverdict, hcases]
    · rw [hcases] at hverdict
      have hsource : source ∈ net.sources := by
        have hmem : source ∈ net.driving netlist (netlist.final state) := by simp [hcases]
        exact (List.mem_filter.mp hmem).1
      rw [hverdict]
      dsimp only
      rw [hvalue source hsource (congrArg Prod.fst hverdict)]
    · rw [hverdict, hcases]
  | false =>
    have hverdict := verdict_plain hnet htristate (netlist.after state left)
    rw [verdict_plain hnet htristate (netlist.final state)]
    rcases hcases : net.sources with _ | ⟨source, _ | _⟩
    · rw [hverdict, hcases]
    · rw [hcases] at hverdict
      rw [hverdict]
      dsimp only
      rw [hvalue source (by simp [hcases]) (congrArg Prod.fst hverdict)]
    · rw [hverdict, hcases]

theorem net_static (hflat : netlist.Flat) (hstatic : netlist.Static)
    (h : State.Sound netlist state) (hnet : netlist.nets[index]? = some net) :
    (netlist.final state).net index =
      ⟨((netlist.final state).verdict netlist index).1.getD (state.net index).value,
        ((netlist.final state).verdict netlist index).2⟩ := by
  obtain ⟨left, right, htrace⟩ := exists_split hnet state
  rw [net_final hflat.wired h htrace (List.getElem?_eq_some_iff.mp hnet).1,
    verdict_static hflat hstatic h htrace hnet]

/-- The readers of a net have heard what it would decide in the end. -/
theorem target_static (hflat : netlist.Flat) (hstatic : netlist.Static)
    (h : State.Sound netlist state) (hnet : netlist.nets[index]? = some net)
    (href : ref ∈ net.targets) :
    ∃ held : Pin, (netlist.final state).look ref =
      ((held.hear ((netlist.final state).verdict netlist index).1).value,
        (held.hear ((netlist.final state).verdict netlist index).1).resolved) := by
  have hwired := hflat.wired
  obtain ⟨left, right, htrace⟩ := exists_split hnet state
  obtain ⟨port, hattached, hinput⟩ := hwired.target hnet href
  have hport := hattached.found
  obtain ⟨placed, hpart, -⟩ := part_of_port hport
  have htarget : ref ∈ (netlist.nets.getD index default).targets := by
    rw [getD_nets hnet]
    exact href
  have honly : ∀ other, ref ∈ (netlist.nets.getD other default).targets → other = index :=
    fun other hother => hstatic.single other index ref (input_of_mem_targets hwired hport hother).2
      ⟨net, hnet, Or.inr href⟩
  rw [← verdict_static hflat hstatic h htrace hnet]
  cases houtput : port.type.output with
  | true =>
    have hbound := hwired.net_eq hstatic.single ⟨net, hnet, Or.inr href⟩ hport
    have hboth : port.type.bidirectional = true := by simp [PortType.bidirectional, hinput, houtput]
    have hsource : ref ∈ net.sources := by
      obtain ⟨found, hfound, -, -, hsource⟩ := hwired.known hport hbound
      obtain rfl := Option.some.inj (hfound.symm.trans hnet)
      refine hsource houtput fun owner howner => ?_
      obtain rfl := Option.some.inj (howner.symm.trans hpart)
      exact valid_of_bidirectional hwired hport hpart hboth
    have hdriven := drivenBefore_static hwired hstatic hnet hsource state
    rw [drivenBefore_eq hwired htrace hport hpart houtput, decide_eq_true_eq] at hdriven
    refine ⟨(netlist.after state left).pin ref, ?_⟩
    rw [State.look, pin_through hwired h htrace hport hpart hdriven honly,
      if_pos htarget]
  | false =>
    have hsplit : netlist.trace state = (left ++ [.net index]) ++ right := by
      rw [htrace, List.append_assoc, List.singleton_append]
    refine ⟨(netlist.after state left).pin ref, ?_⟩
    rw [← look_final hwired h hsplit hport houtput, State.look, after_snoc, State.perform,
      State.pin_resolve ((sound_after hwired h left).has hport), if_pos htarget]
    intro other hother htarget
    rw [honly other htarget] at hother
    exact (not_mem_split htrace).2 hother

/-! ## Phases -/

/-- The sides of a bridge in a static circuit are not wired to anything. -/
theorem unbound_side (hwired : netlist.Wired) (hstatic : netlist.Static)
    (hpart : netlist.parts[part]? = some placed) (hbridge : placed.device = .bridge) {side : Nat}
    (hside : side = 2 ∨ side = 3) (hport : netlist.port? ⟨part, side⟩ = some port) :
    port.net = none := by
  have hbound := hstatic.anyOf (copy_ordinary hwired hpart hbridge) (by simpa using hside) hport
  simpa [Port.bound] using hbound

theorem side_or (forward : Bool) :
    ((Device.bridgeSides forward).1 = 2 ∨ (Device.bridgeSides forward).1 = 3) ∧
      ((Device.bridgeSides forward).2 = 2 ∨ (Device.bridgeSides forward).2 = 3) := by
  cases forward <;> decide

/-- A phase would do in the end what it did when it ran. -/
theorem effect_static (hwired : netlist.Wired) (hstatic : netlist.Static)
    (h : State.Sound netlist state)
    (htrace : netlist.trace state = left ++ .phase part position :: right)
    (hpart : netlist.parts[part]? = some placed) :
    (netlist.after state left).effect netlist part position =
      (netlist.final state).effect netlist part position := by
  rw [State.effect_eq hpart, State.effect_eq hpart]
  obtain ⟨phase, hphase⟩ := ordinary_of_split htrace
  obtain ⟨owner, howner, hfound⟩ := part_of_phase hphase
  obtain rfl := Option.some.inj (howner.symm.trans hpart)
  have hregular := hwired.regularAt hpart
  by_cases hcopy : owner.device = .bridge ∧ position = 1
  · obtain ⟨hbridge, rfl⟩ := hcopy
    obtain ⟨enabled, forward, hmemory⟩ :=
      bridge_memory hpart hbridge (sound_after hwired h left)
    have hkeep := memory_from_last hwired h hpart
      (by rw [hbridge]; exact htrace) (by rw [hbridge]; exact nofun)
    obtain ⟨source, target, hsource, -⟩ := bridge_ports hwired hpart hbridge forward
    have hlook := look_source hwired h hpart hbridge htrace hmemory
      fun index _ htarget => not_lists_of_unbound hwired hsource
        (unbound_side hwired hstatic hpart hbridge (side_or forward).1 hsource)
        (input_of_mem_targets hwired hsource htarget).2
    obtain ⟨hvalue, hresolved⟩ := Prod.mk.inj hlook
    have hcopied : ((netlist.after state left).part part).copied =
        ((netlist.final state).part part).copied := by
      unfold PartState.copied
      rw [← hkeep, hmemory]
      dsimp only
      rw [State.pin] at hvalue hresolved
      rw [hvalue, hresolved]
      rfl
    rw [hbridge, Device.effect_copy _ hmemory, Device.effect_copy _ (hkeep ▸ hmemory), hcopied]
  · have hwaits : owner.device = .bridge → position ≠ 1 := fun hbridge hone => hcopy ⟨hbridge, hone⟩
    have hlook : ∀ port ∈ phase.reads, (netlist.after state left).look ⟨part, port⟩ =
        (netlist.final state).look ⟨part, port⟩ := fun port hread =>
      look_read hwired hstatic.loops hstatic.crossing h htrace hphase hread
        (hregular.anyOf_eq_nil hfound hwaits) (fun first second => hstatic.single first second _)
    exact hregular.effect_congr hfound hwaits (recalled_final hwired h hpart htrace)
      (fun port hread => (Prod.mk.inj (hlook port hread)).2)
      (fun port hread _ => (Prod.mk.inj (hlook port hread)).1)

theorem side_of_bidirectional (hwired : netlist.Wired) (hpart : netlist.parts[part]? = some placed)
    (hbridge : placed.device = .bridge) {side : Nat} (hplace : placed.ports[side]? = some port)
    (hboth : port.type.bidirectional = true) : side = 2 ∨ side = 3 := by
  obtain ⟨-, width, hports⟩ := (hwired.regularAt hpart).bridge hbridge
  have hdecl : (placed.ports.map (·.toPortDecl))[side]? = some port.toPortDecl := by
    rw [List.getElem?_map, hplace]
    rfl
  rw [hports] at hdecl
  rcases side with _ | _ | _ | _ | side
  · rw [← Option.some.inj hdecl] at hboth
    cases hboth
  · rw [← Option.some.inj hdecl] at hboth
    cases hboth
  · exact Or.inl rfl
  · exact Or.inr rfl
  · cases hdecl

theorem Attached.trim_eq (h : netlist.Attached net ref port) {word : Word}
    (hword : trim port.width word = word) : trim net.width word = word := by
  rcases h.width with hwidth | hzero
  · rw [← hwidth]
    exact hword
  · have hnone : word = 0 := by
      rw [← hword, hzero, trim]
      simp [mask, span]
    rw [hnone]
    exact Builtin.trim_zero _

/-- Driving a pin again changes nothing after its net has told it `decided`. -/
theorem drive_hear {bidirectional : Bool} {value decided : Option Word} (pin : Pin)
    (h : ∀ word other, value = some word → decided = some other → other = word) :
    ((pin.drive bidirectional value).hear decided).drive bidirectional value =
      (pin.drive bidirectional value).hear decided := by
  cases value with
  | none => cases decided <;> cases bidirectional <;> rfl
  | some word =>
    cases decided with
    | none => cases bidirectional <;> rfl
    | some other =>
      obtain rfl := h word other rfl rfl
      cases bidirectional <;> rfl

/-- What drives both ways shows in the end what it was driven with, or has let go. -/
theorem again_both (hflat : netlist.Flat) (hstatic : netlist.Static)
    (h : State.Sound netlist state) (hport : netlist.port? ref = some port)
    (hpart : netlist.parts[ref.part]? = some placed)
    (htrace : netlist.trace state = left ++ .phase ref.part placed.device.last :: right)
    (hboth : port.type.bidirectional = true) (hbound : port.net = some index)
    {value : Option Word}
    (hedit : ((netlist.after state left).effect netlist ref.part placed.device.last).edit ref.port =
      .drive port.type.bidirectional value) :
    (Edit.drive port.type.bidirectional value).apply ((netlist.final state).pin ref) =
      (netlist.final state).pin ref := by
  have hwired := hflat.wired
  obtain ⟨owner, howner, hplace⟩ := part_of_port hport
  obtain rfl := Option.some.inj (howner.symm.trans hpart)
  have hregular := hwired.regularAt hpart
  have hsound := sound_after hwired h left
  obtain ⟨hinput, houtput⟩ := Bool.and_eq_true_iff.mp hboth
  have hbridge : owner.device ≠ .bridge := by
    intro hbridge
    have hnone := unbound_side hwired hstatic hpart hbridge
      (side_of_bidirectional hwired hpart hbridge hplace hboth) hport
    rw [hbound] at hnone
    cases hnone
  obtain ⟨net, hnet, hreads, -, hdrives⟩ := hwired.known hport hbound
  have htarget := hreads hinput
  have hsource : ref ∈ net.sources := by
    refine hdrives houtput fun part howner => ?_
    obtain rfl := Option.some.inj (howner.symm.trans hpart)
    exact valid_of_bidirectional hwired hport hpart hboth
  -- the net is resolved behind the phase
  obtain ⟨before, later, hnettrace⟩ := exists_split hnet state
  have hdriven := drivenBefore_static hwired hstatic hnet hsource state
  rw [drivenBefore_eq hwired hnettrace hport hpart houtput, decide_eq_true_eq] at hdriven
  obtain ⟨front, middle, rfl⟩ := List.append_of_mem hdriven
  have hagain : netlist.trace state = front ++ .phase ref.part owner.device.last ::
      (middle ++ .net index :: later) := by
    rw [hnettrace, List.append_assoc, List.cons_append]
  obtain rfl : front = left := (takeWhile_trace hagain).symm.trans (takeWhile_trace htrace)
  have honly : ∀ other, ref ∈ (netlist.nets.getD other default).targets → other = index :=
    fun other hother => hstatic.single other index ref
      (input_of_mem_targets hwired hport hother).2 ⟨net, hnet, Or.inl hsource⟩
  have hpin : (netlist.after state (front ++ .phase ref.part owner.device.last :: middle)).pin ref =
      ((netlist.after state front).pin ref).drive port.type.bidirectional value := by
    rw [pin_at_net hwired h hport hpart hnettrace honly,
      State.pin_phase hwired hsound hport, hedit]
    rfl
  rw [pin_through hwired h hnettrace hport hpart hdriven honly, hpin,
    if_pos (by rw [getD_nets hnet]; exact htarget)]
  refine drive_hear _ fun word other hword hother => ?_
  -- the net counts this driver, so if it decides on a value it is this one
  obtain ⟨found, hattached, -⟩ := hwired.source hnet hsource
  obtain rfl := Option.some.inj (hattached.found.symm.trans hport)
  have htristate := hattached.tristate (tristate_of_bidirectional hwired hport hboth)
  have hdriving : Net.isDriving netlist
      (netlist.after state (front ++ .phase ref.part owner.device.last :: middle)) ref = true := by
    rw [isDriving_eq hport, hpin, Pin.drives_drive, houtput, hword]
    rfl
  have hshown := verdict_of_one hnet hsource (fun _ => hdriving)
    (verdict_tristate_one hnet htristate hother)
  rw [hother, hpin, hword] at hshown
  obtain rfl := Option.some.inj hshown
  obtain ⟨driven, hsame, htrim⟩ := hregular.bidirectional
    ((netlist.after state front).part ref.part) (hsound.fits hpart) hplace hboth
  rw [State.effect_eq hpart, hsame] at hedit
  obtain ⟨-, rfl⟩ := Edit.drive.inj hedit
  exact hattached.trim_eq (htrim hbridge word hword)

/-- What the last phase of a part did to a pin is still done in the end. -/
theorem again_last (hflat : netlist.Flat) (hstatic : netlist.Static)
    (h : State.Sound netlist state) (hport : netlist.port? ref = some port)
    (hpart : netlist.parts[ref.part]? = some placed)
    (htrace : netlist.trace state = left ++ .phase ref.part placed.device.last :: right) :
    (((netlist.after state left).effect netlist ref.part placed.device.last).edit ref.port).apply
        ((netlist.final state).pin ref) = (netlist.final state).pin ref := by
  have hwired := hflat.wired
  obtain ⟨owner, howner, hplace⟩ := part_of_port hport
  obtain rfl := Option.some.inj (howner.symm.trans hpart)
  have hregular := hwired.regularAt hpart
  have hsplit : netlist.trace state =
      (left ++ [.phase ref.part owner.device.last]) ++ right := by
    rw [htrace, List.append_assoc, List.singleton_append]
  have hlast : Task.phase ref.part owner.device.last ∈
      left ++ [.phase ref.part owner.device.last] :=
    List.mem_append_right _ (List.mem_singleton_self _)
  have hsound := sound_after hwired h left
  have hafter : (netlist.after state (left ++ [.phase ref.part owner.device.last])).pin ref =
      (((netlist.after state left).effect netlist ref.part owner.device.last).edit ref.port).apply
        ((netlist.after state left).pin ref) := by
    rw [after_snoc, State.pin_phase hwired hsound hport]
  have hkept : (∀ index, ref ∉ (netlist.nets.getD index default).targets) →
      (netlist.final state).pin ref =
        (((netlist.after state left).effect netlist ref.part owner.device.last).edit
          ref.port).apply ((netlist.after state left).pin ref) := fun hnets =>
    (pin_final hwired h hsplit hport hpart hlast fun index _ => hnets index).symm.trans
      hafter
  have hturn := turn_final hwired h hsplit hport hpart hlast
  rw [State.turn, hafter] at hturn
  have hfinal := hregular.final ((netlist.after state left).part ref.part) hplace
  rw [← State.effect_eq hpart (netlist.after state left) owner.device.last] at hfinal
  generalize hdone : ((netlist.after state left).effect netlist ref.part owner.device.last).edit
    ref.port = edit at hfinal hafter hkept hturn ⊢
  cases hfinal with
  | keep => rfl
  | ignore =>
    have henabled : ((netlist.final state).pin ref).enabled = false := (Prod.mk.inj hturn).1.symm
    generalize (netlist.final state).pin ref = pin at henabled ⊢
    obtain ⟨value, enabled, facing, used, resolved⟩ := pin
    obtain rfl : enabled = false := henabled
    rfl
  | set value houtput hinput =>
    rw [hkept fun index htarget => ?_, Edit.apply_apply]
    rw [(input_of_mem_targets hwired hport htarget).1] at hinput
    cases hinput
  | drive value houtput htristate =>
    cases hbound : port.net with
    | none =>
      rw [hkept fun index htarget => ?_, Edit.apply_apply]
      exact not_lists_of_unbound hwired hport hbound (input_of_mem_targets hwired hport htarget).2
    | some index =>
      cases hinput : port.type.input with
      | false =>
        rw [hkept fun index htarget => ?_, Edit.apply_apply]
        rw [(input_of_mem_targets hwired hport htarget).1] at hinput
        cases hinput
      | true =>
        have hboth : port.type.bidirectional = true := by
          simp [PortType.bidirectional, hinput, houtput]
        exact again_both hflat hstatic h hport hpart htrace hboth hbound hdone

theorem face_face {pin : Pin} {facing : Facing} (h : pin.facing = facing) :
    (Edit.face facing).apply pin = pin := by
  obtain ⟨value, enabled, _, used, resolved⟩ := pin
  obtain rfl := h
  rfl

/-- The sides of a bridge are turned in the end as it remembers, since they are not
wired: it copies what is resolved. -/
theorem facing_final (hwired : netlist.Wired) (hstatic : netlist.Static)
    (h : State.Sound netlist state) (hloose : State.Loose netlist state)
    (hpart : netlist.parts[part]? = some placed) (hbridge : placed.device = .bridge)
    (hcopy : netlist.trace state = left ++ .phase part 1 :: right) {enabled forward : Bool}
    (hmemory : ((netlist.after state left).part part).memory = .bridge enabled forward) :
    ((netlist.final state).pin ⟨part, (Device.bridgeSides forward).1⟩).facing = .inward ∧
      ((netlist.final state).pin ⟨part, (Device.bridgeSides forward).2⟩).facing =
        if enabled then .outward else .inward := by
  have hsplit : netlist.trace state = (left ++ [.phase part 1]) ++ right := by
    rw [hcopy, List.append_assoc, List.singleton_append]
  have hlast : Task.phase part placed.device.last ∈ left ++ [.phase part 1] := by
    rw [hbridge]
    exact List.mem_append_right _ (List.mem_singleton_self _)
  have hfacing : ∀ side port, netlist.port? ⟨part, side⟩ = some port →
      ((netlist.final state).pin ⟨part, side⟩).facing =
        (((netlist.after state left).perform netlist (.phase part 1)).pin ⟨part, side⟩).facing := by
    intro side port hport
    have hturn := turn_final hwired h hsplit hport hpart hlast
    rw [after_snoc] at hturn
    exact (Prod.mk.inj hturn).2.symm
  obtain ⟨source, target, hsource, htarget, -, -⟩ := bridge_ports hwired hpart hbridge forward
  have hthen := pin_copy hwired hpart hbridge (sound_after hwired h left) hmemory
  rw [hfacing _ _ hsource, hfacing _ _ htarget, hthen, hthen, if_pos rfl,
    if_neg (sides_ne forward), if_pos rfl]
  refine ⟨rfl, ?_⟩
  have hresolved : ((netlist.after state left).pin
      ⟨part, (Device.bridgeSides forward).1⟩).resolved = true :=
    State.Loose.foldl_perform hwired left (h.mapPins _) (hloose.begun h) _ _ hsource
      (unbound_side hwired hstatic hpart hbridge (side_or forward).1 hsource)
  rw [State.pin] at hresolved
  rw [PartState.copied, hmemory]
  dsimp only
  rw [hresolved]
  cases enabled <;> rfl

/-- What the first phase of a bridge did to its sides is still done in the end: the
second phase turns them the same way. -/
theorem again_first (hwired : netlist.Wired) (hstatic : netlist.Static)
    (h : State.Sound netlist state) (hloose : State.Loose netlist state)
    (hpart : netlist.parts[part]? = some placed) (hbridge : placed.device = .bridge)
    (htrace : netlist.trace state = left ++ .phase part 0 :: right) (side : Nat) :
    (((netlist.after state left).effect netlist part 0).edit side).apply
        ((netlist.final state).pin ⟨part, side⟩) = (netlist.final state).pin ⟨part, side⟩ := by
  have hkept := memory_turn hwired h hpart hbridge htrace
  obtain ⟨_, _, hheld⟩ := bridge_memory hpart hbridge (sound_after hwired h left)
  rw [State.effect_eq hpart, hbridge] at hkept ⊢
  obtain ⟨enabled, forward, heffect⟩ := effect_turn placed.ports hheld
  rw [heffect] at hkept ⊢
  obtain ⟨before, later, hcopy⟩ := exists_split_phase (copy_ordinary hwired hpart hbridge) state
  have hmemory : ((netlist.after state before).part part).memory = .bridge enabled forward := by
    rw [memory_from_last hwired h hpart (by rw [hbridge]; exact hcopy)
      (by rw [hbridge]; exact nofun), hkept]
    rfl
  obtain ⟨hinward, houtward⟩ := facing_final hwired hstatic h hloose hpart hbridge hcopy hmemory
  rw [Effect.edit_put]
  split
  · next hside =>
    subst hside
    exact face_face houtward
  · rw [Effect.edit_put]
    split
    · next hside =>
      subst hside
      exact face_face hinward
    · rfl

/-- A phase that runs again when the settle is over changes no pin. -/
theorem again_static (hflat : netlist.Flat) (hstatic : netlist.Static)
    (h : State.Sound netlist state) (hloose : State.Loose netlist state)
    (hphase : netlist.Ordinary part position phase) (hport : netlist.port? ⟨part, side⟩ = some port) :
    (((netlist.final state).effect netlist part position).edit side).apply
        ((netlist.final state).pin ⟨part, side⟩) = (netlist.final state).pin ⟨part, side⟩ := by
  have hwired := hflat.wired
  obtain ⟨placed, hpart, -⟩ := part_of_port hport
  obtain ⟨left, right, htrace⟩ := exists_split_phase hphase state
  rw [← effect_static hwired hstatic h htrace hpart]
  rcases last_or_bridge hwired hpart hphase with rfl | ⟨hbridge, rfl⟩
  · exact again_last hflat hstatic h hport hpart htrace
  · exact again_first hwired hstatic h hloose hpart hbridge htrace side

/-! ## The fixpoint -/

/-- A reader shows in the end what its net decides then. -/
theorem told_final (hflat : netlist.Flat) (hstatic : netlist.Static)
    (h : State.Sound netlist state) (hnet : netlist.nets[index]? = some net)
    (href : ref ∈ net.targets) {word : Word}
    (hverdict : ((netlist.final state).verdict netlist index).1 = some word) :
    ((netlist.final state).pin ref).value = word ∧
      ((netlist.final state).pin ref).resolved = true := by
  obtain ⟨held, hlook⟩ := target_static hflat hstatic h hnet href
  obtain ⟨hvalue, hresolved⟩ := Prod.mk.inj hlook
  rw [hvalue, hresolved, hverdict]
  exact ⟨rfl, rfl⟩

/-- A reader is not resolved in the end if its net does not decide on anything then. -/
theorem untold_final (hflat : netlist.Flat) (hstatic : netlist.Static)
    (h : State.Sound netlist state) (hnet : netlist.nets[index]? = some net)
    (href : ref ∈ net.targets)
    (hverdict : ((netlist.final state).verdict netlist index).1 = none) :
    ((netlist.final state).pin ref).resolved = false := by
  obtain ⟨held, hlook⟩ := target_static hflat hstatic h hnet href
  rw [(Prod.mk.inj hlook).2, hverdict]
  rfl

theorem settled_final (hflat : netlist.Flat) (hstatic : netlist.Static)
    (h : State.Sound netlist state) (hloose : State.Loose netlist state) :
    netlist.Settled state (netlist.final state) where
  plain := by
    intro index net hnet hplain
    have hverdict := verdict_plain hnet hplain (netlist.final state)
    have hshown := net_static hflat hstatic h hnet
    have hdecided : ((netlist.final state).verdict netlist index).1 =
        some ((netlist.final state).net index).value := by
      rw [hshown, hverdict]
      rcases net.sources with _ | ⟨source, _ | _⟩ <;> rfl
    refine ⟨fun source hsource => ?_, fun hlength => ?_,
      fun target htarget => told_final hflat hstatic h hnet htarget hdecided⟩
    · rw [hshown, hverdict, hsource]
      rfl
    · rw [hshown, hverdict]
      rcases hsources : net.sources with _ | ⟨source, _ | _⟩
      · rfl
      · rw [hsources] at hlength
        exact absurd rfl hlength
      · rfl
  count := by
    intro index net hnet htristate
    rw [net_static hflat hstatic h hnet, verdict_tristate hnet htristate]
    rcases net.driving netlist (netlist.final state) with _ | ⟨source, _ | _⟩ <;> rfl
  driven := by
    intro index net source hnet htristate hdriving
    have hverdict := verdict_tristate hnet htristate (netlist.final state)
    rw [hdriving] at hverdict
    refine ⟨?_, fun target htarget =>
      told_final hflat hstatic h hnet htarget (congrArg Prod.fst hverdict)⟩
    rw [net_static hflat hstatic h hnet, hverdict]
    rfl
  undriven := by
    intro index net hnet htristate hdriving
    have hopen : ((netlist.final state).verdict netlist index).1 = none := by
      rw [verdict_tristate hnet htristate]
      rcases hcases : net.driving netlist (netlist.final state) with _ | ⟨source, _ | _⟩
      · rfl
      · rw [hcases] at hdriving
        exact absurd rfl hdriving
      · rfl
    refine ⟨?_, fun target htarget => untold_final hflat hstatic h hnet htarget hopen⟩
    rw [net_static hflat hstatic h hnet, hopen]
    rfl
  again := by
    intro part position phase hphase ref
    have hwired := hflat.wired
    have hsound := sound_final hwired h
    by_cases hne : ref.part = part
    · subst hne
      cases hport : netlist.port? ref with
      | some port =>
        refine (State.pin_phase hwired hsound hport _).trans ?_
        exact again_static hflat hstatic h hloose hphase hport
      | none =>
        exact (State.pin_eq_default (hsound.runPhase hwired.native) hport).trans
          (State.pin_eq_default hsound hport).symm
    · exact State.pin_phase_of_ne hwired hne

theorem apply_unmarked {edit : Edit} {first second : Pin} (h : first.unmarked = second.unmarked)
    (hagain : edit.apply second = second) : edit.apply first = first := by
  obtain ⟨value, enabled, facing, used, resolved⟩ := first
  obtain ⟨_, _, _, mark, _⟩ := second
  obtain ⟨rfl, rfl, rfl, rfl⟩ := Pin.unmarked_eq_iff.mp h
  cases edit with
  | keep => rfl
  | drive bidirectional value =>
    cases value <;> simp_all [Edit.apply, Pin.drive]
  | _ => simp_all [Edit.apply, Pin.withValue]

/-- Which pins were used does not matter. -/
theorem Settled.matches {before after other : State} (hwired : netlist.Wired)
    (h : netlist.Settled before after) (hafter : State.Sound netlist after)
    (hother : State.Sound netlist other) (hmatches : other.Matches after) :
    netlist.Settled before other := by
  refine ⟨fun hnet hplain => ?_, fun hnet htristate => ?_, fun hnet htristate hdriving => ?_,
    fun hnet htristate hdriving => ?_, fun {part position phase} hphase ref => ?_⟩
  · simp only [hmatches.net, hmatches.value, hmatches.resolved]
    exact h.plain hnet hplain
  · rw [hmatches.net, hmatches.driving]
    exact h.count hnet htristate
  · rw [hmatches.driving] at hdriving
    simp only [hmatches.net, hmatches.value, hmatches.resolved]
    exact h.driven hnet htristate hdriving
  · rw [hmatches.driving] at hdriving
    simp only [hmatches.net, hmatches.resolved]
    exact h.undriven hnet htristate hdriving
  · by_cases hne : ref.part = part
    · subst hne
      cases hport : netlist.port? ref with
      | some port =>
        obtain ⟨placed, hpart, hfound⟩ := part_of_phase hphase
        have hregular := hwired.regularAt hpart
        have heffect : other.effect netlist ref.part position =
            after.effect netlist ref.part position := by
          rw [State.effect_eq hpart, State.effect_eq hpart]
          refine hregular.alike hfound ⟨by rw [hmatches.memory], fun index _ _ => ?_, fun index _ => ?_⟩
          · exact hmatches.value ⟨ref.part, index⟩
          · exact hmatches.resolved ⟨ref.part, index⟩
        have hagain := h.again hphase ref
        have hrun := State.pin_phase hwired hafter hport position
        refine (State.pin_phase hwired hother hport position).trans ?_
        rw [heffect]
        exact apply_unmarked (hmatches.pin ref) (hrun.symm.trans hagain)
      | none =>
        exact (State.pin_eq_default (hother.runPhase hwired.native) hport).trans
          (State.pin_eq_default hother hport).symm
    · exact State.pin_phase_of_ne hwired hne

end Netlist

namespace Simulation

/-- Settling needs nothing but a coherent state to start from: also one that a reset has
just cleared. -/
theorem Coherent.settled {simulation : Simulation} (h : simulation.Coherent)
    (hstatic : simulation.netlist.Static) :
    simulation.netlist.Settled simulation.state simulation.settle.state := by
  have hwired := h.flat.wired
  have hfinal := Netlist.sound_final hwired h.sound
  have htracked := h.tracked_settle
  exact (Netlist.settled_final h.flat hstatic h.sound h.loose).matches hwired hfinal
    (htracked.sound hfinal) htracked.agrees

/-- From every reachable state, settling a static circuit leads to a fixpoint. -/
theorem settle_reaches_fixpoint {simulation : Simulation} (hreach : simulation.Reachable)
    (hstatic : simulation.netlist.Static) :
    simulation.netlist.Settled simulation.state simulation.settle.state :=
  hreach.coherent.settled hstatic

/-- A constant drives a probe through a buffer. -/
def bufferedProbe : Schematic where
  components :=
    [⟨"one", Builtin.constant.id, .obj [("value", .int 1)]⟩, ⟨"s", Builtin.buffer.id, .null⟩,
      ⟨"p", Builtin.probe.id, .null⟩]
  wires := [⟨"e", [⟨"one", "out"⟩, ⟨"s", "en"⟩, ⟨"s", "in"⟩]⟩, ⟨"b", [⟨"s", "out"⟩, ⟨"p", "in"⟩]⟩]

theorem settle_reaches_fixpoint_buffered :
    let simulation := ofNetlist (flatten Library.builtin bufferedProbe)
    simulation.netlist.Static ∧ (simulation.settle.state.net 1).value = 1 ∧
      (simulation.settle.state.pin ⟨2, 0⟩).value = 1 ∧
      (simulation.settle.state.pin ⟨2, 0⟩).resolved = true := by
  have hreach : (ofNetlist (flatten Library.builtin bufferedProbe)).Reachable :=
    reachable_ofNetlist (by decide +kernel)
  have hstatic : (ofNetlist (flatten Library.builtin bufferedProbe)).netlist.Static := by
    decide +kernel
  have hsettled := settle_reaches_fixpoint hreach hstatic
  have hnet : (ofNetlist (flatten Library.builtin bufferedProbe)).netlist.nets[1]? =
      some ((flatten Library.builtin bufferedProbe).nets.getD 1 default) := rfl
  have hdriving : ((flatten Library.builtin bufferedProbe).nets.getD 1 default).driving
      (ofNetlist (flatten Library.builtin bufferedProbe)).netlist
      (ofNetlist (flatten Library.builtin bufferedProbe)).settle.state = [⟨1, 2⟩] := by
    decide +kernel
  obtain ⟨hvalue, htargets⟩ := hsettled.driven hnet (by decide +kernel) hdriving
  obtain ⟨hprobe, hresolved⟩ := htargets ⟨2, 0⟩ (by decide +kernel)
  refine ⟨hstatic, hvalue.trans ?_, hprobe.trans ?_, hresolved⟩ <;> decide +kernel

end Simulation

end Breadboard
