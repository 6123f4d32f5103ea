import Breadboard.Proofs.Calm
import Breadboard.Proofs.Carried

/-!
# Settling with and without seams

Two states of a circuit with seams and of the one without them may hold the same
(`Netlist.Mirror`). Then the parts that both have come to the same effects in a settle
of either circuit, and merged nets to the same value (`Mirror.same`). Along a seam
nothing is lost: the net behind a boundary port shows what the net before it shows
(`Mirror.value_of_meet`), and nets that were merged into one that nothing drives show
0 (`Mirror.value_of_unsourced`).
-/

namespace Breadboard

namespace Device

/-- Where its ports are wired to does not matter to a device. -/
theorem effect_ports (device : Device) {first second : List Port} (position : Nat)
    (held : PartState) (hports : ∀ index,
      (first.getD index default).bound = (second.getD index default).bound ∧
        (first.getD index default).type = (second.getD index default).type) :
    device.effect first position held = device.effect second position held := by
  obtain ⟨pins, memory⟩ := held
  cases device with
  | register =>
    cases memory with
    | register value => simp only [effect, (hports 1).1]
    | _ => rfl
  | boundary inbound tristate value =>
    simp only [effect, fun index => (hports index).1, fun index => (hports index).2]
  | input | ram | bridge => cases memory <;> rfl
  | _ => rfl

/-- What a boundary port tells the pin behind it. -/
theorem told_boundary (inbound tristate : Bool) (value : Word) (ports : List Port)
    (position : Nat) (held : PartState) :
    (((boundary inbound tristate value).effect ports position held).edit
        (Netlist.passSides inbound).2).told =
      passed inbound value (ports.getD (Netlist.passSides inbound).1 default).bound
        (held.pin (Netlist.passSides inbound).1) := by
  cases inbound <;> cases tristate <;> simp only [effect, Netlist.passSides] <;>
    first
      | rfl
      | (generalize passed _ _ _ _ = shown; cases shown <;> rfl)

theorem near_boundary (inbound tristate : Bool) (value : Word) :
    (Netlist.passSides inbound).1 ∈ (boundary inbound tristate value).near? := by
  cases inbound <;> rfl

/-- A boundary port that lets values out has none of its own. -/
theorem mute_boundary (tristate : Bool) (value : Word) {ports : List Port} (index : Nat)
    (hopen : (ports.getD 0 default).bound = false) :
    (boundary false tristate value).Mute ports index := by
  intro position held
  cases tristate with
  | true =>
    simp only [effect, passed, hopen, Bool.false_eq_true, if_false, if_true]
    exact told_put (fun _ => rfl) rfl
  | false =>
    simp only [effect, passed, hopen, Bool.false_eq_true, if_false]
    rfl

end Device

namespace Builtin

variable {args : Json} {decl : PortDecl} {index : Nat}

theorem width_boundary (hdecl : decl ∈ (boundary.assemble args).ports) :
    decl.width = args.width "width" 1 := by
  rcases List.mem_append.mp hdecl with hdecl | hdecl <;> rw [List.mem_singleton.mp hdecl] <;> rfl

theorem far_of_output (hdecl : (boundary.assemble args).ports[index]? = some decl)
    (houtput : decl.type.output = true) :
    index = (Netlist.passSides (Boundary.outerDecl args "").type.input).2 := by
  by_cases hdir : args.text "dir" "in" = "out" <;>
    match index with
    | 0 | 1 =>
      cases hdecl
      simp_all [Boundary.outerDecl, PortType.flipped, Netlist.passSides]
    | index + 2 => cases hdecl

end Builtin

namespace Netlist

/-- The parts that both circuits have hold the same, but for bridges, and either
circuit or none has stopped. -/
structure Echoes (nested : Netlist) (same : Nat → Nat → Prop) (first second : State) : Prop where
  memory : ∀ {p q : Nat} {placed : Part}, same p q → nested.parts[p]? = some placed →
    placed.device ≠ .bridge → (first.part p).memory = (second.part q).memory
  look : ∀ {p q : Nat} {placed : Part}, same p q → nested.parts[p]? = some placed →
    placed.device ≠ .bridge → ∀ k, first.look ⟨p, k⟩ = second.look ⟨q, k⟩
  halted : first.status.isHalted = second.status.isHalted

/-- Two states that hold the same, of plain circuits with and without seams. -/
structure Mirror (nested flat : Netlist) (seam : Nat → Prop) (same merged : Nat → Nat → Prop)
    (first second : State) : Prop where
  seams : nested.Seams flat seam same merged
  plain : nested.Plain
  plain' : flat.Plain
  sound : State.Sound nested first
  sound' : State.Sound flat second
  blank : State.Blank nested first
  echoes : nested.Echoes same first second

variable {nested flat : Netlist} {seam : Nat → Prop} {same merged : Nat → Nat → Prop}
  {first second : State} {p q n m k position : Nat} {placed placed' : Part}
  {port port' : Port} {phase : Phase} {left right : List Task}

theorem lists_iff {netlist : Netlist} {index : Nat} {ref : PortRef} :
    netlist.Lists index ref ↔ netlist.HasSource index ref ∨ netlist.HasTarget index ref := by
  simp only [Lists, HasSource, HasTarget, and_or_left, exists_or]

theorem HasSource.net {netlist : Netlist} {index : Nat} {ref : PortRef}
    (h : netlist.HasSource index ref) : index < netlist.nets.length := by
  obtain ⟨net, hnet, -⟩ := h
  exact (List.getElem?_eq_some_iff.mp hnet).1

theorem HasTarget.net {netlist : Netlist} {index : Nat} {ref : PortRef}
    (h : netlist.HasTarget index ref) : index < netlist.nets.length := by
  obtain ⟨net, hnet, -⟩ := h
  exact (List.getElem?_eq_some_iff.mp hnet).1

/-! ## The parts of both circuits -/

namespace Seams

variable (h : nested.Seams flat seam same merged)

include h

theorem twin (hsame : same p q) (hpart : nested.parts[p]? = some placed) :
    ∃ placed', flat.parts[q]? = some placed' ∧ placed'.device = placed.device ∧
      placed'.phases = placed.phases ∧
      placed'.ports.map (·.toPortDecl) = placed.ports.map (·.toPortDecl) := by
  obtain ⟨assembly, found, placed', hfound, hpart', hmade, hmade'⟩ := h.part hsame
  obtain rfl := Option.some.inj (hfound.symm.trans hpart)
  exact ⟨placed', hpart', hmade'.device.trans hmade.device.symm,
    hmade'.phases.trans hmade.phases.symm, hmade'.ports.trans hmade.ports.symm⟩

theorem port_iff (hsame : same p q) :
    (nested.port? ⟨p, k⟩).map (·.toPortDecl) = (flat.port? ⟨q, k⟩).map (·.toPortDecl) := by
  obtain ⟨assembly, placed, placed', hpart, hpart', hmade, hmade'⟩ := h.part hsame
  have hports := (decl?_of_madeOf hpart hmade k).trans (decl?_of_madeOf hpart' hmade' k).symm
  exact hports

theorem exists_port (hsame : same p q) (hport' : flat.port? ⟨q, k⟩ = some port') :
    ∃ port, nested.port? ⟨p, k⟩ = some port ∧ port.toPortDecl = port'.toPortDecl := by
  have hports := h.port_iff hsame (k := k)
  rw [hport', Option.map_some] at hports
  exact Option.map_eq_some_iff.mp hports

theorem exists_target_iff (hsame : same p q) :
    (∃ n, nested.HasTarget n ⟨p, k⟩) ↔ ∃ m, flat.HasTarget m ⟨q, k⟩ := by
  constructor
  · rintro ⟨n, htarget⟩
    obtain ⟨m, hmerged⟩ := h.total n htarget.net
    exact ⟨m, h.target hsame hmerged htarget⟩
  · rintro ⟨m, htarget⟩
    obtain ⟨n, -, htarget'⟩ := h.reader hsame htarget
    exact ⟨n, htarget'⟩

theorem exists_source_iff (hsame : same p q) :
    (∃ n, nested.HasSource n ⟨p, k⟩) ↔ ∃ m, flat.HasSource m ⟨q, k⟩ := by
  constructor
  · rintro ⟨n, hsource⟩
    obtain ⟨m, hmerged⟩ := h.total n hsource.net
    exact ⟨m, h.source hsame hmerged hsource⟩
  · rintro ⟨m, hsource⟩
    obtain ⟨n, hsource', -⟩ := h.origin hsame hsource
    exact ⟨n, hsource'⟩

theorem untold_iff (hsame : same p q) : nested.Untold ⟨p, k⟩ ↔ flat.Untold ⟨q, k⟩ := by
  rw [Netlist.untold_iff, Netlist.untold_iff, ← not_exists, ← not_exists, h.exists_target_iff hsame]

theorem bound (hwired : nested.Wired) (hwired' : flat.Wired) (hsame : same p q)
    (hport : nested.port? ⟨p, k⟩ = some port) (hport' : flat.port? ⟨q, k⟩ = some port') :
    port.bound = port'.bound := by
  rw [Bool.eq_iff_iff, bound_iff hwired hport, bound_iff hwired' hport']
  simp only [lists_iff, exists_or, h.exists_source_iff hsame, h.exists_target_iff hsame]

/-- A part that is in the same state does the same in both circuits. -/
theorem effect_eq (hwired : nested.Wired) (hwired' : flat.Wired) (hsame : same p q)
    (hpart : nested.parts[p]? = some placed) (hpart' : flat.parts[q]? = some placed')
    (position : Nat) (held : PartState) :
    placed.device.effect placed.ports position held =
      placed'.device.effect placed'.ports position held := by
  obtain ⟨found, hfound, hdevice, -, hports⟩ := h.twin hsame hpart
  obtain rfl := Option.some.inj (hfound.symm.trans hpart')
  rw [hdevice]
  refine Device.effect_ports _ _ _ fun index => ?_
  have hindex := congrArg (·[index]?) hports
  simp only [List.getElem?_map] at hindex
  rw [List.getD_eq_getElem?_getD, List.getD_eq_getElem?_getD]
  cases hport : placed.ports[index]? with
  | none =>
    rw [hport, Option.map_none, Option.map_eq_none_iff] at hindex
    rw [hindex]
    exact ⟨rfl, rfl⟩
  | some port =>
    rw [hport, Option.map_some] at hindex
    obtain ⟨port', hport', hdecl⟩ := Option.map_eq_some_iff.mp hindex
    rw [hport']
    exact ⟨h.bound hwired hwired' hsame (port_of_part hpart hport) (port_of_part hpart' hport'),
      congrArg PortDecl.type hdecl.symm⟩

/-- So does a part that sees the same, and recalls the same. -/
theorem effect_congr (hwired : nested.Wired) (hwired' : flat.Wired) (hsame : same p q)
    (hpart : nested.parts[p]? = some placed) (hbridge : placed.device ≠ .bridge)
    (hphase : placed.phases[position]? = some phase)
    (hmemory : placed.device.recalled position (first.part p).memory =
      placed.device.recalled position (second.part q).memory)
    (hlook : ∀ k ∈ phase.reads, first.look ⟨p, k⟩ = second.look ⟨q, k⟩) :
    first.effect nested p position = second.effect flat q position := by
  obtain ⟨placed', hpart', hdevice, hphases, -⟩ := h.twin hsame hpart
  rw [State.effect_eq hpart, State.effect_eq hpart',
    ← h.effect_eq hwired hwired' hsame hpart hpart']
  exact (hwired.regularAt hpart).effect_congr hphase (fun hdevice => absurd hdevice hbridge) hmemory
    (fun k hread => (Prod.mk.inj (hlook k hread)).2)
    fun k hread _ => (Prod.mk.inj (hlook k hread)).1

end Seams

/-- The task comes out the same in a settle of either circuit. -/
def Agrees (nested flat : Netlist) (same merged : Nat → Nat → Prop) (first second : State) :
    Task → Prop
  | .net m => ∀ n, merged n m →
    ((nested.final first).net n).value = ((flat.final second).net m).value
  | .phase q position => ∀ p placed, same p q → nested.parts[p]? = some placed →
    placed.device ≠ .bridge →
    (nested.final first).effect nested p position = (flat.final second).effect flat q position

namespace Mirror

variable (h : nested.Mirror flat seam same merged first second)

include h

/-! ## Along the seams -/

/-- What a boundary port does to the net behind it. -/
theorem value_of_passes (hpart : nested.parts[p]? = some placed)
    {inbound tristate : Bool} {value : Word}
    (hdevice : placed.device = .boundary inbound tristate value)
    (hsource : nested.HasSource n ⟨p, (passSides inbound).2⟩)
    (hport : nested.port? ⟨p, (passSides inbound).2⟩ = some port) :
    ((nested.final first).net n).value = trim port.width
      ((Device.passed inbound value (placed.ports.getD (passSides inbound).1 default).bound
        ((nested.final first).pin ⟨p, (passSides inbound).1⟩)).getD
          (first.pin ⟨p, (passSides inbound).2⟩).value) := by
  rw [h.plain.value_of_source h.sound hsource hport,
    h.plain.look_plain h.sound hport (h.plain.untold_of_source hsource), lastEdit_eq hpart,
    State.effect_eq hpart, hdevice, Device.told_boundary]
  rfl

/-- Nothing is lost along a seam. -/
theorem value_of_meet (hmeet : nested.Meet seam n m) :
    ((nested.final first).net n).value = ((nested.final first).net m).value := by
  obtain ⟨p, hseam, placed, inbound, tristate, value, hpart, hdevice, htarget, hsource⟩ := hmeet
  obtain ⟨found, args, hfound, hmade, -⟩ := h.seams.boundary hseam
  obtain rfl := Option.some.inj (hfound.symm.trans hpart)
  obtain ⟨-, far, driver, -, -, hfar, -, -, -, hdriver, hplace⟩ := h.plain.source hsource
  obtain rfl := Option.some.inj (hdriver.symm.trans hpart)
  obtain ⟨net, hnet, href⟩ := id htarget
  obtain ⟨near, hattached, -⟩ := h.plain.flat.wired.target hnet href
  obtain ⟨owner, howner, hplace'⟩ := part_of_port hattached.found
  obtain rfl := Option.some.inj (howner.symm.trans hpart)
  have hlook := h.plain.look_of_target h.sound htarget
  obtain ⟨hvalue, hresolved⟩ := Prod.mk.inj hlook
  have hwidth : net.width = far.width := by
    have hnear := hattached.width.resolve_right
      (h.plain.width owner (List.mem_of_getElem? hpart) near (List.mem_of_getElem? hplace'))
    have hsides : ∀ decl ∈ (Builtin.boundary.assemble args).ports,
        decl.width = args.width "width" 1 := fun _ hdecl => Builtin.width_boundary hdecl
    rw [← hnear, hsides _ (List.mem_of_getElem? (hmade.decl hplace')),
      hsides _ (List.mem_of_getElem? (hmade.decl hplace))]
  rw [h.value_of_passes hpart hdevice hsource hfar, Device.passed,
    List.getD_eq_getElem?_getD, hplace', Option.getD_some, hattached.bound, if_pos rfl, hresolved,
    if_pos rfl, Option.getD_some, hvalue, ← hwidth, h.plain.trim_value h.sound hnet]

theorem value_of_joined (hjoined : Relation.EqvGen (nested.Meet seam) n m) :
    ((nested.final first).net n).value = ((nested.final first).net m).value := by
  induction hjoined with
  | rel _ _ hmeet => exact h.value_of_meet hmeet
  | refl => rfl
  | symm _ _ _ ih => exact ih.symm
  | trans _ _ _ _ _ ih ih' => exact ih.trans ih'

/-- A boundary port behind nets that show 0 says nothing else. -/
theorem unsourced_step (hnone : ∀ ref, ¬ flat.HasSource m ref) (hmerged : merged n m)
    (htrace : nested.trace first = left ++ .net n :: right)
    (hbefore : ∀ n', .net n' ∈ left → merged n' m → ((nested.final first).net n').value = 0) :
    ((nested.final first).net n).value = 0 := by
  have hwired := h.plain.flat.wired
  by_cases hsourced : ∃ ref, nested.HasSource n ref
  swap
  · exact h.plain.value_of_unsourced h.sound fun ref hsource => hsourced ⟨ref, hsource⟩
  obtain ⟨⟨p, k⟩, hsource⟩ := hsourced
  rcases h.seams.driver hsource with ⟨q, hsame⟩ | hseam
  · exact absurd (h.seams.source hsame hmerged hsource) (hnone _)
  obtain ⟨placed, args, hpart, hmade, hinbound⟩ := h.seams.boundary hseam
  obtain ⟨-, port, driver, -, -, -, houtput, -, -, hdriver, hplace⟩ := h.plain.source hsource
  obtain rfl := Option.some.inj (hdriver.symm.trans hpart)
  have hregular := hwired.regularAt hpart
  have hdevice : driver.device = .boundary (Boundary.outerDecl args "").type.input
      (Boundary.outerDecl args "").type.tristate _ := hmade.device
  have hfar := Builtin.far_of_output (hmade.decl hplace) houtput
  generalize (Boundary.outerDecl args "").type.input = inbound at hdevice hfar hinbound
  obtain rfl : k = (passSides inbound).2 := hfar
  obtain ⟨phase, hphase, hlatch⟩ := hregular.exists_last
  have hread := (h.plain.flat.built driver (List.mem_of_getElem? hpart)).near_mem_reads hphase
    (hdevice ▸ Device.near_boundary ..)
  by_cases htold : ∃ n', nested.HasTarget n' ⟨p, (passSides inbound).1⟩
  · obtain ⟨n', htarget⟩ := htold
    have hmeet : nested.Meet seam n' n :=
      ⟨p, hseam, driver, _, _, _, hpart, hdevice, htarget, hsource⟩
    rw [← h.value_of_meet hmeet]
    refine hbefore n' ?_ (h.seams.meet hmeet hmerged)
    obtain ⟨front, middle, rfl⟩ :=
      List.append_of_mem (h.plain.phase_before hsource htrace hpart)
    rw [List.append_assoc, List.cons_append] at htrace
    exact List.mem_append_left _ (h.plain.net_before htrace (phase_of_part hpart hphase hlatch)
      (hregular.anyOf hphase (by rw [hdevice]; nofun)) hread htarget)
  · -- a boundary port that nothing tells anything lets values out, and has none
    cases inbound with
    | true => exact absurd (hinbound rfl) htold
    | false =>
      have hopen : (driver.ports.getD 0 default).bound = false := by
        rw [List.getD_eq_getElem?_getD]
        cases hplace' : driver.ports[0]? with
        | none => rfl
        | some near =>
          exact Bool.eq_false_iff.mpr fun hbound =>
            htold (hasTarget_of_read hwired hpart hphase hlatch hread hplace' hbound)
      refine h.plain.value_of_mute h.sound h.blank hsource hpart ?_
      rw [hdevice]
      exact Device.mute_boundary _ _ _ hopen

/-- Nets of which none is left to drive show 0: no part drives them, and boundary
ports only pass on what others of them show. -/
theorem value_of_unsourced (hnone : ∀ ref, ¬ flat.HasSource m ref) (hmerged : merged n m) :
    ((nested.final first).net n).value = 0 := by
  have hprefix : ∀ left right, nested.trace first = left ++ right →
      ∀ n, .net n ∈ left → merged n m → ((nested.final first).net n).value = 0 := by
    intro left
    induction left using List.reverseRecOn with
    | nil => exact fun _ _ _ htask => absurd htask List.not_mem_nil
    | append_singleton left last ih =>
      intro right htrace n htask hmerged
      rw [List.append_assoc, List.singleton_append] at htrace
      have hbefore := ih (last :: right) htrace
      rcases List.mem_append.mp htask with htask | htask
      · exact hbefore n htask hmerged
      · obtain rfl := List.mem_singleton.mp htask
        exact h.unsourced_step hnone hmerged htrace hbefore
  by_cases hindex : n < nested.nets.length
  · exact hprefix _ [] (List.append_nil _).symm n (mem_trace.mpr (mem_tasks_net.mpr hindex)) hmerged
  · exact h.plain.value_of_unsourced h.sound fun ref hsource => hindex hsource.net

/-! ## The two settles -/

/-- A pin that no net tells anything looks the same if its part tells it the same. -/
theorem look_untold (hsame : same p q) (hpart : nested.parts[p]? = some placed)
    (hbridge : placed.device ≠ .bridge) (huntold : flat.Untold ⟨q, k⟩)
    (htold : ∀ port', flat.port? ⟨q, k⟩ = some port' →
      (nested.lastEdit (nested.final first) ⟨p, k⟩).told =
        (flat.lastEdit (flat.final second) ⟨q, k⟩).told) :
    (nested.final first).look ⟨p, k⟩ = (flat.final second).look ⟨q, k⟩ := by
  cases hport' : flat.port? ⟨q, k⟩ with
  | none =>
    have hport : nested.port? ⟨p, k⟩ = none := by
      have hnone := h.seams.port_iff hsame (k := k)
      rwa [hport', Option.map_none, Option.map_eq_none_iff] at hnone
    rw [State.look, State.look,
      State.pin_eq_default (sound_final h.plain.flat.wired h.sound) hport,
      State.pin_eq_default (sound_final h.plain'.flat.wired h.sound') hport']
  | some port' =>
    obtain ⟨port, hport, -⟩ := h.seams.exists_port hsame hport'
    rw [h.plain.look_plain h.sound hport ((h.seams.untold_iff hsame).mpr huntold),
      h.plain'.look_plain h.sound' hport' huntold, htold port' hport', h.echoes.look hsame hpart hbridge k]

theorem look_target (hsame : same p q) (htarget : flat.HasTarget m ⟨q, k⟩)
    (hagrees : nested.Agrees flat same merged first second (.net m)) :
    (nested.final first).look ⟨p, k⟩ = (flat.final second).look ⟨q, k⟩ := by
  obtain ⟨n, hmerged, hread⟩ := h.seams.reader hsame htarget
  rw [h.plain.look_of_target h.sound hread, h.plain'.look_of_target h.sound' htarget,
    hagrees n hmerged]

theorem look_read (htrace : flat.trace second = left ++ .phase q position :: right)
    (hagrees : ∀ task ∈ left, nested.Agrees flat same merged first second task)
    (hsame : same p q) (hpart : nested.parts[p]? = some placed)
    (hbridge : placed.device ≠ .bridge) (hphase : flat.Ordinary q position phase)
    (hread : k ∈ phase.reads) :
    (nested.final first).look ⟨p, k⟩ = (flat.final second).look ⟨q, k⟩ := by
  obtain ⟨placed', hpart', hdevice, hphases, -⟩ := h.seams.twin hsame hpart
  obtain ⟨owner, howner, hfound⟩ := part_of_phase hphase
  obtain rfl := Option.some.inj (howner.symm.trans hpart')
  have hregular := h.plain.flat.wired.regularAt hpart
  have hregular' := h.plain'.flat.wired.regularAt hpart'
  by_cases htold : ∃ m, flat.HasTarget m ⟨q, k⟩
  · obtain ⟨m, htarget⟩ := htold
    have hanyOf := hregular'.anyOf hfound fun hbridge' => hbridge (hdevice.symm.trans hbridge')
    exact h.look_target hsame htarget
      (hagrees _ (h.plain'.net_before htrace hphase hanyOf hread htarget))
  · refine h.look_untold hsame hpart hbridge
      (Netlist.untold_iff.mpr fun m htarget => htold ⟨m, htarget⟩) fun port' hport' => ?_
    obtain ⟨port, hport, hdecl⟩ := h.seams.exists_port hsame hport'
    obtain ⟨_, hown, hplace⟩ := part_of_port hport
    obtain rfl := Option.some.inj (hown.symm.trans hpart)
    obtain ⟨_, hown', hplace'⟩ := part_of_port hport'
    obtain rfl := Option.some.inj (hown'.symm.trans hpart')
    -- no phase says anything on a pin that it reads
    have hinput' := (hregular'.reads hfound hphase.2 hread hplace').2
    have hinput : port.type.output = false := (congrArg (·.type.output) hdecl).trans hinput'
    rw [lastEdit_eq hpart, lastEdit_eq hpart', State.effect_eq hpart, State.effect_eq hpart',
      hregular.mute_of_input hplace hinput, hregular'.mute_of_input hplace' hinput']

theorem phase_step (htrace : flat.trace second = left ++ .phase q position :: right)
    (hagrees : ∀ task ∈ left, nested.Agrees flat same merged first second task) :
    nested.Agrees flat same merged first second (.phase q position) := by
  intro p placed hsame hpart hbridge
  have hwired := h.plain.flat.wired
  have hwired' := h.plain'.flat.wired
  obtain ⟨phase, hphase⟩ := ordinary_of_split htrace
  obtain ⟨placed', hpart', hdevice, hphases, -⟩ := h.seams.twin hsame hpart
  obtain ⟨owner, howner, hfound⟩ := part_of_phase hphase
  obtain rfl := Option.some.inj (howner.symm.trans hpart')
  refine h.seams.effect_congr hwired hwired' hsame hpart hbridge (hphases ▸ hfound) ?_
    fun k hread => h.look_read htrace hagrees hsame hpart hbridge hphase hread
  by_cases hprobe : placed.device = .probe
  · rw [hprobe, Device.recalled, Device.recalled]
  · rw [memory_kept hwired h.sound hpart hprobe hbridge,
      memory_kept hwired' h.sound' hpart' (hdevice ▸ hprobe) (hdevice ▸ hbridge),
      h.echoes.memory hsame hpart hbridge]

theorem net_step (htrace : flat.trace second = left ++ .net m :: right)
    (hagrees : ∀ task ∈ left, nested.Agrees flat same merged first second task) :
    nested.Agrees flat same merged first second (.net m) := by
  intro n hmerged
  by_cases hsourced : ∃ ref, flat.HasSource m ref
  swap
  · have hnone : ∀ ref, ¬ flat.HasSource m ref := fun ref hsource => hsourced ⟨ref, hsource⟩
    rw [h.value_of_unsourced hnone hmerged, h.plain'.value_of_unsourced h.sound' hnone]
  obtain ⟨⟨q, k⟩, hsource'⟩ := hsourced
  obtain ⟨-, port', placed', -, -, hport', -, -, -, hpart', -⟩ := h.plain'.source hsource'
  obtain ⟨p, hsame⟩ := h.seams.onto q (List.getElem?_eq_some_iff.mp hpart').1
  obtain ⟨driven, hsource, hjoined⟩ := h.seams.origin hsame hsource'
  obtain ⟨-, port, placed, -, -, hport, -, -, -, hpart, -⟩ := h.plain.source hsource
  obtain ⟨found, hfound, hdevice, -⟩ := h.seams.twin hsame hpart
  obtain rfl := Option.some.inj (hfound.symm.trans hpart')
  have hbridge := h.plain.not_bridge hsource hpart
  have hdecl : port.toPortDecl = port'.toPortDecl := by
    have hports := h.seams.port_iff hsame (k := k)
    rw [hport, hport', Option.map_some, Option.map_some] at hports
    exact Option.some.inj hports
  have heffect := hagrees _ (h.plain'.phase_before hsource' htrace hpart') p placed hsame hpart
    hbridge
  have hlook := h.look_untold (k := k) hsame hpart hbridge (h.plain'.untold_of_source hsource') (by
    intro _ _
    rw [lastEdit_eq hpart, lastEdit_eq hpart', ← hdevice, heffect])
  rw [h.value_of_joined (hjoined n hmerged), h.plain.value_of_source h.sound hsource hport,
    h.plain'.value_of_source h.sound' hsource' hport', hlook,
    show port.width = port'.width from congrArg PortDecl.width hdecl]

theorem agrees : ∀ task ∈ flat.trace second, nested.Agrees flat same merged first second task := by
  have hprefix : ∀ left right, flat.trace second = left ++ right →
      ∀ task ∈ left, nested.Agrees flat same merged first second task := by
    intro left
    induction left using List.reverseRecOn with
    | nil => exact fun _ _ _ htask => absurd htask List.not_mem_nil
    | append_singleton left last ih =>
      intro right htrace task htask
      rw [List.append_assoc, List.singleton_append] at htrace
      have hagrees := ih (last :: right) htrace
      rcases List.mem_append.mp htask with htask | htask
      · exact hagrees task htask
      · obtain rfl := List.mem_singleton.mp htask
        cases task with
        | phase q position => exact h.phase_step htrace hagrees
        | net m => exact h.net_step htrace hagrees
  exact hprefix _ [] (List.append_nil _).symm

/-! ## What can be seen afterwards -/

theorem value_eq (hmerged : merged n m) :
    ((nested.final first).net n).value = ((flat.final second).net m).value := by
  by_cases hindex : m < flat.nets.length
  · exact h.agrees _ (mem_trace.mpr (mem_tasks_net.mpr hindex)) n hmerged
  · have hnone : ∀ ref, ¬ flat.HasSource m ref := fun ref hsource => hindex hsource.net
    rw [h.value_of_unsourced hnone hmerged, h.plain'.value_of_unsourced h.sound' hnone]

theorem effect_final (hsame : same p q) (hpart : nested.parts[p]? = some placed)
    (hbridge : placed.device ≠ .bridge) (hphase : flat.Ordinary q position phase) :
    (nested.final first).effect nested p position =
      (flat.final second).effect flat q position := by
  obtain ⟨left, right, htrace⟩ := exists_split_phase hphase second
  exact h.agrees (.phase q position)
    (htrace ▸ List.mem_append_right _ (List.mem_cons_self ..)) p placed hsame hpart hbridge

theorem effect_last (hsame : same p q) (hpart : nested.parts[p]? = some placed)
    (hbridge : placed.device ≠ .bridge) :
    (nested.final first).effect nested p placed.device.last =
      (flat.final second).effect flat q placed.device.last := by
  obtain ⟨placed', hpart', hdevice, -⟩ := h.seams.twin hsame hpart
  obtain ⟨phase, hphase, hlatch⟩ := (h.plain'.flat.wired.regularAt hpart').exists_last
  rw [← hdevice]
  exact h.effect_final hsame hpart hbridge (phase_of_part hpart' hphase hlatch)

/-- A part stops the one circuit just if its twin stops the other. -/
theorem stop_iff : (∃ p position phase, nested.Ordinary p position phase ∧
      ((nested.final first).effect nested p position).stop.isSome = true) ↔
    ∃ q position phase, flat.Ordinary q position phase ∧
      ((flat.final second).effect flat q position).stop.isSome = true := by
  constructor
  · rintro ⟨p, position, phase, hphase, hstop⟩
    obtain ⟨placed, hpart, hfound⟩ := part_of_phase hphase
    obtain ⟨reason, hhalt⟩ := Device.halt_of_stop (State.effect_eq hpart _ position ▸ hstop)
    rcases h.seams.rest hpart with ⟨q, hsame⟩ | hseam | hinert
    · obtain ⟨placed', hpart', -, hphases, -⟩ := h.seams.twin hsame hpart
      have hphase' := phase_of_part hpart' (hphases ▸ hfound) hphase.2
      refine ⟨q, position, phase, hphase', ?_⟩
      rwa [← h.effect_final hsame hpart (by rw [hhalt]; nofun) hphase']
    · obtain ⟨found, args, hfound', hmade, -⟩ := h.seams.boundary hseam
      obtain rfl := Option.some.inj (hfound'.symm.trans hpart)
      exact nomatch hmade.device.symm.trans hhalt
    · exact nomatch hinert.symm.trans hhalt
  · rintro ⟨q, position, phase, hphase, hstop⟩
    obtain ⟨placed', hpart', hfound⟩ := part_of_phase hphase
    obtain ⟨p, hsame⟩ := h.seams.onto q (List.getElem?_eq_some_iff.mp hpart').1
    obtain ⟨reason, hhalt⟩ := Device.halt_of_stop (State.effect_eq hpart' _ position ▸ hstop)
    obtain ⟨-, placed, -, hpart, -⟩ := h.seams.part hsame
    obtain ⟨found, hfound', hdevice, hphases, -⟩ := h.seams.twin hsame hpart
    obtain rfl := Option.some.inj (hfound'.symm.trans hpart')
    refine ⟨p, position, phase, phase_of_part hpart (hphases ▸ hfound) hphase.2, ?_⟩
    rwa [h.effect_final hsame hpart (by rw [← hdevice, hhalt]; nofun) hphase]

/-- After the settle the two circuits hold the same again. -/
theorem echoes_final : nested.Echoes same (nested.final first) (flat.final second) := by
  have hwired := h.plain.flat.wired
  have hwired' := h.plain'.flat.wired
  refine ⟨fun {p q placed} hsame hpart hbridge => ?_, fun {p q placed} hsame hpart hbridge k => ?_,
    ?_⟩
  · obtain ⟨placed', hpart', hdevice, -⟩ := h.seams.twin hsame hpart
    by_cases hprobe : placed.device = .probe
    · rw [memory_last hwired h.plain.static h.sound hpart,
        memory_last hwired' h.plain'.static h.sound' hpart', hdevice,
        h.effect_last hsame hpart hbridge]
    · rw [memory_kept hwired h.sound hpart hprobe hbridge,
        memory_kept hwired' h.sound' hpart' (hdevice ▸ hprobe) (hdevice ▸ hbridge),
        h.echoes.memory hsame hpart hbridge]
  · by_cases htold : ∃ m, flat.HasTarget m ⟨q, k⟩
    · obtain ⟨m, htarget⟩ := htold
      exact h.look_target hsame htarget
        (h.agrees _ (mem_trace.mpr (mem_tasks_net.mpr htarget.net)))
    · obtain ⟨placed', hpart', hdevice, -⟩ := h.seams.twin hsame hpart
      refine h.look_untold hsame hpart hbridge
        (Netlist.untold_iff.mpr fun m htarget => htold ⟨m, htarget⟩) fun _ _ => ?_
      rw [lastEdit_eq hpart, lastEdit_eq hpart', hdevice, h.effect_last hsame hpart hbridge]
  · rw [Bool.eq_iff_iff, isHalted_final hwired h.plain.static h.sound,
      isHalted_final hwired' h.plain'.static h.sound', h.stop_iff, h.echoes.halted]

end Mirror

end Netlist

end Breadboard
