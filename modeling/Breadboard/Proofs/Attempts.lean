import Breadboard.Proofs.Survey

/-!
# The record of what is attached

`attempts` lists every attempt of flattening to attach a port to a net, in order and
each with the netlist that it meets. A `Replay` runs through such a record: between
the attempts there are only reports, new scopes, new parts and empty nets. Flattening
is the replay of its own record (`replay_flatten`), so what its nets list can be read
off the record (`Replay.lists`), and what an attempt has done is still there at the
end (`Replay.mem`, `Replay.kept`).
-/

namespace Breadboard

/-- An attempt to attach a port to a net. -/
structure Attempt where
  before : Netlist
  net : Nat
  ref : PortRef
  asSource : Bool

def Attempt.after (attempt : Attempt) : Netlist :=
  attempt.before.bind attempt.net attempt.ref attempt.asSource

/-- The attempts of a run over a list of items, given those for one item. -/
def record {σ α : Type} (step : σ → α → σ) (attempts : σ → α → List Attempt) :
    σ → List α → List Attempt
  | _, [] => []
  | state, item :: items => attempts state item ++ record step attempts (step state item) items

namespace Netlist

/-! ## The record of flattening -/

def placedAttempts (netlist : Netlist) (index : Nat) (placed : Breadboard.Placed) (port : Nat)
    (id : String) : List Attempt :=
  match netlist.behind? placed id with
  | none => [⟨netlist, index, ⟨placed.part, port⟩, true⟩]
  | some inner =>
    let own := netlist.parts[placed.part]?.any (·.valid)
    [⟨netlist, index, ⟨placed.part, port⟩, own⟩,
      ⟨netlist.bind index ⟨placed.part, port⟩ own, index, inner, !own⟩]

def endAttempts (placements : Placements) (index : Nat) (netlist : Netlist)
    (wireEnd : String × Endpoint) : List Attempt :=
  match placements.lookup wireEnd.2.component with
  | none => []
  | some placed =>
    match netlist.position? placed.part wireEnd.2.port with
    | none => []
    | some port => netlist.placedAttempts index placed port wireEnd.2.port

/-- A netlist with the empty net of a group. -/
def addNet (wires : List Wire) (scope : Nat) (netlist : Netlist) (group : List Nat) : Netlist :=
  { netlist with
    nets := netlist.nets ++ [{ scope, wires := (group.filterMap (wires[·]?)).map (·.id) }] }

def groupAttempts (wires : List Wire) (scope : Nat) (placements : Placements) (netlist : Netlist)
    (group : List Nat) : List Attempt :=
  record (bindEnd scope placements netlist.nets.length)
    (endAttempts placements netlist.nets.length) (addNet wires scope netlist group)
    (groupEnds (group.filterMap (wires[·]?)))

def wireAttempts (wires : List Wire) (scope : Nat) (placements : Placements) (netlist : Netlist) :
    List Attempt :=
  record (bindGroup wires scope placements) (groupAttempts wires scope placements) netlist
    (wireGroups wires)

end Netlist

open Netlist

def placeAttempts (library : Library) (inner : Schematic → Nat → Netlist → List Attempt)
    (scope : Nat) (state : Netlist × Placements) (component : Component) : List Attempt :=
  match library.inside? component with
  | none => []
  | some inside => inner inside state.1.scopes.length (state.1.addScope scope component.id)

def layoutAttempts (library : Library) :
    (depth : Nat) → Schematic → Nat → Netlist → List Attempt
  | 0, _, _, _ => []
  | depth + 1, schematic, scope, netlist =>
    let placed := schematic.components.foldl (place library (layout library depth) scope)
      (netlist, [])
    record (place library (layout library depth) scope)
        (placeAttempts library (layoutAttempts library depth) scope) (netlist, [])
        schematic.components ++
      wireAttempts schematic.wires scope placed.2 placed.1

/-- All attempts of flattening a schematic. -/
def attempts (library : Library) (schematic : Schematic) : List Attempt :=
  layoutAttempts library (library.entries.length + 1) schematic 0 { scopes := [⟨none, ""⟩] }

/-! ## Replays -/

/-- A step that attaches nothing. -/
inductive Quiet (library : Library) : Netlist → Netlist → Prop where
  | reports (netlist : Netlist) (diagnostics : List Diagnostic) :
      Quiet library netlist { netlist with diagnostics := netlist.diagnostics ++ diagnostics }
  | scope (netlist : Netlist) (parent : Nat) (name : String) :
      Quiet library netlist (netlist.addScope parent name)
  | part (netlist : Netlist) (part : Part) : library.Makes part →
      (∀ port ∈ part.ports, port.net = none) → Quiet library netlist (netlist.addPart part)
  | net (netlist : Netlist) (scope : Nat) (wires : List String) :
      scope < netlist.scopes.length →
      Quiet library netlist { netlist with nets := netlist.nets ++ [{ scope, wires }] }

/-- The attempts of a record lead from one netlist to another. -/
inductive Replay (library : Library) : Netlist → List Attempt → Netlist → Prop where
  | nil (netlist : Netlist) : Replay library netlist [] netlist
  | quiet {netlist next last : Netlist} {log : List Attempt} : Quiet library netlist next →
      Replay library next log last → Replay library netlist log last
  | bind {netlist last : Netlist} {index : Nat} {ref : PortRef} {asSource : Bool}
      {log : List Attempt} {port : Port} {net : Net} : netlist.port? ref = some port →
      netlist.nets[index]? = some net →
      Replay library (netlist.bind index ref asSource) log last →
      Replay library netlist (⟨netlist, index, ref, asSource⟩ :: log) last

variable {library : Library} {netlist next last : Netlist} {log more : List Attempt}
  {attempt : Attempt} {index scope : Nat} {ref : PortRef} {placements : Placements}

/-! ## What a replay keeps -/

/-- Nothing that was there is lost: nets may list more, ports may know another net. -/
structure Kept (netlist next : Netlist) : Prop where
  diagnostics : netlist.diagnostics <+: next.diagnostics
  scopes : netlist.scopes <+: next.scopes
  port : ∀ {ref : PortRef} {port : Port}, netlist.port? ref = some port →
    ∃ port', next.port? ref = some port' ∧ port'.toPortDecl = port.toPortDecl
  net : ∀ {index : Nat} {net : Net}, netlist.nets[index]? = some net →
    ∃ net', next.nets[index]? = some net' ∧ net'.scope = net.scope ∧ net'.wires = net.wires ∧
      net.sources ⊆ net'.sources ∧ net.targets ⊆ net'.targets

namespace Kept

theorem refl (netlist : Netlist) : Kept netlist netlist :=
  ⟨List.prefix_rfl, List.prefix_rfl, fun h => ⟨_, h, rfl⟩,
    fun h => ⟨_, h, rfl, rfl, List.Subset.refl _, List.Subset.refl _⟩⟩

theorem trans (h : Kept netlist next) (h' : Kept next last) : Kept netlist last := by
  refine ⟨h.diagnostics.trans h'.diagnostics, h.scopes.trans h'.scopes, fun hport => ?_,
    fun hnet => ?_⟩
  · obtain ⟨port, hport, hdecl⟩ := h.port hport
    obtain ⟨port', hport', hdecl'⟩ := h'.port hport
    exact ⟨port', hport', hdecl'.trans hdecl⟩
  · obtain ⟨net, hnet, hscope, hwires, hsources, htargets⟩ := h.net hnet
    obtain ⟨net', hnet', hscope', hwires', hsources', htargets'⟩ := h'.net hnet
    exact ⟨net', hnet', hscope'.trans hscope, hwires'.trans hwires,
      List.Subset.trans hsources hsources', List.Subset.trans htargets htargets'⟩

theorem length_nets (h : Kept netlist next) (hlt : index < netlist.nets.length) :
    index < next.nets.length := by
  obtain ⟨_, hnet, -⟩ := h.net (List.getElem?_eq_getElem hlt)
  exact (List.getElem?_eq_some_iff.mp hnet).1

theorem length_scopes (h : Kept netlist next) (hlt : scope < netlist.scopes.length) :
    scope < next.scopes.length :=
  Nat.lt_of_lt_of_le hlt h.scopes.length_le

theorem lists (h : Kept netlist next) (hlists : netlist.Lists index ref) : next.Lists index ref := by
  obtain ⟨net, hnet, hmem⟩ := hlists
  obtain ⟨net', hnet', -, -, hsources, htargets⟩ := h.net hnet
  exact ⟨net', hnet', hmem.imp (hsources ·) (htargets ·)⟩

/-- A net whose scope is there keeps its path. -/
theorem netPath (h : Kept netlist next) {net : Net} (hnet : netlist.nets[index]? = some net)
    (hscope : net.scope < netlist.scopes.length) : next.netPath index = netlist.netPath index := by
  obtain ⟨net', hnet', hscope', hwires, -, -⟩ := h.net hnet
  obtain ⟨rest, hrest⟩ := h.scopes
  rw [Netlist.netPath, Netlist.netPath, List.getD_eq_getElem?_getD, List.getD_eq_getElem?_getD,
    hnet, hnet', Option.getD_some, Option.getD_some, hwires]
  cases net.wires with
  | nil => rfl
  | cons wire _ =>
    dsimp only
    rw [hscope', localPath_eq, localPath_eq, ← hrest, scopePath_append _ _ hscope]

end Kept

theorem Quiet.kept (h : Quiet library netlist next) : Kept netlist next := by
  cases h with
  | reports diagnostics => exact { Kept.refl netlist with diagnostics := List.prefix_append .. }
  | scope parent name => exact { Kept.refl netlist with scopes := List.prefix_append .. }
  | part part _ _ =>
    exact { Kept.refl netlist with port := fun hport => ⟨_, port_addPart hport part, rfl⟩ }
  | net scope wires _ =>
    refine { Kept.refl netlist with net := fun {index net} hnet => ?_ }
    have hlt := (List.getElem?_eq_some_iff.mp hnet).1
    exact ⟨net, (List.getElem?_append_left hlt).trans hnet, rfl, rfl, List.Subset.refl _,
      List.Subset.refl _⟩

theorem kept_bind (netlist : Netlist) (index : Nat) (ref : PortRef) (asSource : Bool) :
    Kept netlist (netlist.bind index ref asSource) := by
  refine ⟨diagnostics_bind .., ?_, fun {other port} hport => ?_, fun {place net} hnet => ?_⟩
  · rcases bind_cases netlist index ref asSource with ⟨_, heq⟩ | ⟨_, _, -, -, -, -, heq⟩
    · exact heq ▸ List.prefix_refl netlist.scopes
    · exact heq ▸ List.prefix_refl netlist.scopes
  · have hdecl := decl_bind netlist index ref other asSource
    rw [hport] at hdecl
    obtain ⟨port', hport', heq⟩ := Option.map_eq_some_iff.mp hdecl
    exact ⟨port', hport', heq⟩
  · rcases bind_cases netlist index ref asSource with ⟨_, heq⟩ | ⟨port, found, -, hfound, -, -, heq⟩
    · rw [heq]
      exact ⟨net, hnet, rfl, rfl, List.Subset.refl _, List.Subset.refl _⟩
    · rw [heq]
      by_cases hplace : index = place
      · subst hplace
        obtain rfl := Option.some.inj (hnet.symm.trans hfound)
        exact ⟨_, List.getElem?_set_self (List.getElem?_eq_some_iff.mp hnet).1, rfl, rfl,
          Net.sources_subset_attach, Net.targets_subset_attach⟩
      · exact ⟨net, (List.getElem?_set_ne hplace).trans hnet, rfl, rfl, List.Subset.refl _,
          List.Subset.refl _⟩

namespace Replay

theorem kept (h : Replay library netlist log last) : Kept netlist last := by
  induction h with
  | nil => exact .refl _
  | quiet hquiet _ ih => exact hquiet.kept.trans ih
  | bind _ _ _ ih => exact (kept_bind ..).trans ih

theorem append (h : Replay library netlist log next) (h' : Replay library next more last) :
    Replay library netlist (log ++ more) last := by
  induction h with
  | nil => exact h'
  | quiet hquiet _ ih => exact .quiet hquiet (ih h')
  | bind hport hnet _ ih => exact .bind hport hnet (ih h')

/-- The port and the net of an attempt are there, and the replay goes through it to
the end. -/
theorem mem (h : Replay library netlist log last) (hmem : attempt ∈ log) :
    (∃ port net, attempt.before.port? attempt.ref = some port ∧
      attempt.before.nets[attempt.net]? = some net) ∧
    ∃ before rest, Replay library netlist before attempt.before ∧
      Replay library attempt.after rest last := by
  induction h with
  | nil => cases hmem
  | quiet hquiet _ ih =>
    obtain ⟨hfound, before, rest, hbefore, hrest⟩ := ih hmem
    exact ⟨hfound, before, rest, .quiet hquiet hbefore, hrest⟩
  | bind hport hnet hlater ih =>
    rcases List.mem_cons.mp hmem with rfl | hmem
    · exact ⟨⟨_, _, hport, hnet⟩, [], _, .nil _, hlater⟩
    · obtain ⟨hfound, before, rest, hbefore, hrest⟩ := ih hmem
      exact ⟨hfound, _, rest, .bind hport hnet hbefore, hrest⟩

/-- What a net lists in the end was listed before, or there is an attempt for it. -/
theorem lists (h : Replay library netlist log last) (hlists : last.Lists index ref) :
    netlist.Lists index ref ∨ ∃ attempt ∈ log, attempt.net = index ∧ attempt.ref = ref := by
  induction h with
  | nil => exact Or.inl hlists
  | quiet hquiet _ ih =>
    refine (ih hlists).imp_left fun hlists => ?_
    cases hquiet with
    | reports | scope | part => exact hlists
    | net => exact lists_addNet hlists
  | bind _ _ _ ih =>
    rcases ih hlists with hlists | ⟨attempt, hmem, hnet, href⟩
    · refine (lists_bind hlists).imp_right fun ⟨hindex, href⟩ => ?_
      exact ⟨_, List.mem_cons_self .., hindex.symm, href.symm⟩
    · exact Or.inr ⟨attempt, List.mem_cons_of_mem _ hmem, hnet, href⟩

/-- A run over items replays its record, as long as something stays true. -/
theorem foldl {σ α : Type} {step : σ → α → σ} {attempts : σ → α → List Attempt}
    (stays : Netlist → Prop) (read : σ → Netlist)
    (hkeep : ∀ {netlist next}, Kept netlist next → stays netlist → stays next)
    (hstep : ∀ state item, stays (read state) →
      Replay library (read state) (attempts state item) (read (step state item))) :
    ∀ (items : List α) (state : σ), stays (read state) →
      Replay library (read state) (record step attempts state items)
        (read (items.foldl step state)) := by
  intro items
  induction items with
  | nil => exact fun state _ => .nil _
  | cons item items ih =>
    intro state hstays
    have hfirst := hstep state item hstays
    exact hfirst.append (ih _ (hkeep hfirst.kept hstays))

end Replay

/-! ## Flattening as a replay -/

theorem port?_of_position? {part : Nat} {id : String} {position : Nat}
    (h : netlist.position? part id = some position) :
    ∃ port, netlist.port? ⟨part, position⟩ = some port := by
  obtain ⟨found, hfound, hposition⟩ := Option.bind_eq_some_iff.mp h
  obtain ⟨hlt, -⟩ := List.findIdx?_eq_some_iff_getElem.mp hposition
  exact ⟨_, Option.bind_eq_some_iff.mpr ⟨found, hfound, List.getElem?_eq_getElem hlt⟩⟩

theorem replay_report (netlist : Netlist) (diagnostic : Diagnostic) :
    Replay library netlist [] (netlist.report diagnostic) :=
  .quiet (.reports ..) (.nil _)

theorem replay_bindEnd (scope : Nat) (placements : Placements) (wireEnd : String × Endpoint)
    (hindex : index < netlist.nets.length) :
    Replay library netlist (endAttempts placements index netlist wireEnd)
      (netlist.bindEnd scope placements index wireEnd) := by
  rw [bindEnd_eq, endAttempts]
  cases placements.lookup wireEnd.2.component with
  | none => exact replay_report ..
  | some placed =>
    dsimp only
    cases hposition : netlist.position? placed.part wireEnd.2.port with
    | none => exact replay_report ..
    | some position =>
      dsimp only
      rw [bindPlaced_eq, placedAttempts]
      have hnet := List.getElem?_eq_getElem hindex
      obtain ⟨port, hport⟩ := port?_of_position? hposition
      cases hbehind : netlist.behind? placed wireEnd.2.port with
      | none => exact .bind hport hnet (.nil _)
      | some inner =>
        obtain ⟨part, -, hinner⟩ := Option.bind_eq_some_iff.mp hbehind
        obtain ⟨pin, hpin, rfl⟩ := Option.map_eq_some_iff.mp hinner
        obtain ⟨_, hport'⟩ := port?_of_position? hpin
        have hkept := kept_bind netlist index ⟨placed.part, position⟩
          (netlist.parts[placed.part]?.any (·.valid))
        obtain ⟨_, hport', -⟩ := hkept.port hport'
        obtain ⟨_, hnet', -⟩ := hkept.net hnet
        exact .bind hport hnet (.bind hport' hnet' (.nil _))

theorem replay_bindGroup {wires : List Wire} (group : List Nat)
    (hscope : scope < netlist.scopes.length) :
    Replay library netlist (groupAttempts wires scope placements netlist group)
      (netlist.bindGroup wires scope placements group) := by
  refine .quiet (.net netlist scope _ hscope) (Replay.foldl
    (fun next => netlist.nets.length < next.nets.length) id (fun h => h.length_nets)
    (fun _ wireEnd hindex => replay_bindEnd scope placements wireEnd hindex) _ _ ?_)
  simp

theorem replay_bindWires (wires : List Wire) (placements : Placements)
    (hscope : scope < netlist.scopes.length) :
    Replay library netlist (wireAttempts wires scope placements netlist)
      (netlist.bindWires wires scope placements) :=
  Replay.foldl (fun next => scope < next.scopes.length) id (fun h => h.length_scopes)
    (fun _ group hscope => replay_bindGroup group hscope) _ _ hscope

theorem replay_place {expand : Layout} {inner : Schematic → Nat → Netlist → List Attempt}
    (scope : Nat) (hexpand : ∀ schematic scope netlist, scope < netlist.scopes.length →
      Replay library netlist (inner schematic scope netlist) (expand schematic scope netlist).1)
    (state : Netlist × Placements) (component : Component) :
    Replay library state.1 (placeAttempts library inner scope state component)
      (place library expand scope state component).1 := by
  obtain ⟨netlist, placements⟩ := state
  have hinside : ∀ entry, library.get? component.definition = some entry →
      Replay library netlist (placeAttempts library inner scope (netlist, placements) component)
        (enter expand scope netlist component entry.inside).1 := by
    intro entry hentry
    rw [placeAttempts, Library.inside?, hentry, Option.bind_some]
    cases entry.inside with
    | none => exact .nil _
    | some inside =>
      refine .quiet (.scope netlist scope component.id) (hexpand _ _ _ ?_)
      simp [addScope]
  refine place_cases (motive := fun state => Replay library netlist
    (placeAttempts library inner scope (netlist, placements) component) state.1)
    (fun hnone => ?_) (fun entry error hentry _ => ?_) fun entry assembly hentry hassemble => ?_
  · rw [placeAttempts, Library.inside?, hnone]
    exact replay_report ..
  · simpa using (hinside entry hentry).append (replay_report ..)
  · have hpart : Quiet library (enter expand scope netlist component entry.inside).1
        ((enter expand scope netlist component entry.inside).1.addPart
          (assembly.toPart component scope)) := by
      refine .part _ _ ⟨entry, List.mem_of_find?_eq_some hentry, component.args, assembly,
        hassemble, ?_, rfl, rfl, rfl⟩ ?_
      · simp [Assembly.toPart, PortDecl.unbound, Function.comp_def]
      · intro port hport
        obtain ⟨decl, -, rfl⟩ := List.mem_map.mp hport
        rfl
    simpa using (hinside entry hentry).append (.quiet hpart (.nil _))

theorem replay_layout (library : Library) : ∀ (depth : Nat) (schematic : Schematic) (scope : Nat)
    (netlist : Netlist), scope < netlist.scopes.length →
    Replay library netlist (layoutAttempts library depth schematic scope netlist)
      (layout library depth schematic scope netlist).1 := by
  intro depth
  induction depth with
  | zero => exact fun _ _ _ _ => .nil _
  | succ depth ih =>
    intro schematic scope netlist hscope
    have hplaced := Replay.foldl (fun next => scope < next.scopes.length) Prod.fst
      (fun h => h.length_scopes)
      (fun state component _ => replay_place scope ih state component)
      schematic.components (netlist, []) hscope
    exact hplaced.append (replay_bindWires _ _ (hplaced.kept.length_scopes hscope))

/-- Flattening replays its record. -/
theorem replay_flatten (library : Library) (schematic : Schematic) :
    Replay library { scopes := [⟨none, ""⟩] } (attempts library schematic)
      (flatten library schematic) := by
  have hlayout := replay_layout library (library.entries.length + 1) schematic 0
    { scopes := [⟨none, ""⟩] } (Nat.zero_lt_one)
  have hreport : Replay library (layout library (library.entries.length + 1) schematic 0
      { scopes := [⟨none, ""⟩] }).1 [] (flatten library schematic) :=
    .quiet (.reports _ _) (.nil _)
  have hall := hlayout.append hreport
  rw [List.append_nil] at hall
  exact hall

end Breadboard
