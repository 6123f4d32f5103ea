import Breadboard.Netlist.Flatten
import Breadboard.Proofs.Built
import Mathlib.Logic.Relation

/-!
# How flattening grows a netlist

Flattening makes a netlist in small steps: it opens a scope, adds a part or an
empty net, attaches a port to a net, or notes a diagnostic. `Netlist.Extend`
lists them, and `grows_flatten` says that flattening is made of nothing else. A
property that each step keeps therefore holds of every flat netlist.

A port is attached as a source unless its part is not valid; the exception is
the external pin of a boundary port, which is attached in place of the component
around it (`Netlist.Admits`).
-/

namespace Breadboard

namespace Library

/-- Every definition is built in or exists only as a schematic. -/
def Native (library : Library) : Prop :=
  ∀ entry ∈ library.entries, entry.definition.Native

/-- The part comes from one of the definitions. -/
def Makes (library : Library) (part : Part) : Prop :=
  ∃ entry ∈ library.entries, ∃ args assembly,
    entry.definition.assemble args = .ok assembly ∧ part.MadeOf assembly

theorem Makes.built {library : Library} {part : Part} (h : library.Makes part)
    (hnative : library.Native) : part.Built := by
  obtain ⟨entry, hentry, args, assembly, hassemble, hmade⟩ := h
  exact ⟨entry.definition, args, assembly, hnative entry hentry, hassemble, hmade⟩

theorem native_add {library : Library} {definition : Definition} (inside : Option Schematic)
    (h : library.Native) (hdefinition : definition.Native) : (library.add definition inside).Native := by
  intro entry hentry
  rcases List.mem_append.mp hentry with hentry | hentry
  · exact h entry (List.mem_filter.mp hentry).1
  · rw [List.mem_singleton.mp hentry]
    exact hdefinition

theorem native_builtin : builtin.Native := by
  have hfold : ∀ (all : List Builtin) (library : Library), library.Native →
      (all.foldl (fun library builtin => library.add (.ofBuiltin builtin)) library).Native := by
    intro all
    induction all with
    | nil => exact fun _ h => h
    | cons builtin all ih =>
      exact fun library h => ih _ (native_add none h (Or.inl ⟨builtin, rfl⟩))
  exact hfold _ _ fun entry hentry => absurd hentry List.not_mem_nil

end Library

/-! ## One port of one part -/

/-- A change of one entry may as well be made before all entries are mapped. -/
theorem map_modify {α β : Type} {f : α → α} {g : β → β} {view : α → β}
    (h : ∀ a, view (f a) = g (view a)) (list : List α) (index : Nat) :
    (list.modify index f).map view = (list.map view).modify index g := by
  refine List.ext_getElem? fun position => ?_
  rw [List.getElem?_map, List.getElem?_modify, List.getElem?_modify, List.getElem?_map]
  cases list[position]? with
  | none => rfl
  | some a =>
    by_cases heq : index = position
    · simp [heq, h]
    · simp [heq]

/-- A change that the view does not look at. -/
theorem map_modify_of_blind {α β : Type} {f : α → α} {view : α → β}
    (h : ∀ a, view (f a) = view a) (list : List α) (index : Nat) :
    (list.modify index f).map view = list.map view := by
  have hmap := map_modify (g := id) h list index
  rwa [List.modify_id] at hmap

/-- The port once it is attached to the net at `index`. -/
def Port.attach (port : Port) (index : Nat) : Port :=
  { port with net := index }

/-- The part with one of its ports attached to a net. -/
def Part.attach (part : Part) (position index : Nat) : Part :=
  { part with ports := part.ports.modify position (·.attach index) }

theorem Part.ports_attach (part : Part) (position index : Nat) :
    (part.attach position index).ports = part.ports.modify position (·.attach index) := rfl

/-- A port that is attached stays what it is, but for its net. -/
theorem Part.map_ports_attach {α : Type} {view : Port → α} {index : Nat}
    (h : ∀ port : Port, view (port.attach index) = view port) (part : Part)
    (position : Nat) : (part.attach position index).ports.map view = part.ports.map view :=
  map_modify_of_blind h ..

/-- The net once a port is attached to it, as what the port can be. -/
def Net.attach (net : Net) (ref : PortRef) (asSource : Bool) (port : Port) : Net :=
  { net with
    width := port.width
    tristate := net.tristate || port.type.tristate
    sources := if asSource && port.type.output then net.sources ++ [ref] else net.sources
    targets := if port.type.input then net.targets ++ [ref] else net.targets }

namespace Net

variable {net : Net} {ref other : PortRef} {asSource : Bool} {port : Port}

theorem mem_sources_attach : other ∈ (net.attach ref asSource port).sources ↔
    other ∈ net.sources ∨ other = ref ∧ (asSource && port.type.output) = true := by
  unfold attach
  dsimp only
  split
  · next hdrives => simp [hdrives]
  · next hidle => simp [hidle]

theorem mem_targets_attach : other ∈ (net.attach ref asSource port).targets ↔
    other ∈ net.targets ∨ other = ref ∧ port.type.input = true := by
  unfold attach
  dsimp only
  split
  · next hreads => simp [hreads]
  · next hdeaf => simp [hdeaf]

theorem sources_subset_attach : net.sources ⊆ (net.attach ref asSource port).sources :=
  fun _ hmem => mem_sources_attach.mpr (Or.inl hmem)

theorem targets_subset_attach : net.targets ⊆ (net.attach ref asSource port).targets :=
  fun _ hmem => mem_targets_attach.mpr (Or.inl hmem)

/-- A net lists what it listed before and the port that was attached. -/
theorem listed_of_attach
    (h : other ∈ (net.attach ref asSource port).sources ∨
      other ∈ (net.attach ref asSource port).targets) :
    (other ∈ net.sources ∨ other ∈ net.targets) ∨ other = ref := by
  rw [mem_sources_attach, mem_targets_attach] at h
  rcases h with (h | h) | (h | h)
  · exact Or.inl (Or.inl h)
  · exact Or.inr h.1
  · exact Or.inl (Or.inr h)
  · exact Or.inr h.1

end Net

namespace Netlist

variable {library : Library}

/-- When a port is attached as a target only, its part is not valid or it is the
external pin of a boundary port. -/
def Admits (netlist : Netlist) (ref : PortRef) (asSource : Bool) : Prop :=
  asSource = true ∨
    (∀ part, netlist.parts[ref.part]? = some part → part.valid = false) ∨
      ∀ port, netlist.port? ref = some port → port.id = Boundary.externalPin

inductive Extend (library : Library) : Netlist → Netlist → Prop where
  | diagnostics (netlist : Netlist) (diagnostics : List Diagnostic) :
      Extend library netlist { netlist with diagnostics }
  | scope (netlist : Netlist) (parent : Nat) (name : String) :
      Extend library netlist (netlist.addScope parent name)
  | part (netlist : Netlist) (part : Part) : library.Makes part →
      (∀ port ∈ part.ports, port.net = none) → Extend library netlist (netlist.addPart part)
  | net (netlist : Netlist) (scope : Nat) (wires : List String) :
      Extend library netlist { netlist with nets := netlist.nets ++ [{ scope, wires }] }
  | bind (netlist : Netlist) (index : Nat) (ref : PortRef) (asSource : Bool) :
      netlist.Admits ref asSource → Extend library netlist (netlist.bind index ref asSource)

abbrev Grows (library : Library) : Netlist → Netlist → Prop :=
  Relation.ReflTransGen (Extend library)

theorem grows_report (netlist : Netlist) (diagnostic : Diagnostic) :
    Grows library netlist (netlist.report diagnostic) :=
  .single (.diagnostics ..)

/-- A fold whose every round grows the netlist grows it. -/
theorem grows_foldl {α β : Type} {round : β → α → β} (read : β → Netlist) {items : List α}
    (hround : ∀ state, ∀ item ∈ items, Grows library (read state) (read (round state item))) (state : β) :
    Grows library (read state) (read (items.foldl round state)) := by
  induction items generalizing state with
  | nil => exact .refl
  | cons item items ih =>
    exact (hround state item (List.mem_cons_self ..)).trans
      (ih (fun state other hother => hround state other (List.mem_cons_of_mem _ hother)) _)

/-! ## Attaching a port -/

/-- The netlist in which `ref` was attached to the net at `index`, which is `net` by then. -/
def attached (netlist : Netlist) (index : Nat) (ref : PortRef) (net : Net) : Netlist :=
  { netlist with
    nets := netlist.nets.set index net
    parts := netlist.parts.modify ref.part fun part =>
      { part with ports := part.ports.modify ref.port fun port => { port with net := index } } }

/-- The port of a netlist in which `ref` was attached to the net `index`. -/
def joined (index : Nat) (ref other : PortRef) (port : Port) : Port :=
  if other = ref then { port with net := index } else port

section

variable (netlist : Netlist) (index : Nat) (ref other : PortRef) (net : Net)

@[simp] theorem nets_attached :
    (netlist.attached index ref net).nets = netlist.nets.set index net := rfl

@[simp] theorem scopes_attached : (netlist.attached index ref net).scopes = netlist.scopes := rfl

@[simp] theorem length_parts_attached :
    (netlist.attached index ref net).parts.length = netlist.parts.length :=
  List.length_modify ..

theorem parts_attached (part : Nat) : (netlist.attached index ref net).parts[part]? =
    netlist.parts[part]?.map fun found =>
      if ref.part = part then found.attach ref.port index else found := by
  change (netlist.parts.modify ref.part (·.attach ref.port index))[part]? = _
  rw [List.getElem?_modify]
  split <;> simp

theorem parts_attached_of_ne {part : Nat} (h : ref.part ≠ part) :
    (netlist.attached index ref net).parts[part]? = netlist.parts[part]? := by
  simp [parts_attached, h]

/-- Attaching changes nothing that does not look at the nets of ports. -/
theorem map_parts_attached {α : Type} {view : Part → α}
    (h : ∀ (part : Part) position, view (part.attach position index) = view part) :
    (netlist.attached index ref net).parts.map view = netlist.parts.map view :=
  map_modify_of_blind (fun part => h part ref.port) ..

theorem port_attached : (netlist.attached index ref net).port? other =
    (netlist.port? other).map (joined index ref other) := by
  obtain ⟨part, port⟩ := ref
  obtain ⟨place, position⟩ := other
  rw [port?, port?, parts_attached, Option.bind_map, Option.map_bind]
  refine congrArg _ (funext fun found => ?_)
  dsimp only [Function.comp]
  by_cases hpart : part = place
  · subst hpart
    rw [if_pos rfl, Part.ports_attach, List.getElem?_modify]
    refine congrArg (Option.map · _) (funext fun port => ?_)
    simp only [joined, Port.attach, PortRef.mk.injEq, true_and, eq_comm]
  · have hsame : joined index ⟨part, port⟩ ⟨place, position⟩ = id :=
      funext fun _ => if_neg fun heq => hpart (PortRef.mk.inj heq).1.symm
    rw [if_neg hpart, hsame, Option.map_id, id]

end

/-- Attaching either leaves ports and nets alone or writes both sides. -/
theorem bind_cases (netlist : Netlist) (index : Nat) (ref : PortRef) (asSource : Bool) :
    (∃ diagnostics, netlist.bind index ref asSource = { netlist with diagnostics }) ∨
      ∃ port net, netlist.port? ref = some port ∧ netlist.nets[index]? = some net ∧
        ((asSource && port.type.output) = true ∨ port.type.input = true) ∧
        (net.width = 0 ∨ net.width = port.width) ∧
        netlist.bind index ref asSource =
          netlist.attached index ref (net.attach ref asSource port) := by
  unfold bind
  split
  · next port net hport hnet =>
    dsimp only
    split
    · exact Or.inl ⟨_, rfl⟩
    · next hopen =>
      split
      · exact Or.inl ⟨_, rfl⟩
      · next hwidth =>
        refine Or.inr ⟨port, net, hport, hnet, ?_, ?_, rfl⟩
        · cases hinput : port.type.input with
          | true => exact Or.inr rfl
          | false => exact Or.inl (by simpa [hinput] using hopen)
        · by_cases hzero : net.width = 0
          · exact Or.inl hzero
          · exact Or.inr (by simpa [hzero] using hwidth)
  · exact Or.inl ⟨_, rfl⟩

theorem decl_bind (netlist : Netlist) (index : Nat) (ref other : PortRef) (asSource : Bool) :
    ((netlist.bind index ref asSource).port? other).map (·.toPortDecl) =
      (netlist.port? other).map (·.toPortDecl) := by
  rcases bind_cases netlist index ref asSource with ⟨_, heq⟩ | ⟨port, net, -, -, -, -, heq⟩
  · rw [heq]
    rfl
  · rw [heq, port_attached, Option.map_map]
    congr 1
    funext port
    unfold joined
    dsimp only [Function.comp]
    split <;> rfl

/-! ## Binding wires -/

theorem grows_bindPlaced (netlist : Netlist) (index : Nat) (placed : Placed) (port : Nat)
    (id : String) : Grows library netlist (netlist.bindPlaced index placed port id) := by
  unfold bindPlaced
  dsimp only
  split
  · exact .single (.bind _ _ _ _ (Or.inl rfl))
  · next inner hinner =>
    obtain ⟨part, -, hpin⟩ := Option.bind_eq_some_iff.mp hinner
    obtain ⟨position, hposition, rfl⟩ := Option.map_eq_some_iff.mp hpin
    obtain ⟨found, hfound, hposition⟩ := Option.bind_eq_some_iff.mp hposition
    obtain ⟨hlt, hid, -⟩ := List.findIdx?_eq_some_iff_getElem.mp hposition
    have hport : netlist.port? ⟨part, position⟩ = some found.ports[position] := by
      simp [port?, hfound, hlt]
    -- the second end of a boundary port is attached behind the first
    have houter : ∀ own, own = netlist.parts[placed.part]?.any (·.valid) →
        netlist.Admits ⟨placed.part, port⟩ own := by
      rintro own rfl
      cases howner : netlist.parts[placed.part]? with
      | none => exact Or.inr (Or.inl fun part hpart => by rw [howner] at hpart; cases hpart)
      | some owner =>
        cases hvalid : owner.valid with
        | true => exact Or.inl (by simpa using hvalid)
        | false =>
          refine Or.inr (Or.inl fun part hpart => ?_)
          obtain rfl := Option.some.inj (howner.symm.trans hpart)
          exact hvalid
    refine .tail (.single (.bind _ _ _ _ (houter _ rfl))) (.bind _ _ _ _ ?_)
    refine Or.inr (Or.inr fun port' hport' => ?_)
    have hdecl := decl_bind netlist index ⟨placed.part, port⟩ ⟨part, position⟩
      (netlist.parts[placed.part]?.any (·.valid))
    rw [hport', hport] at hdecl
    have hname := congrArg PortDecl.id (Option.some.inj hdecl)
    exact hname.trans (by simpa using hid)

theorem grows_bindEnd (scope : Nat) (placements : Placements) (index : Nat) (netlist : Netlist)
    (wireEnd : String × Endpoint) :
    Grows library netlist (netlist.bindEnd scope placements index wireEnd) := by
  unfold bindEnd
  dsimp only
  split
  · exact grows_report ..
  · split
    · exact grows_report ..
    · exact grows_bindPlaced ..

theorem grows_bindGroup (wires : List Wire) (scope : Nat) (placements : Placements)
    (netlist : Netlist) (group : List Nat) :
    Grows library netlist (netlist.bindGroup wires scope placements group) := by
  unfold bindGroup
  dsimp only
  refine .head (.net netlist scope ((group.filterMap (wires[·]?)).map (·.id))) ?_
  exact grows_foldl (fun netlist => netlist)
    (fun netlist wireEnd _ => grows_bindEnd scope placements _ netlist wireEnd) _

theorem grows_bindWires (wires : List Wire) (scope : Nat) (placements : Placements)
    (netlist : Netlist) : Grows library netlist (netlist.bindWires wires scope placements) :=
  grows_foldl (fun netlist => netlist)
    (fun netlist group _ => grows_bindGroup wires scope placements netlist group) _

/-! ## Placing components -/

/-- The netlist once the inside of a component is laid out, and the boundary ports that
are to be found there. -/
def enter (expand : Layout) (scope : Nat) (netlist : Netlist) (component : Component) :
    (inside : Option Schematic) → Netlist × List (String × Nat)
  | none => (netlist, [])
  | some inside =>
    let (netlist, inner) := expand inside netlist.scopes.length (netlist.addScope scope component.id)
    (netlist, boundaryParts inside inner)

/-- Placing a component, with what it expands to brought out. -/
theorem place_eq (library : Library) (expand : Layout) (scope : Nat) (netlist : Netlist)
    (placements : Placements) (component : Component) :
    place library expand scope (netlist, placements) component =
      match library.get? component.definition with
      | none => (netlist.report (.unknownDefinition (localPath netlist.scopes scope component.id)
          component.definition), placements)
      | some found =>
        let entered := enter expand scope netlist component found.inside
        match found.definition.assemble component.args with
        | .error error => (entered.1.report
            (.build (localPath netlist.scopes scope component.id) error), placements)
        | .ok assembly => (entered.1.addPart (assembly.toPart component scope),
            (component.id, ⟨entered.1.parts.length, entered.2⟩) :: placements) := by
  rw [place]
  cases library.get? component.definition with
  | none => rfl
  | some found => cases found.inside <;> rfl

/-- A component is of no known definition, cannot be built, or becomes a part. -/
theorem place_cases {expand : Layout} {scope : Nat} {netlist : Netlist} {placements : Placements}
    {component : Component} {motive : Netlist × Placements → Prop}
    (unknown : library.get? component.definition = none →
      motive (netlist.report (.unknownDefinition (localPath netlist.scopes scope component.id)
        component.definition), placements))
    (failed : ∀ entry error, library.get? component.definition = some entry →
      entry.definition.assemble component.args = .error error →
      motive ((enter expand scope netlist component entry.inside).1.report
        (.build (localPath netlist.scopes scope component.id) error), placements))
    (built : ∀ entry assembly, library.get? component.definition = some entry →
      entry.definition.assemble component.args = .ok assembly →
      motive ((enter expand scope netlist component entry.inside).1.addPart
          (assembly.toPart component scope),
        (component.id, ⟨(enter expand scope netlist component entry.inside).1.parts.length,
          (enter expand scope netlist component entry.inside).2⟩) :: placements)) :
    motive (place library expand scope (netlist, placements) component) := by
  cases hentry : library.get? component.definition with
  | none =>
    simp only [place, hentry]
    exact unknown hentry
  | some entry =>
    cases hassemble : entry.definition.assemble component.args with
    | error error =>
      simp only [place, hentry, hassemble]
      exact failed entry error hentry hassemble
    | ok assembly =>
      simp only [place, hentry, hassemble]
      exact built entry assembly hentry hassemble

theorem extend_toPart {component : Component} {entry : Library.Entry} {assembly : Assembly}
    {scope : Nat} (hentry : library.get? component.definition = some entry)
    (hassemble : entry.definition.assemble component.args = .ok assembly) (netlist : Netlist) :
    Extend library netlist (netlist.addPart (assembly.toPart component scope)) := by
  refine .part _ _ ⟨entry, List.mem_of_find?_eq_some hentry, component.args, assembly, hassemble,
    ?_, rfl, rfl, rfl⟩ ?_
  · simp [Assembly.toPart, PortDecl.unbound, Function.comp_def]
  · intro port hport
    obtain ⟨decl, -, rfl⟩ := List.mem_map.mp hport
    rfl

theorem grows_place {expand : Layout}
    (hexpand : ∀ schematic scope netlist, Grows library netlist (expand schematic scope netlist).1)
    (scope : Nat) (state : Netlist × Placements) (component : Component) :
    Grows library state.1 (place library expand scope state component).1 := by
  obtain ⟨netlist, placements⟩ := state
  have hinside : ∀ inside, Grows library netlist (enter expand scope netlist component inside).1 := by
    intro inside
    cases inside with
    | none => exact .refl
    | some inside => exact .head (.scope netlist scope component.id) (hexpand _ _ _)
  refine place_cases (motive := fun state => Grows library netlist state.1)
    (fun _ => grows_report ..) (fun entry error _ _ => ?_)
    fun entry assembly hentry hassemble => ?_
  · exact (hinside entry.inside).trans (grows_report ..)
  · exact (hinside entry.inside).tail (extend_toPart hentry hassemble _)

theorem grows_layout (library : Library) : ∀ (depth : Nat) (schematic : Schematic)
    (scope : Nat) (netlist : Netlist),
    Grows library netlist (layout library depth schematic scope netlist).1 := by
  intro depth
  induction depth with
  | zero => exact fun _ _ _ => .refl
  | succ depth ih =>
    intro schematic scope netlist
    unfold layout
    dsimp only
    refine Relation.ReflTransGen.trans ?_ (grows_bindWires ..)
    exact grows_foldl Prod.fst
      (fun state component _ => grows_place ih scope state component) (netlist, [])

theorem grows_flatten (library : Library) (schematic : Schematic) :
    Grows library { scopes := [⟨none, ""⟩] } (flatten library schematic) :=
  .tail (grows_layout library _ schematic 0 _) (.diagnostics ..)

end Netlist

end Breadboard
