import Breadboard.Proofs.Onward

/-!
# What binding wires leaves alone

Binding the wires of a schematic attaches ports of the placed components, and external pins
of the boundary ports behind them (`Netlist.Attachable`). All else stays as it was: parts that
are neither stay the same, parts behind a placed component up to the nets of their external
pins, and the nets that were there list what they listed (`fringed_bindWires`).
-/

namespace Breadboard

open Netlist

/-- A port that knows no net if it is an external pin. -/
def Port.released (port : Port) : Port :=
  if port.id = Boundary.externalPin then { port with net := none } else port

/-- A part without the net of its external pin. -/
def Part.released (part : Part) : Part :=
  { part with ports := part.ports.map Port.released }

variable {netlist next : Netlist} {placements : Placements} {scope index p : Nat} {ref : PortRef}
  {asSource : Bool} {wires : List Wire}

theorem Port.released_bound (port : Port) (index : Nat) (h : port.id = Boundary.externalPin) :
    Port.released { port with net := some index } = port.released := by
  rw [released, released, if_pos h, if_pos h]

/-- What is released does not depend on the net of the external pin. -/
theorem Part.released_attach {part : Part} {position : Nat}
    (h : part.port? Boundary.externalPin = some position) (index : Nat) :
    (part.attach position index).released = part.released := by
  obtain ⟨hlt, hid, -⟩ := List.findIdx?_eq_some_iff_getElem.mp h
  have hid : part.ports[position].id = Boundary.externalPin := by simpa using hid
  have hports : (part.ports.modify position fun port => { port with net := some index }).map
      Port.released = part.ports.map Port.released := by
    refine List.ext_getElem? fun place => ?_
    rw [List.getElem?_map, List.getElem?_map, List.getElem?_modify]
    by_cases hplace : position = place
    · subst hplace
      rw [List.getElem?_eq_getElem hlt]
      simp only [Option.map_eq_map, Option.map_some]
      exact congrArg some (Port.released_bound _ _ hid)
    · simp only [if_neg hplace, Option.map_eq_map, Option.map_id']
  rw [Part.released, Part.released]
  exact congrArg (fun ports => { part with ports }) hports

namespace Netlist

/-- The port belongs to a placed component, or is the external pin of a part behind one. -/
def Attachable (netlist : Netlist) (placements : Placements) (ref : PortRef) : Prop :=
  ∃ id placed, placements.lookup id = some placed ∧ (placed.part = ref.part ∨
    (∃ inner ∈ placed.boundary, inner.2 = ref.part) ∧
      netlist.position? ref.part Boundary.externalPin = some ref.port)

/-- Wires of a scope were bound, and nothing else happened. -/
structure Fringed (placements : Placements) (scope : Nat) (netlist next : Netlist) : Prop where
  scopes : next.scopes = netlist.scopes
  outline : next.outline = netlist.outline
  nets : ∃ more, next.nets = netlist.nets ++ more ∧ ∀ net ∈ more, net.scope = scope
  released : ∀ p, (∀ id placed, placements.lookup id = some placed → placed.part ≠ p) →
    next.parts[p]?.map Part.released = netlist.parts[p]?.map Part.released
  untouched : ∀ p, (∀ id placed, placements.lookup id = some placed →
    placed.part ≠ p ∧ ∀ inner ∈ placed.boundary, inner.2 ≠ p) →
      next.parts[p]? = netlist.parts[p]?

namespace Fringed

theorem refl (placements : Placements) (scope : Nat) (netlist : Netlist) :
    Fringed placements scope netlist netlist :=
  ⟨rfl, rfl, ⟨[], (List.append_nil _).symm, fun _ hmem => nomatch hmem⟩, fun _ _ => rfl,
    fun _ _ => rfl⟩

variable (h : Fringed placements scope netlist next)

include h

theorem report (diagnostic : Diagnostic) :
    Fringed placements scope netlist (next.report diagnostic) :=
  { h with }

theorem addNet (group : List Nat) :
    Fringed placements scope netlist (addNet wires scope next group) := by
  obtain ⟨more, hnets, hscope⟩ := h.nets
  refine { h with nets := ⟨_, (congrArg (· ++ [_]) hnets).trans (List.append_assoc ..), ?_⟩ }
  intro net hnet
  rcases List.mem_append.mp hnet with hnet | hnet
  · exact hscope net hnet
  · rw [List.mem_singleton.mp hnet]

theorem bind (hindex : netlist.nets.length ≤ index) (href : next.Attachable placements ref) :
    Fringed placements scope netlist (next.bind index ref asSource) := by
  have houtline := (outline_bind next index ref asSource).trans h.outline
  rcases bind_cases next index ref asSource with ⟨_, heq⟩ | ⟨port, found, -, hfound, -, -, heq⟩
  · rw [heq]
    exact { h with }
  · rw [heq] at houtline ⊢
    obtain ⟨more, hnets, hscope⟩ := h.nets
    obtain ⟨id, placed, hlookup, hreach⟩ := href
    -- the part that is attached, unless it is the placed component itself
    have hinner : placed.part ≠ ref.part → (∃ inner ∈ placed.boundary, inner.2 = ref.part) ∧
        next.position? ref.part Boundary.externalPin = some ref.port :=
      fun hne => hreach.resolve_left hne
    have hset : ∀ net, next.nets.set index net =
        netlist.nets ++ more.set (index - netlist.nets.length) net := fun net => by
      rw [hnets, List.set_append_right _ _ hindex]
    refine ⟨h.scopes, houtline, ⟨_, hset _, fun net hnet => ?_⟩, fun p hplaced => ?_,
      fun p hplaced => ?_⟩
    · rcases List.mem_or_eq_of_mem_set hnet with hnet | rfl
      · exact hscope net hnet
      · rw [hnets, List.getElem?_append_right hindex] at hfound
        exact hscope found (List.mem_of_getElem? hfound)
    · refine Eq.trans ?_ (h.released p hplaced)
      by_cases hp : ref.part = p
      · subst hp
        obtain ⟨part, hpart, hposition⟩ :=
          Option.bind_eq_some_iff.mp (hinner (hplaced id placed hlookup)).2
        rw [parts_attached, hpart]
        simp only [if_true, Option.map_some]
        exact congrArg some (Part.released_attach hposition index)
      · rw [parts_attached_of_ne _ _ _ _ hp]
    · refine Eq.trans ?_ (h.untouched p hplaced)
      have hp : ref.part ≠ p := by
        rintro rfl
        obtain ⟨hne, hbehind⟩ := hplaced id placed hlookup
        obtain ⟨inner, hmem, heq⟩ := (hinner hne).1
        exact hbehind inner hmem heq
      exact parts_attached_of_ne _ _ _ _ hp

theorem bindPlaced (hindex : netlist.nets.length ≤ index) {id name : String}
    {placed : Breadboard.Placed} (hlookup : placements.lookup id = some placed) (port : Nat) :
    Fringed placements scope netlist (next.bindPlaced index placed port name) := by
  rw [bindPlaced_eq]
  have hown : ∀ asSource, Fringed placements scope netlist
      (next.bind index ⟨placed.part, port⟩ asSource) :=
    fun asSource => h.bind hindex ⟨id, placed, hlookup, .inl rfl⟩
  cases hbehind : next.behind? placed name with
  | none => exact hown true
  | some inner =>
    obtain ⟨part, hpart, hposition⟩ := Option.bind_eq_some_iff.mp hbehind
    obtain ⟨pin, hpin, rfl⟩ := Option.map_eq_some_iff.mp hposition
    refine (hown _).bind hindex ⟨id, placed, hlookup, .inr ⟨⟨_, mem_of_lookup hpart, rfl⟩, ?_⟩⟩
    rw [position?_eq, outline_bind, ← position?_eq, hpin]

theorem bindEnd (hindex : netlist.nets.length ≤ index) (wireEnd : String × Endpoint) :
    Fringed placements scope netlist (next.bindEnd scope placements index wireEnd) := by
  rw [bindEnd_eq]
  cases hlookup : placements.lookup wireEnd.2.component with
  | none => exact h.report _
  | some placed =>
    dsimp only
    cases next.position? placed.part wireEnd.2.port with
    | none => exact h.report _
    | some port => exact h.bindPlaced hindex hlookup port

theorem length_nets : netlist.nets.length ≤ next.nets.length := by
  obtain ⟨more, hnets, -⟩ := h.nets
  rw [hnets, List.length_append]
  exact Nat.le_add_right ..

end Fringed

theorem Fringed.bindGroup (h : Fringed placements scope netlist next) (group : List Nat) :
    Fringed placements scope netlist (next.bindGroup wires scope placements group) :=
  List.foldlRecOn _ _ (h.addNet group) fun _ hnext wireEnd _ => hnext.bindEnd h.length_nets wireEnd

theorem fringed_bindWires (netlist : Netlist) (wires : List Wire) (scope : Nat)
    (placements : Placements) :
    Fringed placements scope netlist (netlist.bindWires wires scope placements) :=
  List.foldlRecOn _ _ (Fringed.refl ..) fun _ hnext group _ => hnext.bindGroup group

end Netlist

end Breadboard
