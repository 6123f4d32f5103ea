import Breadboard.Proofs.Onward

/-!
# Laying out behind what is there

A schematic is laid out in a netlist just as in an empty one, only that all positions are
shifted by what stands before (`Offset`). Step by step, the one netlist is what was there
followed by the shifted other one (`Behind`), and what was there stays untouched
(`steady_layout`). Library and schematic may be as malformed as they like: what is reported
names other paths, and nothing else depends on where something is laid out.
-/

namespace Breadboard

open Netlist

/-- By how much the positions of parts, nets and scopes are shifted. -/
structure Offset where
  parts : Nat := 0
  nets : Nat := 0
  scopes : Nat := 0
  deriving DecidableEq, Repr

namespace Offset

variable (base : Offset)

def ref (ref : PortRef) : PortRef :=
  ⟨base.parts + ref.part, ref.port⟩

def port (port : Port) : Port :=
  { port with net := port.net.map (base.nets + ·) }

def part (part : Part) : Part :=
  { part with scope := base.scopes + part.scope, ports := part.ports.map base.port }

def net (net : Net) : Net :=
  { net with
    scope := base.scopes + net.scope
    sources := net.sources.map base.ref
    targets := net.targets.map base.ref }

def scope (scope : Scope) : Scope :=
  { scope with parent := scope.parent.map (base.scopes + ·) }

def placed (placed : Placed) : Placed :=
  ⟨base.parts + placed.part, placed.boundary.map fun inner => (inner.1, base.parts + inner.2)⟩

def placements (placements : Placements) : Placements :=
  placements.map fun entry => (entry.1, base.placed entry.2)

end Offset

variable {library : Library} {base : Offset} {host small big : Netlist} {index scope depth : Nat}
  {placements : Placements} {wires : List Wire} {ref : PortRef} {asSource : Bool}

/-! ## Shifted parts -/

theorem Offset.port?_part (base : Offset) (part : Part) (id : String) :
    (base.part part).port? id = part.port? id := by
  rw [Part.port?, Part.port?, Offset.part, List.findIdx?_map]
  rfl

theorem Offset.lookup_placements (base : Offset) (placements : Placements) (id : String) :
    (base.placements placements).lookup id = (placements.lookup id).map base.placed :=
  lookup_map_snd base.placed id placements

theorem Offset.toPart (base : Offset) (assembly : Assembly) (component : Component) (scope : Nat) :
    base.part (assembly.toPart component scope) =
      assembly.toPart component (base.scopes + scope) := by
  simp [Offset.part, Assembly.toPart, Offset.port, PortDecl.unbound, Function.comp_def]

/-- Changing an entry behind what is there. -/
theorem modify_behind {α β : Type} {f : α → β} {g : α → α} {k : β → β}
    (hg : ∀ a, k (f a) = f (g a)) (host : List β) (list : List α) (n : Nat) :
    (host ++ list.map f).modify (host.length + n) k = host ++ (list.modify n g).map f := by
  refine List.ext_getElem? fun place => ?_
  rw [List.getElem?_modify]
  rcases Nat.lt_or_ge place host.length with hlt | hge
  · have hne : host.length + n ≠ place := by omega
    rw [List.getElem?_append_left hlt, List.getElem?_append_left hlt]
    simp only [hne, if_false, Option.map_eq_map, Option.map_id']
  · obtain ⟨more, rfl⟩ := Nat.exists_eq_add_of_le hge
    rw [List.getElem?_append_right hge, List.getElem?_append_right hge, Nat.add_sub_cancel_left,
      map_modify (fun a => (hg a).symm), List.getElem?_modify]
    simp only [Nat.add_left_cancel_iff]

/-- A netlist is what was there with another one behind it, below the last scope that was
there. -/
structure Behind (base : Offset) (host small big : Netlist) : Prop where
  parts : big.parts = host.parts ++ small.parts.map base.part
  nets : big.nets = host.nets ++ small.nets.map base.net
  scopes : big.scopes = host.scopes ++ small.scopes.tail.map base.scope
  length_parts : host.parts.length = base.parts
  length_nets : host.nets.length = base.nets
  length_scopes : host.scopes.length = base.scopes + 1
  top : 0 < small.scopes.length

namespace Behind

variable (h : Behind base host small big)

include h

theorem getElem?_parts (n : Nat) : big.parts[base.parts + n]? = small.parts[n]?.map base.part := by
  rw [h.parts, List.getElem?_append_right (by rw [h.length_parts]; exact Nat.le_add_right ..),
    h.length_parts, Nat.add_sub_cancel_left, List.getElem?_map]

theorem getElem?_nets (n : Nat) : big.nets[base.nets + n]? = small.nets[n]?.map base.net := by
  rw [h.nets, List.getElem?_append_right (by rw [h.length_nets]; exact Nat.le_add_right ..),
    h.length_nets, Nat.add_sub_cancel_left, List.getElem?_map]

theorem size_parts : big.parts.length = base.parts + small.parts.length := by
  rw [h.parts, List.length_append, List.length_map, h.length_parts]

theorem size_nets : big.nets.length = base.nets + small.nets.length := by
  rw [h.nets, List.length_append, List.length_map, h.length_nets]

theorem size_scopes : big.scopes.length = base.scopes + small.scopes.length := by
  have := h.top
  rw [h.scopes, List.length_append, List.length_map, List.length_tail, h.length_scopes]
  omega

theorem port? (ref : PortRef) : big.port? (base.ref ref) = (small.port? ref).map base.port := by
  rw [Netlist.port?, Netlist.port?, Offset.ref, h.getElem?_parts]
  cases small.parts[ref.part]? with
  | none => rfl
  | some part => exact List.getElem?_map

theorem position? (part : Nat) (id : String) :
    big.position? (base.parts + part) id = small.position? part id := by
  rw [Netlist.position?, Netlist.position?, h.getElem?_parts]
  cases small.parts[part]? with
  | none => rfl
  | some part => exact base.port?_part part id

theorem any_valid (part : Nat) :
    big.parts[base.parts + part]?.any (·.valid) = small.parts[part]?.any (·.valid) := by
  rw [h.getElem?_parts]
  cases small.parts[part]? <;> rfl

theorem behind? (placed : Placed) (id : String) :
    big.behind? (base.placed placed) id = (small.behind? placed id).map base.ref := by
  rw [Netlist.behind?, Netlist.behind?, Offset.placed, lookup_map_snd (base.parts + ·) id]
  cases placed.boundary.lookup id with
  | none => rfl
  | some part =>
    simp only [Option.map_some, Option.bind_some, h.position?, Option.map_map]
    rfl

/-! ### Steps -/

theorem report (diagnostic diagnostic' : Diagnostic) :
    Behind base host (small.report diagnostic) (big.report diagnostic') :=
  { h with }

theorem addScope (parent : Nat) (name : String) : Behind base host (small.addScope parent name)
    (big.addScope (base.scopes + parent) name) := by
  refine { h with scopes := ?_, top := ?_ }
  · rw [Netlist.addScope, Netlist.addScope, h.scopes, List.tail_append_of_ne_nil
      (List.ne_nil_of_length_pos h.top), List.map_append, List.append_assoc]
    rfl
  · simp [Netlist.addScope]

theorem addPart (part : Part) :
    Behind base host (small.addPart part) (big.addPart (base.part part)) := by
  refine { h with parts := ?_ }
  rw [Netlist.addPart, Netlist.addPart, h.parts, List.map_append, List.append_assoc]
  rfl

theorem addNet (group : List Nat) : Behind base host (addNet wires scope small group)
    (Netlist.addNet wires (base.scopes + scope) big group) := by
  refine { h with nets := ?_ }
  rw [Netlist.addNet, Netlist.addNet, h.nets, List.map_append, List.append_assoc]
  rfl

theorem bind (index : Nat) (ref : PortRef) (asSource : Bool) :
    Behind base host (small.bind index ref asSource)
      (big.bind (base.nets + index) (base.ref ref) asSource) := by
  unfold Netlist.bind
  rw [h.port?, h.getElem?_nets]
  cases small.port? ref with
  | none => exact h
  | some port =>
    cases small.nets[index]? with
    | none => exact h
    | some net =>
      have htype : (base.port port).type = port.type := rfl
      have hwidth : (base.port port).width = port.width := rfl
      have hnet : (base.net net).width = net.width := rfl
      simp only [Option.map_some, htype, hwidth, hnet]
      by_cases hopen : (!(asSource && port.type.output) && !port.type.input) = true
      · rw [if_pos hopen, if_pos hopen]
        exact h
      · rw [if_neg hopen, if_neg hopen]
        by_cases hturned : net.width ≠ 0 ∧ net.width ≠ port.width
        · rw [if_pos hturned, if_pos hturned]
          exact h.report ..
        · rw [if_neg hturned, if_neg hturned]
          refine { h with parts := ?_, nets := ?_ }
          · rw [h.parts, Offset.ref, ← h.length_parts]
            refine modify_behind (fun part => ?_) host.parts small.parts ref.part
            have hports := modify_behind (f := base.port) (g := fun port =>
              { port with net := some index }) (k := fun port =>
                { port with net := some (base.nets + index) }) (fun _ => rfl) [] part.ports ref.port
            simpa [Offset.part] using hports
          · rw [h.nets, ← h.length_nets, List.set_append_right _ _ (Nat.le_add_right ..),
              Nat.add_sub_cancel_left, List.map_set]
            simp only [Offset.net]
            split <;> split <;> simp

theorem bindPlaced (index : Nat) (placed : Placed) (port : Nat) (id : String) :
    Behind base host (small.bindPlaced index placed port id)
      (big.bindPlaced (base.nets + index) (base.placed placed) port id) := by
  have hvalid := h.any_valid placed.part
  rw [bindPlaced_eq, bindPlaced_eq, h.behind?]
  cases small.behind? placed id with
  | none => exact h.bind index ⟨placed.part, port⟩ true
  | some inner =>
    simp only [Option.map_some]
    rw [show (base.placed placed).part = base.parts + placed.part from rfl, hvalid]
    exact (h.bind index ⟨placed.part, port⟩ _).bind index inner _

theorem bindEnd (placements : Placements) (index : Nat) (wireEnd : String × Endpoint) :
    Behind base host (small.bindEnd scope placements index wireEnd)
      (big.bindEnd (base.scopes + scope) (base.placements placements) (base.nets + index)
        wireEnd) := by
  rw [bindEnd_eq, bindEnd_eq, base.lookup_placements]
  cases placements.lookup wireEnd.2.component with
  | none => exact h.report ..
  | some placed =>
    simp only [Option.map_some]
    rw [show (base.placed placed).part = base.parts + placed.part from rfl, h.position?]
    cases small.position? placed.part wireEnd.2.port with
    | none => exact h.report ..
    | some port => exact h.bindPlaced index placed port wireEnd.2.port

end Behind

theorem Behind.bindGroup (h : Behind base host small big) (placements : Placements)
    (group : List Nat) : Behind base host (small.bindGroup wires scope placements group)
      (big.bindGroup wires (base.scopes + scope) (base.placements placements) group) := by
  unfold Netlist.bindGroup
  dsimp only
  rw [h.size_nets]
  exact List.foldl_rel (r := Behind base host) (h.addNet group) fun wireEnd _ _ _ hnext =>
    hnext.bindEnd placements small.nets.length wireEnd

theorem Behind.bindWires (h : Behind base host small big) (wires : List Wire) (scope : Nat)
    (placements : Placements) : Behind base host (small.bindWires wires scope placements)
      (big.bindWires wires (base.scopes + scope) (base.placements placements)) :=
  List.foldl_rel (r := Behind base host) h fun group _ _ _ hnext => hnext.bindGroup placements group

/-! ## Laying out -/

theorem Offset.boundaryParts (base : Offset) (inside : Schematic) (inner : Placements) :
    Breadboard.boundaryParts inside (base.placements inner) =
      (Breadboard.boundaryParts inside inner).map fun entry => (entry.1, base.parts + entry.2) := by
  unfold Breadboard.boundaryParts
  rw [List.map_reverse, List.map_filterMap]
  refine congrArg List.reverse (List.filterMap_congr fun component _ => ?_)
  rw [base.lookup_placements]
  cases inner.lookup component.id <;> rfl

/-- Both sides after a number of steps of a layout. -/
structure Abreast (base : Offset) (host : Netlist) (state state' : Netlist × Placements) :
    Prop where
  behind : Behind base host state.1 state'.1
  placements : state'.2 = base.placements state.2

/-- A schematic is laid out alike at both places. -/
def Steady (expand : Layout) : Prop :=
  ∀ {base : Offset} {host small big : Netlist} (schematic : Schematic) (scope : Nat),
    Behind base host small big → Abreast base host (expand schematic scope small)
      (expand schematic (base.scopes + scope) big)

theorem Behind.enter {expand : Layout} (hexpand : Steady expand) (h : Behind base host small big)
    (scope : Nat) (component : Component) (inside : Option Schematic) :
    Behind base host (enter expand scope small component inside).1
        (Netlist.enter expand (base.scopes + scope) big component inside).1 ∧
      (Netlist.enter expand (base.scopes + scope) big component inside).2 =
        (Netlist.enter expand scope small component inside).2.map
          fun entry => (entry.1, base.parts + entry.2) := by
  cases inside with
  | none => exact ⟨h, rfl⟩
  | some inside =>
    have hinner := hexpand inside small.scopes.length (h.addScope scope component.id)
    rw [← h.size_scopes] at hinner
    exact ⟨hinner.behind, (congrArg (Breadboard.boundaryParts inside) hinner.placements).trans
      (base.boundaryParts inside _)⟩

theorem Abreast.place {expand : Layout} (hexpand : Steady expand)
    {state state' : Netlist × Placements} (h : Abreast base host state state')
    (component : Component) : Abreast base host (place library expand scope state component)
      (Breadboard.place library expand (base.scopes + scope) state' component) := by
  obtain ⟨small, placements⟩ := state
  obtain ⟨big, placements'⟩ := state'
  obtain ⟨hbehind, rfl⟩ := h
  rw [Netlist.place_eq, Netlist.place_eq]
  cases library.get? component.definition with
  | none => exact ⟨hbehind.report .., rfl⟩
  | some entry =>
    obtain ⟨hinner, hboundary⟩ := hbehind.enter hexpand scope component entry.inside
    dsimp only
    cases entry.definition.assemble component.args with
    | error error => exact ⟨hinner.report .., rfl⟩
    | ok assembly =>
      have hadded := hinner.addPart (assembly.toPart component scope)
      rw [base.toPart] at hadded
      refine ⟨hadded, ?_⟩
      dsimp only
      rw [hinner.size_parts, hboundary]
      rfl

theorem steady_layout (library : Library) : ∀ depth, Steady (layout library depth) := by
  intro depth
  induction depth with
  | zero => exact fun _ _ h => ⟨h, rfl⟩
  | succ depth ih =>
    intro base host small big schematic scope h
    have hstart : Abreast base host (small, []) (big, []) := ⟨h, rfl⟩
    obtain ⟨hbehind, hplacements⟩ := List.foldl_rel (r := Abreast base host)
      (l := schematic.components) hstart fun component _ _ _ h' => h'.place ih component
    unfold layout
    dsimp only
    refine ⟨?_, hplacements⟩
    rw [hplacements]
    exact hbehind.bindWires schematic.wires scope _

end Breadboard
