import Breadboard.Schedule.Graph

/-!
# Placing the nodes

The nodes of a dependency graph are placed one after the other, each behind
its plain predecessors, and grouped into blocks on the way. A placed node is
a slot: the node, its block, and the dynamic nodes it transitively waits
for. A node joins the block of the node before it when both wait for the
same dynamic nodes; dynamic and crossing nodes always start a block.

A node is ready when its plain predecessors are placed and, if it waits for
any one of several sources, one of them is. Ready nodes are placed in the
order in which they became ready, crossing ones after all others. When none
is ready, the first node whose plain predecessors are placed goes next; when
there is none either, the nodes left contain a cycle, and one node of a
cycle with the fewest outstanding predecessors is placed regardless. The
members of its cycle are kept for the report.
-/

namespace Breadboard

/-- A placed node. -/
structure Slot where
  node : Nat
  block : Nat
  waits : List Nat
  deriving DecidableEq, Repr, Inhabited

/-- The state of the placement: the slots so far, the two queues of ready nodes,
and the loops that were broken. -/
structure Placement where
  slots : List Slot := []
  ready : List Nat := []
  deferred : List Nat := []
  loops : List (List Nat) := []
  deriving Repr, Inhabited

/-- The first of the elements with the least key. -/
def leastBy {α : Type} (key : α → Nat) : List α → Option α
  | [] => none
  | x :: rest =>
    match leastBy key rest with
    | some y => if key y < key x then some y else some x
    | none => some x

theorem leastBy_mem {α : Type} {key : α → Nat} {list : List α} {x : α}
    (h : leastBy key list = some x) : x ∈ list := by
  induction list generalizing x with
  | nil => cases h
  | cons y rest ih =>
    unfold leastBy at h
    split at h
    · next z hz =>
      split at h
      · rw [← Option.some.inj h]
        exact List.mem_cons_of_mem _ (ih hz)
      · rw [← Option.some.inj h]
        exact List.mem_cons_self ..
    · rw [← Option.some.inj h]
      exact List.mem_cons_self ..

theorem leastBy_eq_none_iff {α : Type} {key : α → Nat} {list : List α} :
    leastBy key list = none ↔ list = [] := by
  cases list with
  | nil => simp [leastBy]
  | cons x rest =>
    unfold leastBy
    cases leastBy key rest with
    | none => simp
    | some y => by_cases h : key y < key x <;> simp [h]

theorem leastBy_le {α : Type} {key : α → Nat} {list : List α} {x y : α}
    (h : leastBy key list = some x) (hy : y ∈ list) : key x ≤ key y := by
  induction list generalizing x with
  | nil => cases hy
  | cons z rest ih =>
    unfold leastBy at h
    cases hrest : leastBy key rest with
    | none =>
      rw [hrest] at h
      rw [leastBy_eq_none_iff.mp hrest] at hy
      exact Nat.le_of_eq (by rw [← Option.some.inj h, List.mem_singleton.mp hy])
    | some w =>
      rw [hrest] at h
      rcases List.mem_cons.mp hy with rfl | hy
      · by_cases hlt : key w < key y
        · simp only [hlt, if_true, Option.some.injEq] at h
          rw [← h]
          omega
        · simp only [hlt, if_false, Option.some.injEq] at h
          exact Nat.le_of_eq (by rw [← h])
      · have hle := ih hrest hy
        by_cases hlt : key w < key z
        · simp only [hlt, if_true, Option.some.injEq] at h
          rw [← h]
          exact hle
        · simp only [hlt, if_false, Option.some.injEq] at h
          rw [← h]
          omega

namespace Placement

def placed (placement : Placement) (node : Nat) : Bool :=
  placement.slots.any (·.node = node)

/-- The order of the placed nodes. -/
def order (placement : Placement) : List Nat :=
  placement.slots.map (·.node)

def position (placement : Placement) (node : Nat) : Nat :=
  placement.order.idxOf node

def slot? (placement : Placement) (node : Nat) : Option Slot :=
  placement.slots.find? (·.node = node)

/-- The plain predecessors that are not placed yet. -/
def outstanding (placement : Placement) (graph : Graph) (node : Nat) : List Nat :=
  (graph.predecessors .plain node).filter (!placement.placed ·)

def isReady (placement : Placement) (graph : Graph) (node : Nat) : Bool :=
  let candidates := graph.predecessors .oneOf node
  (placement.outstanding graph node).isEmpty &&
    (candidates.isEmpty || candidates.any placement.placed)

def queued (placement : Placement) (node : Nat) : Bool :=
  node ∈ placement.ready || node ∈ placement.deferred

/-- Queue a node if it is ready and was neither queued nor placed. -/
def enqueue (graph : Graph) (placement : Placement) (node : Nat) : Placement :=
  if placement.placed node || placement.queued node || !placement.isReady graph node then placement
  else if (graph.node node).crossing then
    { placement with deferred := placement.deferred ++ [node] }
  else { placement with ready := placement.ready ++ [node] }

/-! ## The next node -/

/-- The nodes on a plain cycle through `node`, itself included, given for each
node what can be reached from it along plain edges. -/
def cycleOf (reached : List (List Nat)) (node : Nat) : List Nat :=
  (reached.getD node []).filter fun other => node ∈ reached.getD other []

/-- Choose the node to place next, and take it out of its queue. Where a loop
has to be broken, note its members that are left. -/
def next (graph : Graph) (reached : List (List Nat)) (placement : Placement) :
    Option (Nat × Placement) :=
  match placement.ready, placement.deferred with
  | node :: ready, _ => some (node, { placement with ready })
  | [], node :: deferred => some (node, { placement with deferred })
  | [], [] =>
    let left := (List.range graph.size).filter (!placement.placed ·)
    match left.find? fun node => (placement.outstanding graph node).isEmpty with
    | some node => some (node, placement)
    | none =>
      let cyclic := left.filter fun node => 1 < (cycleOf reached node).length
      let candidates := if cyclic.isEmpty then left else cyclic
      (leastBy (fun node => (placement.outstanding graph node).length) candidates).map fun node =>
        let members := (cycleOf reached node).filter (!placement.placed ·)
        (node, { placement with loops := placement.loops ++ [members] })

/-! ## Blocks -/

/-- The dynamic nodes that a node waits for: those its placed plain predecessors
wait for, and itself if it is dynamic. -/
def waitsOf (graph : Graph) (placement : Placement) (node : Nat) : List Nat :=
  let before := (graph.predecessors .plain node).filterMap placement.slot?
  let own := graph.isDynamic node
  (List.range graph.size).filter fun dynamic =>
    (own && dynamic = node) || before.any fun slot => dynamic ∈ slot.waits

/-- Put a node behind the ones placed so far, and queue the nodes that become
ready. -/
def put (graph : Graph) (placement : Placement) (node : Nat) : Placement :=
  let waits := waitsOf graph placement node
  let block :=
    match placement.slots.getLast? with
    | none => 0
    | some last =>
      let fresh := graph.isDynamic node || (graph.node node).crossing || last.waits ≠ waits
      if fresh then last.block + 1 else last.block
  let placement := { placement with slots := placement.slots ++ [⟨node, block, waits⟩] }
  ((graph.edges node).map (·.target)).foldl (enqueue graph) placement

/-- Place `count` more nodes. -/
def advance (graph : Graph) (reached : List (List Nat)) : (count : Nat) → Placement → Placement
  | 0, placement => placement
  | count + 1, placement =>
    match placement.next graph reached with
    | some (node, placement) => advance graph reached count (placement.put graph node)
    | none => placement

end Placement

/-- Place all nodes of a graph. -/
def Graph.place (graph : Graph) : Placement :=
  let reached := (List.range graph.size).map (reach graph.plainTargets graph.size)
  let start := (List.range graph.size).foldl (Placement.enqueue graph) {}
  start.advance graph reached graph.size

end Breadboard
