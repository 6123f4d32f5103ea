import Breadboard.Proofs.Cycles
import Mathlib.Data.List.Sort

/-!
# A graph without some of its nodes

Some nodes are taken out of a graph, none of which has an edge to a node that stays
(`Graph.Thins`). What stays then waits for the same as before, and where every edge is
plain the nodes that stay are placed in the order in which the whole graph has them
(`Graph.Thins.order_place`). A queue that is thinned out along with the graph
stays a queue: a step of the whole placement is a step of the thinned one, or none.
-/

namespace Breadboard

/-! ## Lists -/

section Lists

variable {α β γ δ : Type} {pull : α → Option β} {pull' : γ → Option δ} {list : List α}

/-- Taking out what occurs before and thinning out can be exchanged. -/
theorem filterMap_eraseDups [DecidableEq α] [DecidableEq β]
    (hinj : ∀ {a b c}, pull a = some c → pull b = some c → a = b) :
    ∀ list : List α, list.eraseDups.filterMap pull = (list.filterMap pull).eraseDups := by
  intro list
  induction hlength : list.length using Nat.strongRecOn generalizing list with
  | ind length ih =>
    cases list with
    | nil => rfl
    | cons a rest =>
      have hlt := List.length_filter_le (fun b => !b == a) rest
      rw [List.length_cons] at hlength
      have hrest := ih _ (by omega) (rest.filter fun b => !b == a) rfl
      rw [List.eraseDups_cons, List.filterMap_cons, List.filterMap_cons, hrest,
        List.filterMap_filter]
      cases ha : pull a with
      | none =>
        refine congrArg List.eraseDups (List.filterMap_congr fun b _ => ?_)
        by_cases hb : b = a
        · simp [hb, ha]
        · simp [hb]
      | some c =>
        rw [List.eraseDups_cons, List.filter_filterMap]
        refine congrArg (c :: List.eraseDups ·) (List.filterMap_congr fun b _ => ?_)
        by_cases hb : b = a
        · simp [hb, ha, Option.filter]
        · cases hpull : pull b with
          | none => simp [hb, Option.filter]
          | some d =>
            have hne : d ≠ c := fun heq => hb (hinj (heq ▸ hpull) ha)
            simp [hb, hne, Option.filter]

theorem mem_filterMap_of_inj (hinj : ∀ {a b c}, pull a = some c → pull b = some c → a = b)
    {a : α} {c : β} (ha : pull a = some c) : c ∈ list.filterMap pull ↔ a ∈ list := by
  rw [List.mem_filterMap]
  exact ⟨fun ⟨b, hb, heq⟩ => hinj heq ha ▸ hb, fun hmem => ⟨a, hmem, ha⟩⟩

theorem filterMap_filterMap_of {f : α → Option γ} {g : β → Option δ}
    (h : ∀ a ∈ list, (f a).bind pull' = (pull a).bind g) :
    (list.filterMap f).filterMap pull' = (list.filterMap pull).filterMap g := by
  rw [List.filterMap_filterMap, List.filterMap_filterMap]
  exact List.filterMap_congr h

theorem filterMap_flatMap_of {f : α → List γ} {g : β → List δ}
    (h : ∀ a ∈ list, (f a).filterMap pull' = ((pull a).map g).getD []) :
    (list.flatMap f).filterMap pull' = (list.filterMap pull).flatMap g := by
  induction list with
  | nil => rfl
  | cons a list ih =>
    have hrest := ih fun b hb => h b (List.mem_cons_of_mem _ hb)
    rw [List.flatMap_cons, List.filterMap_append, h a (List.mem_cons_self ..), hrest]
    cases hpull : pull a with
    | none => rw [List.filterMap_cons_none hpull]; rfl
    | some b => rw [List.filterMap_cons_some hpull, List.flatMap_cons]; rfl

/-- Which of the first `size` numbers has a given image. -/
def back (image : Nat → Nat) (size place : Nat) : Option Nat :=
  (List.range size).find? fun index => image index = place

variable {image : Nat → Nat} {size bound place index : Nat}

theorem back_eq_some (hinj : ∀ p < size, ∀ q < size, image p = image q → p = q) :
    back image size place = some index ↔ index < size ∧ image index = place := by
  constructor
  · intro hback
    exact ⟨List.mem_range.mp (List.mem_of_find?_eq_some hback),
      of_decide_eq_true (List.find?_some hback :)⟩
  · rintro ⟨hlt, himage⟩
    cases hback : back image size place with
    | none =>
      have hnone := List.find?_eq_none.mp hback index (List.mem_range.mpr hlt)
      simp [himage] at hnone
    | some found =>
      have hfound : found < size := List.mem_range.mp (List.mem_of_find?_eq_some hback)
      have hsame : image found = place := of_decide_eq_true (List.find?_some hback :)
      rw [hinj found hfound index hlt (hsame.trans himage.symm)]

/-- Ascending images come back in order. -/
theorem filterMap_back (hmono : ∀ {p q : Nat}, p < q → q < size → image p < image q)
    (hbound : ∀ p < size, image p < bound) :
    (List.range bound).filterMap (back image size) = List.range size := by
  have hinj : ∀ p < size, ∀ q < size, image p = image q → p = q := by
    intro p hp q hq heq
    rcases Nat.lt_trichotomy p q with hlt | rfl | hlt
    · have := hmono hlt hq
      omega
    · rfl
    · have := hmono hlt hp
      omega
  refine List.Pairwise.eq_of_mem_iff (r := (· < ·)) ?_ List.pairwise_lt_range fun index => ?_
  · refine List.pairwise_filterMap.mpr
      (List.pairwise_lt_range.imp fun {a b} hlt p hback q hback' => ?_)
    obtain ⟨hp, rfl⟩ := (back_eq_some hinj).mp hback
    obtain ⟨hq, rfl⟩ := (back_eq_some hinj).mp hback'
    rcases Nat.lt_trichotomy p q with hless | rfl | hless
    · exact hless
    · omega
    · have := hmono hless hp
      omega
  · simp only [List.mem_filterMap, List.mem_range, back_eq_some hinj]
    exact ⟨fun ⟨_, _, hlt, _⟩ => hlt, fun hlt => ⟨image index, hbound index hlt, hlt, rfl⟩⟩

/-- What is pulled into a range comes in order. -/
theorem lt_of_filterMap_range {pull : Nat → Option Nat} {first second before after : Nat}
    (h : (List.range size).filterMap pull = List.range bound)
    (hfirst : pull first = some before) (hsecond : pull second = some after)
    (hlt : first < second) (hsize : second < size) : before < after := by
  have hpairwise : ((List.range size).filterMap pull).Pairwise (· < ·) :=
    h ▸ List.pairwise_lt_range
  have hpair := List.pairwise_iff_getElem.mp (List.pairwise_filterMap.mp hpairwise) first second
    (by rw [List.length_range]; omega) (by rwa [List.length_range]) hlt
  simp only [List.getElem_range] at hpair
  exact hpair before hfirst after hsecond

theorem filterMap_range_getElem? (list : List α) (f : α → Option β) :
    (List.range list.length).filterMap (fun index => list[index]?.bind f) = list.filterMap f := by
  induction list with
  | nil => rfl
  | cons a list ih =>
    rw [List.length_cons, List.range_succ_eq_map, List.filterMap_cons, List.filterMap_cons,
      List.filterMap_map, ← ih]
    rfl

theorem zipIdx_eq_map_range [Inhabited α] (list : List α) :
    list.zipIdx = (List.range list.length).map fun index => (list.getD index default, index) := by
  refine List.ext_getElem (by simp) fun index hindex hindex' => ?_
  rw [List.length_zipIdx] at hindex
  simp only [List.getElem_zipIdx, List.getElem_map, List.getElem_range, Nat.zero_add,
    List.getD_eq_getElem?_getD, List.getElem?_eq_getElem hindex, Option.getD_some]

end Lists

/-! ## Graphs -/

/-- The edge as it stands when the nodes are numbered anew; none if it leads to a node
that is taken out. -/
def Edge.pull? (pull : Nat → Option Nat) (edge : Edge) : Option Edge :=
  (pull edge.target).map fun target => { edge with target }

namespace Graph

/-- `thin` is `graph` without some nodes. `pull` gives the nodes that stay their new
numbers, in the same order. -/
structure Thins (pull : Nat → Option Nat) (thin graph : Graph) : Prop where
  inj : ∀ {first second kept : Nat}, pull first = some kept → pull second = some kept →
    first = second
  bound : ∀ {node kept : Nat}, pull node = some kept → node < graph.size
  nodes : (List.range graph.size).filterMap pull = List.range thin.size
  edges : ∀ {node kept : Nat}, pull node = some kept →
    (graph.edges node).filterMap (Edge.pull? pull) = thin.edges kept
  apart : ∀ {node : Nat}, pull node = none → ∀ edge ∈ graph.edges node, pull edge.target = none

/-- Every node waits for all that leads to it, and for nothing else. -/
structure Straight (graph : Graph) : Prop where
  plain : ∀ node, ∀ edge ∈ graph.edges node, edge.kind = .plain
  uncrossed : ∀ node, (graph.node node).crossing = false

variable {pull : Nat → Option Nat} {thin graph : Graph} {node kept : Nat}

theorem Straight.predecessors_oneOf (h : graph.Straight) (node : Nat) :
    graph.predecessors .oneOf node = [] := by
  refine List.eq_nil_iff_forall_not_mem.mpr fun source hsource => ?_
  exact EdgeKind.noConfusion (h.plain source _ (mem_predecessors.mp hsource).2)

theorem Straight.isDynamic (h : graph.Straight) (node : Nat) : graph.isDynamic node = false := by
  rw [Graph.isDynamic, Graph.dynamicDegree, decide_eq_false_iff_not, Nat.pos_iff_ne_zero, not_not,
    List.countP_eq_zero]
  intro edge hedge hboth
  obtain ⟨found, hfound, hedge⟩ := List.mem_flatMap.mp hedge
  obtain ⟨source, hsource⟩ := List.getElem?_of_mem hfound
  have hnode : graph.node source = found := by
    rw [Graph.node, List.getD_eq_getElem?_getD, hsource, Option.getD_some]
  have hplain := h.plain source edge (by rw [Graph.edges, hnode]; exact hedge)
  simp [hplain] at hboth

namespace Thins

variable (h : Thins pull thin graph)

include h

theorem lt (hpull : pull node = some kept) : kept < thin.size := by
  have hmem : kept ∈ (List.range graph.size).filterMap pull :=
    List.mem_filterMap.mpr ⟨node, List.mem_range.mpr (h.bound hpull), hpull⟩
  rw [h.nodes] at hmem
  exact List.mem_range.mp hmem

theorem exists_pull (hkept : kept < thin.size) : ∃ node, pull node = some kept := by
  have hmem := List.mem_range.mpr hkept
  rw [← h.nodes] at hmem
  obtain ⟨node, -, hpull⟩ := List.mem_filterMap.mp hmem
  exact ⟨node, hpull⟩

/-- What stays waits for what it waited for. -/
theorem mem_predecessors (hpull : pull node = some kept) (source : Nat) :
    source ∈ graph.predecessors .plain node ↔
      ∃ before, pull source = some before ∧ before ∈ thin.predecessors .plain kept := by
  simp only [Graph.mem_predecessors]
  constructor
  · rintro ⟨-, hedge⟩
    cases hsource : pull source with
    | none => exact absurd (h.apart hsource _ hedge) (by simp [hpull])
    | some before =>
      refine ⟨before, rfl, h.lt hsource, ?_⟩
      rw [← h.edges hsource, List.mem_filterMap]
      exact ⟨_, hedge, by simp [Edge.pull?, hpull]⟩
  · rintro ⟨before, hsource, -, hedge⟩
    refine ⟨h.bound hsource, ?_⟩
    rw [← h.edges hsource, List.mem_filterMap] at hedge
    obtain ⟨⟨target, kind⟩, hedge, heq⟩ := hedge
    obtain ⟨found, hfound, heq⟩ := Option.map_eq_some_iff.mp heq
    obtain ⟨rfl, rfl⟩ := Edge.mk.inj heq
    exact h.inj hfound hpull ▸ hedge

end Thins

end Graph

/-! ## Placements -/

namespace Placement

/-- The placement of the thinned graph is that of the whole one without the nodes that
are taken out. -/
structure Thins (pull : Nat → Option Nat) (thin full : Placement) : Prop where
  order : full.order.filterMap pull = thin.order
  ready : full.ready.filterMap pull = thin.ready
  deferred : full.deferred = []
  deferred' : thin.deferred = []
  loops : thin.loops = []

variable {pull : Nat → Option Nat} {rest whole : Graph} {thin full after : Placement}
  {node kept : Nat} {reached : List (List Nat)}

/-- A loop that was broken stays noted. -/
theorem loops_advance_eq_nil (hclosed : whole.Closed) (count : Nat) : ∀ {placement : Placement},
    Sound whole placement → (placement.advance whole reached count).loops = [] →
      placement.loops = [] := by
  induction count with
  | zero => exact fun _ hloops => hloops
  | succ count ih =>
    intro placement h hloops
    rw [Placement.advance] at hloops
    split at hloops
    · next node after hnext =>
      obtain ⟨hchosen, hafter⟩ := h.next hnext
      have hlater := ih (hchosen.put hclosed hafter).1 hloops
      obtain ⟨found, hfound⟩ := hchosen.loops
      rw [loops_put hafter, hfound] at hlater
      exact (List.append_eq_nil_iff.mp hlater).1
    · exact hloops

section

variable (hgraph : Graph.Thins pull rest whole) (h : Thins pull thin full)

include hgraph h

theorem Thins.placed_eq (hpull : pull node = some kept) : full.placed node = thin.placed kept := by
  rw [Bool.eq_iff_iff, placed_iff, placed_iff, ← h.order, mem_filterMap_of_inj hgraph.inj hpull]

theorem Thins.outstanding_iff (hpull : pull node = some kept) :
    full.outstanding whole node = [] ↔ thin.outstanding rest kept = [] := by
  rw [outstanding_eq_nil_iff, outstanding_eq_nil_iff]
  constructor
  · intro hall before hbefore
    obtain ⟨source, hsource⟩ := hgraph.exists_pull (Graph.mem_predecessors.mp hbefore).1
    have hplaced := hall source ((hgraph.mem_predecessors hpull source).mpr ⟨_, hsource, hbefore⟩)
    rwa [← placed_iff, h.placed_eq hgraph hsource, placed_iff] at hplaced
  · intro hall source hsource
    obtain ⟨before, hpull', hbefore⟩ := (hgraph.mem_predecessors hpull source).mp hsource
    rw [← placed_iff, h.placed_eq hgraph hpull', placed_iff]
    exact hall before hbefore

theorem Thins.queued_eq (hpull : pull node = some kept) : full.queued node = thin.queued kept := by
  rw [Bool.eq_iff_iff, queued_iff, queued_iff, queue, queue, h.deferred, h.deferred',
    List.append_nil, List.append_nil, ← h.ready, mem_filterMap_of_inj hgraph.inj hpull]

/-- The next node of the whole placement is that of the thinned one, or is taken out. -/
theorem Thins.next (hnext : full.next whole reached = some (node, after))
    (hloops : after.loops = [])
    (reached' : List (List Nat)) : ∃ after', Thins pull after' after ∧
      (pull node = none → after' = thin) ∧
        ∀ kept, pull node = some kept → thin.next rest reached' = some (kept, after') := by
  have hready := h.ready
  unfold Placement.next at hnext
  split at hnext
  · next first ready hfirst =>
    obtain ⟨rfl, rfl⟩ := Prod.mk.inj (Option.some.inj hnext)
    rw [hfirst] at hready
    cases hpull : pull first with
    | none =>
      refine ⟨thin, ⟨h.order, ?_, h.deferred, h.deferred', h.loops⟩, fun _ => rfl, nofun⟩
      simpa [hpull] using hready
    | some kept =>
      rw [List.filterMap_cons_some hpull] at hready
      refine ⟨{ thin with ready := ready.filterMap pull },
        ⟨h.order, rfl, h.deferred, h.deferred', h.loops⟩, nofun, ?_⟩
      rintro _ ⟨⟩
      simp only [Placement.next, ← hready]
  · next hdeferred =>
    rw [h.deferred] at hdeferred
    cases hdeferred
  · next hnone _ =>
    rw [hnone] at hready
    dsimp only at hnext
    split at hnext
    · next waiting hwaiting =>
      obtain ⟨rfl, rfl⟩ := Prod.mk.inj (Option.some.inj hnext)
      cases hpull : pull waiting with
      | none => exact ⟨thin, h, fun _ => rfl, nofun⟩
      | some kept =>
        refine ⟨thin, h, nofun, ?_⟩
        rintro _ ⟨⟩
        have hleft : (List.range rest.size).filter (!thin.placed ·) =
            ((List.range whole.size).filter (!full.placed ·)).filterMap pull := by
          rw [← hgraph.nodes, List.filter_filterMap, List.filterMap_filter]
          refine List.filterMap_congr fun node _ => ?_
          cases hpull : pull node with
          | none => simp
          | some kept => simp [Option.filter, h.placed_eq hgraph hpull]
        -- the nodes in front of it wait, and so do those of them that stay
        obtain ⟨hfree, front, back, hsplit, hbusy⟩ := List.find?_eq_some_iff_append.mp hwaiting
        have hfound : ((List.range rest.size).filter (!thin.placed ·)).find?
            (fun node => (thin.outstanding rest node).isEmpty) = some kept := by
          refine List.find?_eq_some_iff_append.mpr ⟨?_, front.filterMap pull, back.filterMap pull,
            ?_, fun before hbefore => ?_⟩
          · rw [List.isEmpty_iff] at hfree ⊢
            exact (h.outstanding_iff hgraph hpull).mp hfree
          · rw [hleft, hsplit, List.filterMap_append, List.filterMap_cons_some hpull]
          · obtain ⟨source, hsource, hpull'⟩ := List.mem_filterMap.mp hbefore
            have hwaits := hbusy source hsource
            simp only [Bool.not_eq_true', List.isEmpty_eq_false_iff] at hwaits ⊢
            exact fun hnil => hwaits ((h.outstanding_iff hgraph hpull').mpr hnil)
        simp only [Placement.next, ← hready, List.filterMap_nil, h.deferred', hfound]
    · obtain ⟨chosen, -, heq⟩ := Option.map_eq_some_iff.mp hnext
      obtain ⟨-, rfl⟩ := Prod.mk.inj heq
      simp at hloops

end

section

variable (hgraph : Graph.Thins pull rest whole) (hstraight : rest.Straight)
  (hstraight' : whole.Straight)

include hgraph hstraight hstraight'

theorem Thins.isReady_eq (h : Thins pull thin full) (hpull : pull node = some kept) :
    full.isReady whole node = thin.isReady rest kept := by
  rw [isReady, isReady, hstraight.predecessors_oneOf, hstraight'.predecessors_oneOf]
  simpa using Bool.eq_iff_iff.mpr (by simpa using h.outstanding_iff hgraph hpull)

/-- A node is queued on both sides, or taken out. -/
theorem Thins.enqueue (h : Thins pull thin full) (node : Nat) :
    Thins pull ((pull node).toList.foldl (Placement.enqueue rest) thin)
      (Placement.enqueue whole full node) := by
  have hreadies : ∀ found, pull node = found → Placement.enqueue whole full node = full ∨
      Placement.enqueue whole full node = { full with ready := full.ready ++ [node] } := by
    intro found _
    unfold Placement.enqueue
    rw [hstraight'.uncrossed]
    split
    · exact .inl rfl
    · exact .inr rfl
  cases hpull : pull node with
  | none =>
    rcases hreadies _ hpull with heq | heq
    · rw [heq]
      exact h
    · rw [heq]
      exact ⟨h.order, by simpa [hpull] using h.ready, h.deferred, h.deferred', h.loops⟩
  | some kept =>
    have hskip : (thin.placed kept || thin.queued kept || !thin.isReady rest kept) =
        (full.placed node || full.queued node || !full.isReady whole node) := by
      rw [h.placed_eq hgraph hpull, h.queued_eq hgraph hpull,
        h.isReady_eq hgraph hstraight hstraight' hpull]
    simp only [Option.toList_some, List.foldl_cons, List.foldl_nil, Placement.enqueue,
      hstraight.uncrossed, hstraight'.uncrossed, hskip]
    split
    · exact h
    · exact ⟨h.order, by simp [hpull, h.ready], h.deferred, h.deferred', h.loops⟩

theorem Thins.foldl_enqueue (nodes : List Nat) : ∀ {thin full : Placement}, Thins pull thin full →
    Thins pull ((nodes.filterMap pull).foldl (Placement.enqueue rest) thin)
      (nodes.foldl (Placement.enqueue whole) full) := by
  induction nodes with
  | nil => exact fun h => h
  | cons node nodes ih =>
    intro thin full h
    have hnext := ih (h.enqueue hgraph hstraight hstraight' node)
    cases hpull : pull node <;> simpa [hpull] using hnext

/-- A node is put on both sides, or taken out. -/
theorem Thins.put (h : Thins pull thin full) (node : Nat) :
    Thins pull ((pull node).toList.foldl (Placement.put rest) thin) (full.put whole node) := by
  have horder := h.order
  rw [Placement.order, Placement.order] at horder
  cases hpull : pull node with
  | none =>
    have htargets : ((whole.edges node).map (·.target)).filterMap pull = [] := by
      rw [List.filterMap_eq_nil_iff]
      intro target htarget
      obtain ⟨edge, hedge, rfl⟩ := List.mem_map.mp htarget
      exact hgraph.apart hpull edge hedge
    have hplaced : ∀ slot : Slot, slot.node = node →
        Thins pull thin { full with slots := full.slots ++ [slot] } := by
      rintro slot rfl
      exact ⟨by simp [Placement.order, hpull, horder], h.ready, h.deferred, h.deferred', h.loops⟩
    have hfold := fun slot hslot => (hplaced slot hslot).foldl_enqueue hgraph hstraight hstraight'
      ((whole.edges node).map (·.target))
    simp only [htargets] at hfold
    exact hfold _ rfl
  | some kept =>
    have htargets : ((whole.edges node).map (·.target)).filterMap pull =
        (rest.edges kept).map (·.target) := by
      rw [← hgraph.edges hpull, List.filterMap_map, List.map_filterMap]
      refine List.filterMap_congr fun edge _ => ?_
      rw [Edge.pull?, Option.map_map]
      cases h : pull edge.target <;> simp [h]
    have hplaced : ∀ slot slot' : Slot, slot.node = node → slot'.node = kept →
        Thins pull { thin with slots := thin.slots ++ [slot'] }
          { full with slots := full.slots ++ [slot] } := by
      rintro slot slot' rfl rfl
      exact ⟨by simp [Placement.order, hpull, horder], h.ready, h.deferred, h.deferred', h.loops⟩
    have hfold := fun slot slot' hslot hslot' => (hplaced slot slot' hslot hslot').foldl_enqueue
      hgraph hstraight hstraight' ((whole.edges node).map (·.target))
    simp only [htargets] at hfold
    exact hfold _ _ rfl rfl

/-- A number of steps of the whole placement are some steps of the thinned one. -/
theorem Thins.advance (hclosed : rest.Closed) (hclosed' : whole.Closed)
    (reached reached' : List (List Nat)) (count : Nat) : ∀ {thin full : Placement},
      Thins pull thin full → Sound rest thin → Sound whole full →
      (full.advance whole reached count).loops = [] →
      ∃ steps, Thins pull (thin.advance rest reached' steps) (full.advance whole reached count) ∧
        (thin.advance rest reached' steps).order.length = thin.order.length + steps := by
  induction count with
  | zero => exact fun h _ _ _ => ⟨0, h, rfl⟩
  | succ count ih =>
    intro thin full h hsound hsound' hloops
    rw [Placement.advance] at hloops ⊢
    split at hloops
    · next node after hnext =>
      obtain ⟨hchosen, hafter⟩ := hsound'.next hnext
      obtain ⟨hput, -⟩ := hchosen.put hclosed' hafter
      have hnone : after.loops = [] := by
        have hlater := loops_advance_eq_nil hclosed' count hput hloops
        rwa [loops_put hafter] at hlater
      obtain ⟨after', hthins, hdropped, hkept⟩ :=
        h.next hgraph hnext hnone reached'
      have hplaced := hthins.put hgraph hstraight hstraight' node
      cases hpull : pull node with
      | none =>
        rw [hpull] at hplaced
        obtain rfl := hdropped hpull
        exact ih hplaced hsound hput hloops
      | some kept =>
        rw [hpull] at hplaced
        have hnext' := hkept kept hpull
        obtain ⟨hchosen', hafter'⟩ := hsound.next hnext'
        obtain ⟨hput', horder'⟩ := hchosen'.put hclosed hafter'
        obtain ⟨steps, hthins, hlength⟩ := ih hplaced hput' hput hloops
        refine ⟨steps + 1, ?_, ?_⟩
        · rw [Placement.advance, hnext']
          exact hthins
        · rw [Placement.advance, hnext']
          rw [Option.toList_some, List.foldl_cons, List.foldl_nil, horder', List.length_append,
            List.length_singleton] at hlength
          rw [hlength]
          omega
    · exact ⟨0, h, rfl⟩

end

end Placement

namespace Graph

variable {pull : Nat → Option Nat} {rest whole : Graph}

/-- The nodes that stay are placed in the order that they have in the whole placement. -/
theorem Thins.place (h : Thins pull rest whole) (hstraight : rest.Straight)
    (hstraight' : whole.Straight) (hclosed : rest.Closed) (hclosed' : whole.Closed)
    (hloops : whole.place.loops = []) :
    rest.place.loops = [] ∧ whole.place.order.filterMap pull = rest.place.order := by
  have hrange : ∀ (graph : Graph), ∀ node ∈ List.range graph.size, node < graph.size :=
    fun _ _ hnode => List.mem_range.mp hnode
  have hempty : Placement.Thins pull {} {} := ⟨rfl, rfl, rfl, rfl, rfl⟩
  have hstart := hempty.foldl_enqueue h hstraight hstraight' (List.range whole.size)
  rw [h.nodes] at hstart
  obtain ⟨hsound, hslots⟩ := (Placement.sound_empty rest).foldl_enqueue (hrange rest)
  obtain ⟨hsound', -⟩ := (Placement.sound_empty whole).foldl_enqueue (hrange whole)
  obtain ⟨steps, hthins, hlength⟩ := Placement.Thins.advance h hstraight hstraight' hclosed hclosed'
    whole.reached rest.reached whole.size hstart hsound hsound' hloops
  have hzero : ((List.range rest.size).foldl (Placement.enqueue rest) {}).order.length = 0 := by
    simp [Placement.order, hslots]
  -- every node that stays is placed, one in each step
  have hplaced : (whole.place.order.filterMap pull).length = rest.size := by
    rw [((order_place_perm hclosed').filterMap pull).length_eq, h.nodes, List.length_range]
  obtain rfl : steps = rest.size := by
    rw [hzero, Nat.zero_add] at hlength
    rw [← hlength, ← hthins.order]
    exact hplaced
  exact ⟨hthins.loops, hthins.order⟩

end Graph

end Breadboard
