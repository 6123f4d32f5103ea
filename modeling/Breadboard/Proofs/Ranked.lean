import Breadboard.Proofs.Loops
import Breadboard.Proofs.Static

/-!
# Ranks

Give each task of a netlist a number such that it grows wherever a task feeds
another one. Then nothing waits for itself: no loop has to be broken when the
tasks are placed (`loops_place_eq_nil`), no write has to be put off, and the
circuit is static if its wiring is (`static_of_rank`). Where every part settles in a
single phase, parts and nets can be given levels instead (`static_of_levels`).
-/

namespace Breadboard

namespace Placement

variable {graph : Graph} {placement after : Placement} {node : Nat} {reached : List (List Nat)}

/-- A loop is noted only for a node that still waits for another one. -/
theorem loops_next (hnext : placement.next graph reached = some (node, after))
    (hwait : placement.outstanding graph node = []) : after.loops = placement.loops := by
  unfold Placement.next at hnext
  split at hnext
  · rw [← (Prod.mk.inj (Option.some.inj hnext)).2]
  · rw [← (Prod.mk.inj (Option.some.inj hnext)).2]
  · dsimp only at hnext
    split at hnext
    · rw [← (Prod.mk.inj (Option.some.inj hnext)).2]
    · next hnone =>
      obtain ⟨chosen, hchosen, heq⟩ := Option.map_eq_some_iff.mp hnext
      obtain ⟨rfl, -⟩ := Prod.mk.inj heq
      have hleft : chosen ∈ (List.range graph.size).filter (!placement.placed ·) := by
        have hmem := leastBy_mem hchosen
        split at hmem
        · exact hmem
        · exact List.mem_of_mem_filter hmem
      have hbusy := List.find?_eq_none.mp hnone chosen hleft
      exact absurd (by rw [hwait]; rfl) hbusy

theorem loops_advance (hclosed : graph.Closed) (hself : ∀ node, node ∉ graph.plainTargets node)
    (hloop : ∀ node, ¬ graph.OnLoop node) (count : Nat) : ∀ {placement : Placement},
    Sound graph placement →
      (placement.advance graph graph.reached count).loops = placement.loops := by
  induction count with
  | zero => exact fun _ => rfl
  | succ count ih =>
    intro placement h
    rw [Placement.advance]
    split
    · next node after hnext =>
      obtain ⟨hchosen, hafter⟩ := h.next hnext
      have hwait : placement.outstanding graph node = [] := by
        by_contra hwait
        exact hloop node (released_of_next hclosed hself h hnext hwait).1.onLoop
      rw [ih (hchosen.put hclosed hafter).1, loops_put hafter, loops_next hnext hwait]
    · rfl

end Placement

namespace Graph

variable {graph : Graph}

/-- A graph without plain cycles is placed without breaking a loop. -/
theorem loops_place_eq_nil (hclosed : graph.Closed)
    (hself : ∀ node, node ∉ graph.plainTargets node) (hloop : ∀ node, ¬ graph.OnLoop node) :
    graph.place.loops = [] := by
  obtain ⟨hstart, -⟩ := (Placement.sound_empty graph).foldl_enqueue
    fun node (hnode : node ∈ List.range graph.size) => List.mem_range.mp hnode
  refine (Placement.loops_advance hclosed hself hloop graph.size hstart).trans ?_
  exact Placement.loops_foldl_enqueue _ _

end Graph

namespace Netlist

variable {netlist : Netlist} {rank : Task → Nat}

/-- A rank grows along every chain of edges. -/
theorem rank_le_of_reaches (hrank : ∀ first second, netlist.Feeds first second →
    rank first < rank second) {u v : Nat} {first second : Task}
    (h : Reaches (Graph.ofNetlist netlist).plainTargets u v)
    (hfirst : netlist.tasks[u]? = some first) (hsecond : netlist.tasks[v]? = some second) :
    rank first ≤ rank second ∧ (u ≠ v → rank first < rank second) := by
  induction h generalizing first with
  | refl u =>
    rw [Option.some.inj (hfirst.symm.trans hsecond)]
    exact ⟨Nat.le_refl _, fun hne => absurd rfl hne⟩
  | head hedge _ ih =>
    obtain ⟨next, hnext, hfeeds⟩ := Graph.feeds_of_follows hfirst
      (mem_follows_of_edge (Graph.mem_plainTargets.mp hedge))
    have hlt := hrank _ _ hfeeds
    have hle := (ih hnext hsecond).1
    exact ⟨by omega, fun _ => by omega⟩

/-- No node of a ranked netlist is on a loop. -/
theorem not_onLoop_of_rank (hrank : ∀ first second, netlist.Feeds first second →
    rank first < rank second) (node : Nat) : ¬ (Graph.ofNetlist netlist).OnLoop node := by
  rintro ⟨other, hne, hout, hback⟩
  have htask : ∀ {u v : Nat}, u ≠ v → Reaches (Graph.ofNetlist netlist).plainTargets u v →
      ∃ task, netlist.tasks[u]? = some task := by
    intro u v hne h
    cases h with
    | refl => exact absurd rfl hne
    | head hedge _ =>
      exact ⟨_, List.getElem?_eq_getElem (Graph.lt_of_mem_edges (Graph.mem_plainTargets.mp hedge))⟩
  obtain ⟨first, hfirst⟩ := htask hne.symm hout
  obtain ⟨second, hsecond⟩ := htask hne hback
  have hout := (rank_le_of_reaches hrank hout hfirst hsecond).2 hne.symm
  have hback := (rank_le_of_reaches hrank hback hsecond hfirst).2 hne
  omega

/-- A netlist whose tasks can be ranked is static if its wiring is. -/
theorem static_of_rank (hrank : ∀ first second, netlist.Feeds first second →
      rank first < rank second)
    (hanyOf : ∀ {part position port : Nat} {phase : Phase} {found : Port},
      netlist.Ordinary part position phase → port ∈ phase.anyOf →
      netlist.port? ⟨part, port⟩ = some found → found.bound = false)
    (huncrossed : ∀ {part position port index : Nat} {mode : ReadMode},
      netlist.Reads part position port index mode → netlist.drivesFrom part position index = false)
    (hsingle : netlist.Single) : netlist.Static where
  anyOf := hanyOf
  deferred {part position port index} hwrites hdeferred := by
    have hle : ∀ {first second : Task}, Relation.ReflTransGen netlist.Feeds first second →
        rank first ≤ rank second := fun h => by
      induction h with
      | refl => exact Nat.le_refl _
      | tail _ hfeeds ih => exact ih.trans (hrank _ _ hfeeds).le
    have hout := hle hdeferred.2
    have hback := hrank _ _ (.write hwrites)
    omega
  uncrossed := huncrossed
  loops := by
    have hloops := Graph.loops_place_eq_nil (Graph.closed_ofNetlist netlist)
      (Graph.not_mem_plainTargets_self netlist) (not_onLoop_of_rank hrank)
    exact List.map_eq_nil_iff.mpr hloops
  single := hsingle

/-- If no part has more than one ordinary phase, it is enough that levels of the parts and
of the nets grow along every write and every read. -/
theorem static_of_levels (level height : Nat → Nat)
    (hone : ∀ {part position : Nat} {phase : Phase}, netlist.Ordinary part position phase →
      position = 0 ∧ phase.anyOf = [])
    (hwrites : ∀ {part position port index : Nat}, netlist.Writes part position port index →
      level part < height index)
    (hreads : ∀ {part position port index : Nat} {mode : ReadMode},
      netlist.Reads part position port index mode → height index < level part)
    (hsingle : netlist.Single) : netlist.Static := by
  let rank : Task → Nat := Task.rec (fun part _ => level part) height
  refine @static_of_rank _ rank (fun first second hfeeds => ?_) ?_ ?_ hsingle
  · cases hfeeds with
    | next hfirst hsecond hlt =>
      rw [(hone hfirst).1, (hone hsecond).1] at hlt
      exact absurd hlt (Nat.lt_irrefl 0)
    | write hwrite => exact hwrites hwrite
    | read hread => exact hreads hread
  · intro part position port phase found hphase hmem
    rw [(hone hphase).2] at hmem
    cases hmem
  · intro part position port index mode hread
    -- whatever drives the net comes before it, and so does every phase of that part
    rw [← Bool.not_eq_true]
    intro hdrives
    simp only [Netlist.drivesFrom, List.any_eq_true, List.mem_filter, Bool.not_eq_true',
      decide_eq_true_eq] at hdrives
    obtain ⟨phase, ⟨hmem, hlatch⟩, port', hport', hdriven⟩ := hdrives
    obtain ⟨position', hphase⟩ := List.getElem?_of_mem (List.mem_of_mem_drop hmem)
    obtain ⟨first, hfirst, -⟩ := id hread
    obtain ⟨placed, hpart, -⟩ := part_of_phase hfirst
    rw [List.getD_eq_getElem?_getD, hpart, Option.getD_some] at hphase
    have hout := hwrites ⟨phase, phase_of_part hpart hphase hlatch, hport', hdriven⟩
    have hback := hreads hread
    omega

end Netlist

end Breadboard
