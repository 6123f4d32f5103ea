import Breadboard.Proofs.Wired
import Breadboard.Schedule.Basic

/-!
# Static circuits

In a static circuit every task waits for all that it depends on. `Netlist.Static`
says so about the netlist, and `Netlist.StaticTables` says the same about the
tables that the dependency graph is built from, so that it can be decided.
-/

namespace Breadboard

namespace Netlist

variable {netlist : Netlist} {part position : Nat} {phase : Phase}

/-- No phase reads a net that its part drives from there on, any-of ports aside. -/
def Uncrossed (netlist : Netlist) : Prop :=
  ∀ part position port index, ¬ netlist.Reads part position port index .crossing

structure Static (netlist : Netlist) : Prop where
  /-- No any-of port is bound. -/
  anyOf : ∀ {part position port : Nat} {phase : Phase} {found : Port},
    netlist.Ordinary part position phase → port ∈ phase.anyOf →
    netlist.port? ⟨part, port⟩ = some found → found.bound = false
  /-- No tri-state net reaches one of its own drivers. -/
  deferred : ∀ {part position port index : Nat}, netlist.Writes part position port index →
    ¬ netlist.Deferred part position index
  /-- No phase reads a net that its part drives in that phase or a later one. -/
  uncrossed : ∀ {part position port index : Nat} {mode : ReadMode},
    netlist.Reads part position port index mode → netlist.drivesFrom part position index = false
  loops : (compile netlist).diagnostics = []
  single : netlist.Single

namespace Static

theorem crossing (h : netlist.Static) : netlist.Uncrossed := by
  intro part position port index hreads
  obtain ⟨phase, hphase, hport, hnet, hmode⟩ := hreads
  have hdrives := h.uncrossed ⟨phase, hphase, hport, hnet, rfl⟩
  rw [hdrives] at hmode
  split at hmode <;> cases hmode

end Static

/-! ## Tables -/

theorem exists_phaseNode (h : netlist.Ordinary part position phase) :
    ∃ node, netlist.tasks[node]? = some (.phase part position) ∧
      (node, part, position, phase) ∈ netlist.phaseNodes := by
  obtain ⟨node, htask⟩ := List.getElem?_of_mem (mem_tasks_phase h)
  exact ⟨node, htask, mem_phaseNodes.mpr ⟨htask, h.1⟩⟩

instance (netlist : Netlist) : Decidable netlist.Uncrossed :=
  decidable_of_iff (∀ entry ∈ netlist.reads, entry.2 ≠ .crossing) <| by
    constructor
    · intro h part position port index hreads
      obtain ⟨phase, hphase, -⟩ := id hreads
      obtain ⟨node, htask, -⟩ := exists_phaseNode hphase
      exact h (⟨node, port, index⟩, .crossing) (mem_reads.mpr ⟨part, position, htask, hreads⟩) rfl
    · rintro h ⟨read, _⟩ hread rfl
      obtain ⟨part, position, -, hreads⟩ := mem_reads.mp hread
      exact h _ _ _ _ hreads

/-- What `Static` says, in terms of the tables that the graph is built from. -/
structure StaticTables (netlist : Netlist) : Prop where
  anyOf : ∀ entry ∈ netlist.phaseNodes, ∀ port ∈ entry.2.2.2.anyOf,
    ∀ found ∈ netlist.port? ⟨entry.2.1, port⟩, found.bound = false
  deferred : ∀ write ∈ netlist.writes,
    isDeferred netlist netlist.follows netlist.tasks.length netlist.phaseTasks.length write = false
  uncrossed : ∀ read ∈ netlist.reads, ∀ entry ∈ netlist.phaseNodes, entry.1 = read.1.node →
    netlist.drivesFrom entry.2.1 entry.2.2.1 read.1.net = false
  loops : (compile netlist).diagnostics = []
  single : ∀ first ∈ netlist.nets.zipIdx, ∀ second ∈ netlist.nets.zipIdx,
    ∀ ref ∈ first.1.sources ++ first.1.targets, ref ∈ second.1.sources ++ second.1.targets →
      first.2 = second.2

theorem staticTables_iff : netlist.StaticTables ↔ netlist.Static := by
  constructor
  · intro h
    refine ⟨fun {part position port phase found} hphase hport hfound => ?_,
      fun {part position port index} hwrites hdeferred => ?_,
      fun {part position port index mode} hreads => ?_, h.loops, ?_⟩
    · obtain ⟨node, -, hnode⟩ := exists_phaseNode hphase
      exact h.anyOf _ hnode port hport found hfound
    · obtain ⟨phase, hphase, -⟩ := id hwrites
      obtain ⟨node, htask, -⟩ := exists_phaseNode hphase
      have hwrite : ⟨node, port, index⟩ ∈ netlist.writes :=
        mem_writes.mpr ⟨part, position, htask, hwrites⟩
      have hfalse := h.deferred _ hwrite
      rw [(isDeferred_iff hwrite htask).mpr hdeferred] at hfalse
      cases hfalse
    · obtain ⟨phase, hphase, -⟩ := id hreads
      obtain ⟨node, htask, hnode⟩ := exists_phaseNode hphase
      exact h.uncrossed (⟨node, port, index⟩, mode)
        (mem_reads.mpr ⟨part, position, htask, hreads⟩) _ hnode rfl
    · rintro first second ref ⟨net, hnet, href⟩ ⟨other, hother, href'⟩
      exact h.single (net, first) (List.mk_mem_zipIdx_iff_getElem?.mpr hnet) (other, second)
        (List.mk_mem_zipIdx_iff_getElem?.mpr hother) ref (List.mem_append.mpr href)
        (List.mem_append.mpr href')
  · intro h
    refine ⟨?_, fun write hwrite => ?_, ?_, h.loops, ?_⟩
    · rintro ⟨node, part, position, phase⟩ hnode port hport found hfound
      obtain ⟨htask, hphase⟩ := mem_phaseNodes.mp hnode
      exact h.anyOf (ordinary_of_node htask hphase) hport hfound
    · obtain ⟨part, position, htask, hwrites⟩ := mem_writes.mp hwrite
      rw [← Bool.not_eq_true, isDeferred_iff hwrite htask]
      exact h.deferred hwrites
    · rintro ⟨read, mode⟩ hread ⟨node, part, position, phase⟩ hnode rfl
      obtain ⟨htask, -⟩ := mem_phaseNodes.mp hnode
      obtain ⟨_, _, htask', hreads⟩ := mem_reads.mp hread
      obtain ⟨rfl, rfl⟩ := Task.phase.inj (Option.some.inj (htask.symm.trans htask'))
      exact h.uncrossed hreads
    · rintro ⟨net, first⟩ hnet ⟨other, second⟩ hother ref href href'
      exact h.single first second ref
        ⟨net, List.mk_mem_zipIdx_iff_getElem?.mp hnet, List.mem_append.mp href⟩
        ⟨other, List.mk_mem_zipIdx_iff_getElem?.mp hother, List.mem_append.mp href'⟩

instance (netlist : Netlist) : Decidable netlist.StaticTables :=
  decidable_of_iff (_ ∧ _ ∧ _ ∧ _ ∧ _)
    ⟨fun ⟨hanyOf, hdeferred, huncrossed, hloops, hsingle⟩ =>
      ⟨hanyOf, hdeferred, huncrossed, hloops, hsingle⟩,
      fun h => ⟨h.anyOf, h.deferred, h.uncrossed, h.loops, h.single⟩⟩

instance (netlist : Netlist) : Decidable netlist.Static :=
  decidable_of_iff _ staticTables_iff

end Netlist

end Breadboard
