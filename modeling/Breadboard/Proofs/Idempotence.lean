import Breadboard.Proofs.Retrace

/-!
# Settling twice

Settling a simulation again changes nothing exactly if its state is stable
(`settle_matches_iff_stable`). States exist that are not: a bridge whose source
side floats now, but did not before, drives its target side with what it still
finds there, and lets go of it in the next settle (`settle_changes_open_bridge`).
-/

namespace Breadboard

namespace Simulation

/-- The last thing that was done with the simulation was to settle it. -/
inductive Rested : Simulation → Prop where
  | start {library : Library} {schematic : Schematic} {simulation : Simulation} :
      library.Native → Simulation.start library schematic = .ok simulation → Rested simulation
  | startFrom {previous simulation : Simulation} {library : Library} {schematic : Schematic} :
      Reachable previous → library.Native →
      previous.startFrom library schematic = .ok simulation → Rested simulation
  | settle {simulation : Simulation} : Reachable simulation → Rested simulation.settle
  | reset {simulation : Simulation} (hard : Bool) :
      Reachable simulation → Rested (simulation.reset hard)
  | rebuild {simulation next : Simulation} {library : Library} {schematic : Schematic} :
      Reachable simulation → library.Native → simulation.rebuild library schematic = .ok next →
      Rested next

variable {simulation : Simulation}

theorem Rested.reachable (h : simulation.Rested) : simulation.Reachable := by
  cases h with
  | start hnative hstart => exact .start hnative hstart
  | startFrom hprevious hnative hstart => exact .startFrom hprevious hnative hstart
  | settle hbefore => exact hbefore.settle
  | reset hard hbefore => exact hbefore.reset hard
  | rebuild hbefore hnative hnext => exact hbefore.rebuild hnative hnext

theorem exists_before_ofState {netlist : Netlist} {state : State} (hflat : netlist.Flat)
    (hstate : State.Sound netlist state ∧ State.Loose netlist state) :
    ∃ before : Simulation, before.Coherent ∧ ofState netlist state = before.settle :=
  ⟨{ netlist, schedule := compile netlist, state }, ⟨hflat, rfl, hstate.1, hstate.2⟩, rfl⟩

/-- A simulation that has been settled was something before. -/
theorem Rested.exists_before (h : simulation.Rested) :
    ∃ before : Simulation, before.Coherent ∧ simulation = before.settle := by
  cases h with
  | start hnative hstart =>
    obtain ⟨-, rfl⟩ := start_eq_ok_iff.mp hstart
    exact exists_before_ofState ⟨_, _, hnative, rfl⟩ (State.sound_fresh _)
  | startFrom hprevious hnative hstart =>
    obtain ⟨-, rfl⟩ := startFrom_eq_ok_iff.mp hstart
    exact exists_before_ofState ⟨_, _, hnative, rfl⟩ (State.sound_carriedOver _ _ _ .running)
  | settle hbefore => exact ⟨_, hbefore.coherent, rfl⟩
  | @reset before hard hbefore =>
    have h := hbefore.coherent
    obtain ⟨hsound, hloose⟩ := State.sound_reset h.sound hard
    exact ⟨⟨before.netlist, before.schedule, _, before.firings, before.trackUsage, before.ticks⟩,
      ⟨by exact h.flat, by exact h.schedule, hsound, hloose⟩, rfl⟩
  | @rebuild before next library schematic hbefore hnative hnext =>
    obtain ⟨-, rfl⟩ := rebuild_eq_ok_iff.mp hnext
    obtain ⟨hsound, hloose⟩ := State.sound_carriedOver before.netlist before.state
      (flatten library schematic) before.state.status
    exact ⟨before.rebuilt library schematic, ⟨⟨_, _, hnative, rfl⟩, rfl, hsound, hloose⟩, rfl⟩

/-- Settling once more changes nothing exactly if the state is stable. -/
theorem settle_matches_iff_stable (hrested : simulation.Rested)
    (hloops : simulation.schedule.diagnostics = []) (huncrossed : simulation.netlist.Uncrossed) :
    simulation.settle.state.Matches simulation.state ↔
      simulation.netlist.Stable simulation.state := by
  have h := hrested.reachable.coherent
  have hloops' : (compile simulation.netlist).diagnostics = [] := h.schedule ▸ hloops
  have hsettled := h.tracked_settle.agrees
  constructor
  · intro hmatches
    exact Netlist.stable_of_matches h.flat h.sound (hsettled.symm.trans hmatches)
  · intro hstable
    obtain ⟨before, hbefore, rfl⟩ := hrested.exists_before
    have hagrees := hbefore.tracked_settle.agrees
    rw [← netlist_settle] at hagrees
    have hsound : State.Sound before.settle.netlist before.state := by
      rw [netlist_settle]
      exact hbefore.sound
    exact hsettled.trans (Netlist.matches_of_stable
      ⟨h.flat, hloops', huncrossed, hsound, h.sound, hagrees, hstable⟩)

/-- A bridge with nothing else on its sides. -/
def openBridge : Schematic where
  components :=
    [⟨"one", Builtin.constant.id, .obj [("value", .int 1)]⟩, ⟨"br", Builtin.bridge.id, .null⟩]
  wires :=
    [⟨"e", [⟨"one", "out"⟩, ⟨"br", "en"⟩, ⟨"br", "dir"⟩]⟩, ⟨"a", [⟨"br", "a"⟩]⟩,
      ⟨"b", [⟨"br", "b"⟩]⟩]

/-- Its first settle drives one side, since the other one has not been told yet that
it floats. The second settle lets go. -/
theorem settle_changes_open_bridge :
    let simulation := ofNetlist (flatten Library.builtin openBridge)
    simulation.schedule.diagnostics = [] ∧ simulation.netlist.Uncrossed ∧
      ¬ simulation.settle.state.Matches simulation.state := by
  have hrested : (ofNetlist (flatten Library.builtin openBridge)).Rested := by
    have hstart : Simulation.start Library.builtin openBridge =
        .ok (ofNetlist (flatten Library.builtin openBridge)) := by
      have hfault : (flatten Library.builtin openBridge).fault? = none := by decide +kernel
      unfold Simulation.start
      dsimp only
      rw [hfault]
    exact .start Library.native_builtin hstart
  have hloops : (ofNetlist (flatten Library.builtin openBridge)).schedule.diagnostics = [] := by
    decide +kernel
  have huncrossed : (ofNetlist (flatten Library.builtin openBridge)).netlist.Uncrossed := by
    decide +kernel
  refine ⟨hloops, huncrossed, fun hmatches => ?_⟩
  have hstable := (settle_matches_iff_stable hrested hloops huncrossed).mp hmatches
  have hpart : (ofNetlist (flatten Library.builtin openBridge)).netlist.parts[1]? =
      some ((flatten Library.builtin openBridge).parts.getD 1 default) := rfl
  have hrecopied : (ofNetlist (flatten Library.builtin openBridge)).netlist.Recopied
      (ofNetlist (flatten Library.builtin openBridge)).state ⟨1, 2⟩ :=
    hstable.bridge hpart (by decide +kernel)
  rcases hrecopied with hself | ⟨index, net, hnet, hsource, hone, -⟩
  · revert hself
    decide +kernel
  · have hnone : ∀ entry ∈ (ofNetlist (flatten Library.builtin openBridge)).netlist.nets.zipIdx,
        ⟨1, 2⟩ ∈ entry.1.sources → ((ofNetlist (flatten Library.builtin openBridge)).state.net
          entry.2).enabledCount ≠ 1 := by decide +kernel
    exact hnone (net, index) (List.mk_mem_zipIdx_iff_getElem?.mpr hnet) hsource hone

end Simulation

end Breadboard
