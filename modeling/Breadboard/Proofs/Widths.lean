import Breadboard.Proofs.Attempts

/-!
# The widths on a net

The first port that is attached to a net gives it its width, and a port of another
width is turned away with a report. But a net whose width is 0 counts as one without
a width, so what follows a port of width 0 sets the width anew. Hence each listed port
has the width of its net or none at all (`Fitting`), and every attempt either succeeds
or is reported with the widths that did not fit (`flatten_agrees_or_reports`). A port
of width 0 can be listed beside others (`flatten_mixes_widths`).
-/

namespace Breadboard

open Netlist

variable {library : Library} {netlist next last : Netlist} {log : List Attempt}
  {attempt : Attempt} {port : Port} {net : Net}

/-- The port can drive or read the net as what the attempt takes it for. -/
def Attempt.Faces (attempt : Attempt) (port : Port) : Prop :=
  (attempt.asSource = true ∧ port.type.output = true) ∨ port.type.input = true

/-- The net has the width of the port, or it has none yet. -/
def Net.Fits (net : Net) (port : Port) : Prop :=
  net.width = 0 ∨ net.width = port.width

instance (net : Net) (port : Port) : Decidable (net.Fits port) :=
  inferInstanceAs (Decidable (_ ∨ _))

/-! ## One attempt -/

theorem Attempt.after_eq (hport : attempt.before.port? attempt.ref = some port)
    (hnet : attempt.before.nets[attempt.net]? = some net) (hfaces : attempt.Faces port) :
    (net.Fits port → attempt.after.Lists attempt.net attempt.ref) ∧
      (¬ net.Fits port → Diagnostic.widthMismatch (attempt.before.netPath attempt.net) net.width
        port.width ∈ attempt.after.diagnostics) := by
  have hopen : (!(attempt.asSource && port.type.output) && !port.type.input) = false := by
    rcases hfaces with ⟨hsource, houtput⟩ | hinput
    · simp [hsource, houtput]
    · simp [hinput]
  have hwidth : (net.width ≠ 0 ∧ net.width ≠ port.width) ↔ ¬ net.Fits port := by
    rw [Net.Fits, not_or]
  unfold Attempt.after Netlist.bind
  rw [hport, hnet]
  dsimp only
  rw [if_neg (Bool.eq_false_iff.mp hopen)]
  constructor
  · intro hfits
    rw [if_neg fun h => hwidth.mp h hfits]
    refine ⟨_, List.getElem?_set_self (List.getElem?_eq_some_iff.mp hnet).1, ?_⟩
    rcases hfaces with ⟨hsource, houtput⟩ | hinput
    · exact Or.inl (by simp [hsource, houtput])
    · exact Or.inr (by simp [hinput])
  · intro hfits
    rw [if_pos (hwidth.mpr hfits)]
    exact List.mem_append_right _ (List.mem_singleton_self _)

/-! ## What flattening keeps -/

/-- Nets belong to scopes that are there. -/
def Scoped (netlist : Netlist) : Prop :=
  ∀ net ∈ netlist.nets, net.scope < netlist.scopes.length

/-- Each listed port has the width of its net, or none. -/
def Fitting (netlist : Netlist) : Prop :=
  ∀ net ∈ netlist.nets, ∀ ref, ref ∈ net.sources ∨ ref ∈ net.targets →
    ∃ port, netlist.port? ref = some port ∧ (port.width = net.width ∨ port.width = 0)

theorem scoped_bind (h : Scoped netlist) (index : Nat) (ref : PortRef) (asSource : Bool) :
    Scoped (netlist.bind index ref asSource) := by
  rcases bind_cases netlist index ref asSource with ⟨_, heq⟩ | ⟨port, net, -, hnet, -, -, heq⟩
  · rw [heq]
    exact h
  · rw [heq]
    intro other hother
    rcases List.mem_or_eq_of_mem_set hother with hother | rfl
    · exact h other hother
    · exact h net (List.mem_of_getElem? hnet)

theorem fitting_bind (h : Fitting netlist) (index : Nat) (ref : PortRef) (asSource : Bool) :
    Fitting (netlist.bind index ref asSource) := by
  have hport : ∀ {other : PortRef} {found : Port}, netlist.port? other = some found →
      ∃ port', (netlist.bind index ref asSource).port? other = some port' ∧
        port'.width = found.width := by
    intro other found hfound
    obtain ⟨port', hport', hdecl⟩ := (kept_bind netlist index ref asSource).port hfound
    exact ⟨port', hport', congrArg PortDecl.width hdecl⟩
  rcases bind_cases netlist index ref asSource with ⟨_, heq⟩ |
    ⟨port, net, hself, hnet, -, hwidth, heq⟩
  · rw [heq]
    exact h
  intro wide hwide other hother
  have hmem := hwide
  rw [heq] at hmem
  rcases List.mem_or_eq_of_mem_set hmem with hold | rfl
  · obtain ⟨found, hfound, hfits⟩ := h wide hold other hother
    obtain ⟨port', hport', hsame⟩ := hport hfound
    exact ⟨port', hport', hsame ▸ hfits⟩
  · -- The net has the width that it had, or it had none, and the listed ports no width.
    rcases Net.listed_of_attach hother with hlisted | rfl
    · obtain ⟨found, hfound, hfits⟩ := h net (List.mem_of_getElem? hnet) other hlisted
      obtain ⟨port', hport', hsame⟩ := hport hfound
      refine ⟨port', hport', ?_⟩
      rw [hsame]
      rcases hwidth with hzero | hsame'
      · exact Or.inr (hfits.elim (·.trans hzero) id)
      · exact hfits.imp_left (·.trans hsame')
    · obtain ⟨port', hport', hsame⟩ := hport hself
      exact ⟨port', hport', Or.inl hsame⟩

theorem Quiet.scoped (h : Quiet library netlist next) (hscoped : Scoped netlist) :
    Scoped next := by
  have hkept := h.kept
  cases h with
  | reports | part => exact hscoped
  | scope => exact fun net hnet => hkept.length_scopes (hscoped net hnet)
  | net scope wires hscope =>
    intro net hnet
    rcases List.mem_append.mp hnet with hnet | hnet
    · exact hscoped net hnet
    · rw [List.mem_singleton.mp hnet]
      exact hscope

theorem Quiet.fitting (h : Quiet library netlist next) (hfitting : Fitting netlist) :
    Fitting next := by
  have hkeep : ∀ net ∈ netlist.nets, ∀ ref, ref ∈ net.sources ∨ ref ∈ net.targets →
      ∃ port, next.port? ref = some port ∧ (port.width = net.width ∨ port.width = 0) := by
    intro net hnet ref href
    obtain ⟨port, hport, hfits⟩ := hfitting net hnet ref href
    obtain ⟨port', hport', hdecl⟩ := h.kept.port hport
    have hsame := congrArg PortDecl.width hdecl
    exact ⟨port', hport', hsame ▸ hfits⟩
  cases h with
  | reports | scope | part => exact hkeep
  | net scope wires _ =>
    intro net hnet ref href
    rcases List.mem_append.mp hnet with hnet | hnet
    · exact hkeep net hnet ref href
    · rw [List.mem_singleton.mp hnet] at href
      rcases href with href | href <;> cases href

theorem Replay.scoped (h : Replay library netlist log last) (hscoped : Scoped netlist) :
    Scoped last := by
  induction h with
  | nil => exact hscoped
  | quiet hquiet _ ih => exact ih (hquiet.scoped hscoped)
  | bind _ _ _ ih => exact ih (scoped_bind hscoped _ _ _)

theorem Replay.fitting (h : Replay library netlist log last) (hfitting : Fitting netlist) :
    Fitting last := by
  induction h with
  | nil => exact hfitting
  | quiet hquiet _ ih => exact ih (hquiet.fitting hfitting)
  | bind _ _ _ ih => exact ih (fitting_bind hfitting _ _ _)

/-! ## Flattening -/

/-- In a flat netlist each listed port has the width of its net or width 0. The listed
ports are those of the attempts that were made, and each attempt with a port that can
take part in its net is listed there, or it is reported that the widths did not fit. -/
theorem flatten_agrees_or_reports (library : Library) (schematic : Schematic) :
    let netlist := flatten library schematic
    (∀ (index : Nat) (net : Net) (ref : PortRef), netlist.nets[index]? = some net →
      ref ∈ net.sources ∨ ref ∈ net.targets →
      ∃ port, netlist.port? ref = some port ∧ (port.width = net.width ∨ port.width = 0)) ∧
    (∀ index ref, netlist.Lists index ref →
      ∃ attempt ∈ attempts library schematic, attempt.net = index ∧ attempt.ref = ref) ∧
    ∀ attempt ∈ attempts library schematic, ∃ port net,
      attempt.before.port? attempt.ref = some port ∧
      attempt.before.nets[attempt.net]? = some net ∧
      (attempt.Faces port →
        if net.Fits port then netlist.Lists attempt.net attempt.ref
        else .widthMismatch (netlist.netPath attempt.net) net.width port.width ∈
          netlist.diagnostics) := by
  intro netlist
  have hreplay := replay_flatten library schematic
  have hscoped : Scoped { scopes := [⟨none, ""⟩] } := fun _ h => absurd h List.not_mem_nil
  have hfitting : Fitting { scopes := [⟨none, ""⟩] } := fun _ h => absurd h List.not_mem_nil
  refine ⟨fun index net ref hnet href => ?_, fun index ref hlists => ?_, fun attempt hmem => ?_⟩
  · exact hreplay.fitting hfitting net (List.mem_of_getElem? hnet) ref href
  · refine (hreplay.lists hlists).resolve_left ?_
    rintro ⟨net, hnet, -⟩
    cases hnet
  · obtain ⟨⟨port, net, hport, hnet⟩, before, rest, hbefore, hrest⟩ := hreplay.mem hmem
    refine ⟨port, net, hport, hnet, fun hfaces => ?_⟩
    obtain ⟨hlists, hreported⟩ := attempt.after_eq hport hnet hfaces
    split
    · next hfits => exact hrest.kept.lists (hlists hfits)
    · next hfits =>
      have hscope := hbefore.scoped hscoped net (List.mem_of_getElem? hnet)
      rw [((kept_bind ..).trans hrest.kept).netPath hnet hscope]
      exact hrest.kept.diagnostics.subset (hreported hfits)

/-- A constant without a width at an adder of eight bits. -/
def widthless : Schematic where
  components :=
    [⟨"c", Builtin.constant.id, .obj [("width", .int 0)]⟩,
      ⟨"add", Builtin.adder.id, .obj [("width", .int 8)]⟩]
  wires := [⟨"w", [⟨"c", "out"⟩, ⟨"add", "a"⟩]⟩]

/-- The constant is attached first and leaves the net without a width, so that the adder
is attached as well. -/
theorem flatten_mixes_widths :
    ¬ ∀ library schematic (index : Nat) (net : Net) (ref : PortRef) port,
      (flatten library schematic).nets[index]? = some net →
      ref ∈ net.sources ∨ ref ∈ net.targets →
      (flatten library schematic).port? ref = some port → port.width = net.width := by
  intro h
  have hnet : (flatten Library.builtin widthless).nets[0]? =
      some ((flatten Library.builtin widthless).nets.getD 0 default) := rfl
  have hport : (flatten Library.builtin widthless).port? ⟨0, 0⟩ =
      some (((flatten Library.builtin widthless).port? ⟨0, 0⟩).getD default) := rfl
  have hsame := h Library.builtin widthless 0 _ ⟨0, 0⟩ _ hnet (by decide +kernel) hport
  revert hsame
  decide +kernel

end Breadboard
