import Breadboard.Proofs.Alongside
import Breadboard.Proofs.Unheard
import Breadboard.Proofs.Widths

/-!
# A valid definition overrules its schematic

A definition can do its own work and have a schematic as well. If it is valid, its
outputs are its own, and the schematic is laid out beside it for show: with and without
the schematic, all that stands outside of it holds the same, whatever is done to the
circuit (`native_outputs_win`). The flat circuits are overlaid (`overlaid_flatten`), and
the parts of the schematic only listen to the rest (`Overlaid.unheard`).

A net that was attached to a port of width 0 counts as one without a width, and may get
one from the schematic. So each driver has to be as wide as its net
(`Netlist.DriversFit`); it does not hold otherwise (`native_outputs_lose`).
-/

namespace Breadboard

open Netlist

/-- Each driver of a net is as wide as the net. -/
def Netlist.DriversFit (netlist : Netlist) : Prop :=
  ∀ net ∈ netlist.nets, ∀ ref ∈ net.sources, ∀ port ∈ netlist.port? ref, port.width = net.width

instance (netlist : Netlist) : Decidable netlist.DriversFit :=
  inferInstanceAs (Decidable (∀ _ ∈ _, ∀ _ ∈ _, ∀ _ ∈ _, _))

variable {library more : Library} {definition : Definition} {schematic inside : Schematic}
  {m : Marking} {plain nested : Netlist} {p q index : Nat} {path : Path}

theorem fitting_flatten (library : Library) (schematic : Schematic) :
    Fitting (flatten library schematic) :=
  (replay_flatten library schematic).fitting fun _ h => absurd h List.not_mem_nil

/-! ## Standing outside -/

namespace Overlaid

variable (h : Overlaid m plain nested)

include h

/-- What is marked is the place of a part of the inner circuit. -/
theorem exists_part (hlit : Lit m.parts q) (hq : q < nested.parts.length) :
    ∃ p < plain.parts.length, m.onto.part p = q := by
  have hplace : m.onto.part (Nat.count (Lit m.parts) q) = q := litAt_count hlit
  exact ⟨_, h.part_lt_iff.mp (hplace.symm ▸ hq), hplace⟩

theorem exists_net (hlit : Lit m.nets index) (hindex : index < nested.nets.length) :
    ∃ n < plain.nets.length, m.onto.net n = index := by
  have hplace : m.onto.net (Nat.count (Lit m.nets) index) = index := litAt_count hlit
  exact ⟨_, h.net_lt_iff.mp (hplace.symm ▸ hindex), hplace⟩

theorem places (hfits : Fitting plain) (hdrivers : nested.DriversFit) :
    m.onto.Places plain nested where
  part_inj _ _ _ _ heq := (strictMono_litAt m.parts).injective heq
  net_inj _ _ _ _ heq := (strictMono_litAt m.nets).injective heq
  part hplaced := by
    obtain ⟨host, hhost, hover⟩ := h.part hplaced
    exact ⟨host, hhost, hover.device, hover.phases, hover.ports⟩
  net {n joined} hjoined := by
    obtain ⟨host, hhost, hover⟩ := h.net hjoined
    refine ⟨host, hhost, fun hsome => ?_, hover.tristate, hover.sources ▸ List.Perm.refl _,
      fun ref _ => hover.targets ref⟩
    by_cases hzero : joined.width = 0
    · obtain ⟨ref, href⟩ := List.exists_mem_of_ne_nil _ hsome
      obtain ⟨port, hport, -⟩ := hfits joined (List.mem_of_getElem? hjoined) ref (.inl href)
      have hnarrow := hover.narrow hzero ref href port.toPortDecl
        (by rw [Netlist.decl?, hport]; rfl)
      have hwide := hdrivers host (List.mem_of_getElem? hhost) (m.onto.ref ref)
        (hover.sources ▸ List.mem_map_of_mem href) (m.onto.port port) (by rw [h.port?, hport]; rfl)
      exact hwide.symm.trans (hnarrow.trans hzero.symm)
    · exact hover.width hzero
  listed := h.listed

/-- If the other parts are built in and do not stop the clock, they only listen. -/
theorem unheard (hfits : Fitting plain) (hdrivers : nested.DriversFit) (hstatic : nested.Static)
    (hquiet : ∀ {q : Nat} {host : Part}, nested.parts[q]? = some host → ¬ Lit m.parts q →
      host.device.Native ∧ ∀ reason, host.device ≠ .halt reason) :
    m.onto.Unheard plain nested where
  toPlaces := h.places hfits hdrivers
  bound := h.bound
  part_mono hlt _ := strictMono_litAt m.parts hlt
  net_mono hlt _ := strictMono_litAt m.nets hlt
  static := hstatic
  apart {index ref} _ htarget := by
    obtain ⟨net, hnet, hmem⟩ := htarget
    have hlit : Lit m.nets index := by
      by_contra hdark
      exact h.dark ⟨net, hnet, .inr hmem⟩ hdark (lit_litAt m.parts ref.part)
    exact h.exists_net hlit (List.getElem?_eq_some_iff.mp hnet).1
  quiet {q host} hhost hother := by
    refine hquiet hhost fun hlit => ?_
    obtain ⟨p, hp, hplace⟩ := h.exists_part hlit (List.getElem?_eq_some_iff.mp hhost).1
    exact hother p hp hplace

end Overlaid

/-- What is not marked comes from the schematic. -/
theorem harmless_of_dark (hspare : more.Spare definition inside)
    (hentry : more.get? definition.id = some ⟨definition, some inside⟩) {host : Part}
    (hhost : (flatten more schematic).parts[q]? = some host)
    (hdark : ¬ Lit (schematic.partsOutside more definition.id) q) : host.device.Harmless := by
  obtain ⟨hlength, hmarks⟩ := List.forall₂_iff_get.mp
    (inside_of_outside hentry (more.entries.length + 1) [] schematic (Nat.le_refl _))
  have hq : q < (schematic.partsOutside more definition.id).length := by
    by_contra hge
    exact hdark (List.getD_eq_default _ _ (Nat.not_lt.mp hge))
  obtain ⟨other, hother, hsame⟩ := hmarks q (hlength.symm ▸ hq) hq (by
    rw [Lit, List.getD_eq_getElem _ _ hq, Bool.not_eq_true] at hdark
    exact hdark)
  obtain ⟨-, found, hfound, hmade, -⟩ :=
    Listing.at_of_roster (List.getElem?_eq_getElem (hlength.symm ▸ hq))
  obtain rfl := Option.some.inj (hhost.symm.trans hfound)
  have hharmless := hspare.harmless other hother
  rw [hsame] at hharmless
  exact hmade.device ▸ hharmless

/-! ## Commands -/

/-- A path finds the last part of that path. -/
theorem Netlist.le_partAt? {netlist : Netlist} (hq : q < netlist.parts.length)
    (hfound : netlist.partAt? (netlist.partPath q) = some p) : q ≤ p := by
  obtain ⟨left, right, hentries, hleft⟩ := List.lookup_eq_some_iff.mp hfound
  have hmem : (netlist.partPath q, q) ∈ netlist.partEntries.reverse :=
    List.mem_reverse.mpr (mem_partEntries.mpr ⟨hq, rfl⟩)
  have hsorted : netlist.partEntries.reverse.Pairwise fun first second => second.2 < first.2 := by
    rw [List.pairwise_reverse, Netlist.partEntries, List.pairwise_map]
    exact List.pairwise_lt_range
  rw [hentries] at hmem hsorted
  obtain ⟨-, hrest, -⟩ := List.pairwise_append.mp hsorted
  rcases List.mem_append.mp hmem with hmem | hmem
  · exact absurd rfl (bne_iff_ne.mp (hleft _ hmem))
  · rcases List.mem_cons.mp hmem with heq | hmem
    · exact Nat.le_of_eq (Prod.mk.inj heq).2
    · exact Nat.le_of_lt ((List.pairwise_cons.mp hrest).1 _ hmem)

theorem Overlaid.partPath (h : Overlaid m plain nested) (hp : p < plain.parts.length) :
    nested.partPath (m.onto.part p) = plain.partPath p := by
  obtain ⟨host, hhost, hover⟩ := h.part (List.getElem?_eq_getElem hp)
  rw [Netlist.partPath, Netlist.partPath, List.getD_eq_getElem?_getD, List.getD_eq_getElem?_getD,
    hhost, List.getElem?_eq_getElem hp, Option.getD_some, Option.getD_some, hover.id,
    hover.scope.localPath_eq]

/-- No part of the schematic is found in place of one outside of it. -/
def Simulation.Command.Clear (m : Marking) (plain nested : Netlist) : Simulation.Command → Prop
  | .set path _ => (plain.partAt? ⟨path⟩).isSome → ∀ q ∈ nested.partAt? ⟨path⟩, Lit m.parts q
  | _ => True

instance (m : Marking) (plain nested : Netlist) (command : Simulation.Command) :
    Decidable (command.Clear m plain nested) :=
  match command with
  | .set _ _ => inferInstanceAs (Decidable (_ → ∀ _ ∈ _, _))
  | .settle | .latch | .step | .reset _ => isTrue trivial

theorem Overlaid.leads (h : Overlaid m plain nested)
    (hlit : ∀ q ∈ nested.partAt? path, Lit m.parts q) : m.onto.Leads plain nested path := by
  rw [Embedding.Leads]
  cases hq : nested.partAt? path with
  | none =>
    cases hp : plain.partAt? path with
    | none => rfl
    | some p =>
      obtain ⟨hlt, rfl⟩ := partPath_of_partAt? hp
      obtain ⟨found, hfound⟩ := exists_latest? (mem_partEntries.mpr ⟨h.part_lt_iff.mpr hlt, rfl⟩)
      rw [h.partPath hlt] at hfound
      cases hq.symm.trans hfound
  | some q =>
    obtain ⟨hlt, hpath⟩ := partPath_of_partAt? hq
    obtain ⟨p, hp, rfl⟩ := h.exists_part (hlit q hq) hlt
    rw [h.partPath hp] at hpath
    subst hpath
    obtain ⟨found, hfound⟩ : ∃ found, plain.partAt? (plain.partPath p) = some found :=
      exists_latest? (mem_partEntries.mpr ⟨hp, rfl⟩)
    obtain ⟨hfound', hsame⟩ := partPath_of_partAt? hfound
    -- the last part of that path is the last one in either circuit
    have hle : m.onto.part found ≤ m.onto.part p :=
      le_partAt? (h.part_lt_iff.mpr hfound') (by rw [h.partPath hfound', hsame, hq])
    have heq : found = p := Nat.le_antisymm ((strictMono_litAt m.parts).le_iff_le.mp hle)
      (le_partAt? hp hfound)
    rw [hfound, heq, Option.map_some]

namespace Simulation.Tandem

variable {e : Embedding} {inner outer : Netlist} {small big : Simulation}

/-- Setting an input that the inner circuit does not have. -/
theorem setOther (h : Tandem inner outer (fun small big => e.Extends inner small big) small big)
    {path : String} (hnone : inner.partAt? ⟨path⟩ = none)
    (hother : ∀ q ∈ outer.partAt? ⟨path⟩, ∀ p < inner.parts.length, e.part p ≠ q) (value : Word) :
    Tandem inner outer (fun small big => e.Extends inner small big)
      (small.obey (.set path value)) (big.obey (.set path value)) := by
  have hsmall : small.obey (.set path value) = small := by
    rw [Simulation.obey, setInput, partOf, partAt, h.netlist, hnone]
    rfl
  rw [hsmall, Simulation.obey, setInput, partOf, partAt, h.netlist']
  cases hq : outer.partAt? ⟨path⟩ with
  | none => exact h
  | some q =>
    simp only [Bind.bind, Except.bind]
    cases (big.state.part q).memory with
    | input =>
      dsimp only [pure, Except.pure]
      split
      · exact ⟨h.netlist, h.netlist', h.schedule, h.schedule', h.untracked, h.untracked',
          h.both.setOther (hother q hq) _⟩
      · exact h
    | _ => exact h

end Simulation.Tandem

/-- Simulations of both circuits that hold the same where the inner one stands. -/
abbrev Beside (m : Marking) (plain nested : Netlist) (small big : Simulation) : Prop :=
  Simulation.Tandem plain nested (fun small big => m.onto.Extends plain small big) small big

/-- Whatever is done to both simulations, they go on side by side. -/
theorem Overlaid.obey (h : Overlaid m plain nested) (hunheard : m.onto.Unheard plain nested)
    {small big : Simulation} (hbeside : Beside m plain nested small big)
    {command : Simulation.Command} (hclear : command.Clear m plain nested) :
    Beside m plain nested (small.obey command) (big.obey command) := by
  cases command with
  | set path value =>
    cases hfound : plain.partAt? ⟨path⟩ with
    | some p =>
      exact hbeside.set hunheard.kept (h.leads (hclear (by rw [hfound]; rfl))) value
    | none =>
      refine hbeside.setOther hfound (fun q hq p hp hplace => ?_) value
      -- a marked part would be found in the inner circuit as well
      have hlit : ∀ q' ∈ nested.partAt? ⟨path⟩, Lit m.parts q' := fun q' hq' =>
        Option.some.inj (hq.symm.trans hq') ▸ hplace ▸ lit_litAt m.parts p
      have hleads := h.leads hlit
      rw [Embedding.Leads, hfound, hq] at hleads
      cases hleads
  | _ => exact hbeside.obey hunheard.kept fun path value heq => nomatch heq

theorem Overlaid.run (h : Overlaid m plain nested) (hunheard : m.onto.Unheard plain nested)
    {commands : List Simulation.Command}
    (hclear : ∀ command ∈ commands, command.Clear m plain nested) :
    ∀ {small big : Simulation}, Beside m plain nested small big → Beside m plain nested
      (commands.foldl Simulation.obey small) (commands.foldl Simulation.obey big) := by
  induction commands with
  | nil => exact fun hbeside => hbeside
  | cons command commands ih =>
    exact fun hbeside => ih (fun other hother => hclear other (List.mem_cons_of_mem _ hother))
      (h.obey hunheard hbeside (hclear command (List.mem_cons_self ..)))

/-! ## What is shown -/

namespace Simulation

/-- The parts with their paths and what they hold, in order. -/
def partsShown (simulation : Simulation) : List (Path × PartState) :=
  (List.range simulation.netlist.parts.length).map fun index =>
    (simulation.netlist.partPath index, simulation.state.part index)

/-- The nets with the paths of their wires and what they show, in order. -/
def netsShown (simulation : Simulation) : List (List Path × NetState) :=
  simulation.netlist.nets.zipIdx.map fun (net, index) =>
    (net.wires.map (localPath simulation.netlist.scopes net.scope), simulation.state.net index)

/-- All that is marked in the second simulation is what the first one shows. -/
structure SameOutside (m : Marking) (small big : Simulation) : Prop where
  parts : small.partsShown = picked m.parts big.partsShown
  nets : small.netsShown = picked m.nets big.netsShown
  isHalted : small.isHalted = big.isHalted

/-- Two attempts to start a simulation that end alike. -/
inductive Started (Alike : Simulation → Simulation → Prop) :
    Except Fault Simulation → Except Fault Simulation → Prop where
  | ok {small big : Simulation} : Alike small big → Started Alike (.ok small) (.ok big)
  | fault (fault : Fault) : Started Alike (.error fault) (.error fault)

theorem Started.alike {Alike : Simulation → Simulation → Prop} {schematic' : Schematic}
    (h : Started Alike (start library schematic) (start more schematic'))
    (hfault : (flatten library schematic).fault? = none)
    (hfault' : (flatten more schematic').fault? = none) :
    Alike (ofNetlist (flatten library schematic)) (ofNetlist (flatten more schematic')) := by
  rw [start_eq hfault, start_eq hfault'] at h
  cases h with
  | ok h => exact h

end Simulation

theorem Overlaid.sameOutside (h : Overlaid m plain nested)
    (hparts : nested.parts.length = m.parts.length) (hnets : nested.nets.length = m.nets.length)
    {small big : Simulation} (hbeside : Beside m plain nested small big) :
    Simulation.SameOutside m small big := by
  have hextends : m.onto.Extends plain small.state big.state := hbeside.both
  refine ⟨eq_picked ?_ ?_ ?_, eq_picked ?_ ?_ ?_, hextends.halted⟩
  · simp [Simulation.partsShown, hbeside.netlist', hparts]
  · simp [Simulation.partsShown, hbeside.netlist', hbeside.netlist, h.parts]
  · intro p hp
    rw [Simulation.partsShown, List.length_map, List.length_range, hbeside.netlist] at hp
    rw [Simulation.partsShown, Simulation.partsShown, hbeside.netlist, hbeside.netlist',
      List.getElem?_map, List.getElem?_map, List.getElem?_range hp,
      List.getElem?_range (show litAt m.parts p < _ from h.part_lt_iff.mpr hp), Option.map_some,
      Option.map_some, hextends.part_eq hp]
    exact congrArg some (congrArg (·, big.state.part _) (h.partPath hp).symm)
  · simp [Simulation.netsShown, hbeside.netlist', hnets]
  · simp [Simulation.netsShown, hbeside.netlist', hbeside.netlist, h.nets]
  · intro n hn
    rw [Simulation.netsShown, List.length_map, List.length_zipIdx, hbeside.netlist] at hn
    obtain ⟨host, hhost, hover⟩ := h.net (List.getElem?_eq_getElem hn)
    have hhost : nested.nets[litAt m.nets n]? = some host := hhost
    have hpaths : localPath plain.scopes plain.nets[n].scope = localPath nested.scopes host.scope :=
      funext hover.scope.localPath_eq
    simp only [Simulation.netsShown, hbeside.netlist, hbeside.netlist', List.getElem?_map,
      List.getElem?_zipIdx, List.getElem?_eq_getElem hn, hhost, Option.map_some, Nat.zero_add,
      hextends.net_eq hn, hover.wires, hpaths]
    rfl

/-! ## Increments -/

theorem Script.valid_assemble {script : Script} {id : String} {args : Json} {assembly : Assembly}
    (h : script.assemble id args = .ok assembly) : assembly.valid = script.valid := by
  unfold Script.assemble at h
  dsimp only at h
  generalize Script.addPhases _ script.phases = built at h
  cases built with
  | error error => cases h
  | ok built =>
    cases h
    rfl

/-- Adds something to its input, which is then eight bits wide. -/
def incrementing (width : Nat) (offset : Word) : Definition where
  id := "inc"
  behaviour := .scripted {
    ports := [⟨"i", { input := true }, width⟩, ⟨"o", { output := true }, 8⟩]
    phases := [{ reads := ["i"], writes := ["o"], actions := [.add "o" ["i"] offset] }] }

def boundaryPort (id dir : String) : Component :=
  ⟨id, Boundary.definition, .obj [("dir", .str dir), ("width", .int 8)]⟩

/-- A schematic that adds 1. -/
def addingOne : Schematic where
  components :=
    [boundaryPort "i" "in", boundaryPort "o" "out",
      ⟨"one", Builtin.constant.id, .obj [("width", .int 8), ("value", .int 1)]⟩,
      ⟨"add", Builtin.adder.id, .obj [("width", .int 8)]⟩]
  wires :=
    [⟨"wi", [⟨"i", "a"⟩, ⟨"add", "a"⟩]⟩, ⟨"w1", [⟨"one", "out"⟩, ⟨"add", "b"⟩]⟩,
      ⟨"wo", [⟨"add", "out"⟩, ⟨"o", "a"⟩]⟩]

/-- An input that is incremented. -/
def incremented : Schematic where
  components :=
    [⟨"x", Builtin.input.id, .obj [("width", .int 8), ("value", .int 40)]⟩, ⟨"inc", "inc", .null⟩]
  wires := [⟨"wx", [⟨"x", "out"⟩, ⟨"inc", "i"⟩]⟩, ⟨"wout", [⟨"inc", "o"⟩]⟩]

theorem spare_addingOne : (Library.builtin.add (incrementing 8 2) (some addingOne)).Spare
    (incrementing 8 2) addingOne where
  valid _ _ h := Script.valid_assemble h
  harmless := by decide +kernel
  through := by decide +kernel

/-- An input that goes nowhere. -/
def listening : Schematic where
  components := [boundaryPort "i" "in"]

/-- A multiplexer without a width in front of an increment without one. -/
def narrowed : Schematic where
  components :=
    [⟨"k", Builtin.constant.id, .obj [("width", .int 8), ("value", .int 77)]⟩,
      ⟨"m", Builtin.mux.id, .obj [("width", .int 0)]⟩, ⟨"inc", "inc", .null⟩]
  wires :=
    [⟨"w", [⟨"m", "a"⟩, ⟨"k", "out"⟩]⟩, ⟨"x", [⟨"m", "out"⟩, ⟨"inc", "i"⟩]⟩,
      ⟨"y", [⟨"inc", "o"⟩]⟩]

theorem spare_listening : (Library.builtin.add (incrementing 0 1) (some listening)).Spare
    (incrementing 0 1) listening where
  valid _ _ h := Script.valid_assemble h
  harmless := by decide +kernel
  through := by decide +kernel

/-- An input that has the same path as one inside of the increment. -/
def shadowed : Schematic where
  components :=
    [⟨"inc|x", Builtin.input.id, .obj [("width", .int 8)]⟩, ⟨"inc", "inc", .null⟩]
  wires := [⟨"wx", [⟨"inc|x", "out"⟩, ⟨"inc", "i"⟩]⟩, ⟨"wout", [⟨"inc", "o"⟩]⟩]

/-- A schematic with an input of its own. -/
def inputOnly : Schematic where
  components := [⟨"x", Builtin.input.id, .obj [("width", .int 8)]⟩]

theorem spare_inputOnly : (Library.builtin.add (incrementing 8 2) (some inputOnly)).Spare
    (incrementing 8 2) inputOnly where
  valid _ _ h := Script.valid_assemble h
  harmless := by decide +kernel
  through := by decide +kernel

/-! ## With and without the schematic -/

theorem length_flatten (library : Library) (schematic : Schematic) (id : String) :
    (flatten library schematic).parts.length = (schematic.marking library id).parts.length ∧
      (flatten library schematic).nets.length = (schematic.marking library id).nets.length := by
  have hparts := (counts_parts library).layout id (library.entries.length + 1) schematic 0
    { scopes := [⟨none, ""⟩] }
  have hnets := (counts_nets library).layout id (library.entries.length + 1) schematic 0
    { scopes := [⟨none, ""⟩] }
  exact ⟨hparts.trans (Nat.zero_add _), hnets.trans (Nat.zero_add _)⟩

/-- Both circuits can be run, or neither. -/
theorem Overlaid.fault?_eq (h : Overlaid m plain nested)
    (hdark : ∀ {q : Nat} {host : Part}, nested.parts[q]? = some host → ¬ Lit m.parts q →
      host.device.overshifts = false) : plain.fault? = nested.fault? := by
  have hiff : plain.fault? = none ↔ nested.fault? = none := by
    rw [Netlist.fault?_eq_none_iff, Netlist.fault?_eq_none_iff]
    constructor
    · intro hplain host hmem
      obtain ⟨q, hhost⟩ := List.mem_iff_getElem?.mp hmem
      by_cases hlit : Lit m.parts q
      · obtain ⟨p, hp, rfl⟩ := h.exists_part hlit (List.getElem?_eq_some_iff.mp hhost).1
        obtain ⟨found, hfound, hover⟩ := h.part (List.getElem?_eq_getElem hp)
        obtain rfl := Option.some.inj (hhost.symm.trans hfound)
        exact hover.device ▸ hplain _ (List.getElem_mem hp)
      · exact hdark hhost hlit
    · intro hnested placed hmem
      obtain ⟨p, hplaced⟩ := List.mem_iff_getElem?.mp hmem
      obtain ⟨host, hhost, hover⟩ := h.part hplaced
      exact hover.device ▸ hnested host (List.mem_of_getElem? hhost)
  cases hplain : plain.fault? with
  | none => exact (hiff.mp hplain).symm
  | some fault =>
    cases hnested : nested.fault? with
    | none => cases (hiff.mpr hnested).symm.trans hplain
    | some fault' =>
      cases fault
      cases fault'
      rfl

/-- Native outputs win: with and without a schematic for a definition that is valid
itself, the circuit goes on to show the same outside of it. -/
theorem native_outputs_win (library : Library) (definition : Definition)
    (inside schematic : Schematic)
    (hspare : (library.add definition (some inside)).Spare definition inside)
    (hnone : (flatten (library.add definition (some inside)) schematic).diagnostics = [])
    (hstatic : (flatten (library.add definition (some inside)) schematic).Static)
    (hdrivers : (flatten (library.add definition (some inside)) schematic).DriversFit) :
    Simulation.Started
      (fun small big => ∀ commands : List Simulation.Command,
        (∀ command ∈ commands, command.Clear
          (schematic.marking (library.add definition (some inside)) definition.id)
          small.netlist big.netlist) →
        Simulation.SameOutside
          (schematic.marking (library.add definition (some inside)) definition.id)
          (commands.foldl Simulation.obey small) (commands.foldl Simulation.obey big))
      (Simulation.start (library.add definition) schematic)
      (Simulation.start (library.add definition (some inside)) schematic) := by
  have hexpands := library.expands_add definition inside
  have hover := overlaid_flatten hexpands hspare hnone
  have hharmless : ∀ {q : Nat} {host : Part},
      (flatten (library.add definition (some inside)) schematic).parts[q]? = some host →
      ¬ Lit (schematic.marking (library.add definition (some inside)) definition.id).parts q →
      host.device.Harmless := harmless_of_dark hspare hexpands.nested
  have hunheard := hover.unheard (fitting_flatten _ _) hdrivers hstatic fun hhost hdark =>
    ⟨(hharmless hhost hdark).native, (hharmless hhost hdark).runs⟩
  have hfault := hover.fault?_eq fun hhost hdark => (hharmless hhost hdark).carries
  obtain ⟨hparts, hnets⟩ := length_flatten (library.add definition (some inside)) schematic
    definition.id
  cases hplain : (flatten (library.add definition) schematic).fault? with
  | some fault =>
    simp only [Simulation.start, ← hfault, hplain]
    exact .fault fault
  | none =>
    have hbeside := Simulation.Tandem.ofNetlist hunheard.kept
    rw [Simulation.start_eq hplain, Simulation.start_eq (hfault ▸ hplain)]
    refine .ok fun commands hclear => hover.sameOutside hparts hnets ?_
    rw [hbeside.netlist, hbeside.netlist'] at hclear
    exact hover.run hunheard hclear hbeside

theorem native_increment_wins : ∃ small big,
    Simulation.start (Library.builtin.add (incrementing 8 2)) incremented = .ok small ∧
    Simulation.start (Library.builtin.add (incrementing 8 2) (some addingOne)) incremented =
      .ok big ∧
      Simulation.SameOutside
        (incremented.marking (Library.builtin.add (incrementing 8 2) (some addingOne)) "inc")
        ((small.obey (.set "x" 7)).obey .step) ((big.obey (.set "x" 7)).obey .step) := by
  have hwin := native_outputs_win Library.builtin (incrementing 8 2) addingOne incremented
    spare_addingOne (by decide +kernel) (by decide +kernel) (by decide +kernel)
  have hplain : (flatten (Library.builtin.add (incrementing 8 2)) incremented).fault? = none := by
    decide +kernel
  have hnested : (flatten (Library.builtin.add (incrementing 8 2) (some addingOne))
      incremented).fault? = none := by
    decide +kernel
  exact ⟨_, _, Simulation.start_eq hplain, Simulation.start_eq hnested,
    hwin.alike hplain hnested [.set "x" 7, .step] (by decide +kernel)⟩

/-- A schematic can give a width to a net that has none without it, and so change what is
shown there. -/
theorem native_outputs_lose : ¬ ∀ (library : Library) (definition : Definition)
    (inside schematic : Schematic),
    (library.add definition (some inside)).Spare definition inside →
    (flatten (library.add definition (some inside)) schematic).diagnostics = [] →
    (flatten (library.add definition (some inside)) schematic).Static →
    Simulation.Started
      (Simulation.SameOutside
        (schematic.marking (library.add definition (some inside)) definition.id))
      (Simulation.start (library.add definition) schematic)
      (Simulation.start (library.add definition (some inside)) schematic) := by
  intro h
  have hwin := h Library.builtin (incrementing 0 1) listening narrowed spare_listening
    (by decide +kernel) (by decide +kernel)
  have hplain : (flatten (Library.builtin.add (incrementing 0 1)) narrowed).fault? = none := by
    decide +kernel
  have hnested : (flatten (Library.builtin.add (incrementing 0 1) (some listening))
      narrowed).fault? = none := by
    decide +kernel
  have hnets := (hwin.alike hplain hnested).nets
  revert hnets
  decide +kernel

/-- A part of the schematic can be found in place of an input that has its path. -/
theorem native_outputs_hidden : ¬ ∀ (library : Library) (definition : Definition)
    (inside schematic : Schematic),
    (library.add definition (some inside)).Spare definition inside →
    (flatten (library.add definition (some inside)) schematic).diagnostics = [] →
    (flatten (library.add definition (some inside)) schematic).Static →
    (flatten (library.add definition (some inside)) schematic).DriversFit →
    Simulation.Started
      (fun small big => ∀ commands : List Simulation.Command, Simulation.SameOutside
        (schematic.marking (library.add definition (some inside)) definition.id)
        (commands.foldl Simulation.obey small) (commands.foldl Simulation.obey big))
      (Simulation.start (library.add definition) schematic)
      (Simulation.start (library.add definition (some inside)) schematic) := by
  intro h
  have hwin := h Library.builtin (incrementing 8 2) inputOnly shadowed spare_inputOnly
    (by decide +kernel) (by decide +kernel) (by decide +kernel)
  have hplain : (flatten (Library.builtin.add (incrementing 8 2)) shadowed).fault? = none := by
    decide +kernel
  have hnested : (flatten (Library.builtin.add (incrementing 8 2) (some inputOnly))
      shadowed).fault? = none := by
    decide +kernel
  have hnets := (hwin.alike hplain hnested [.set "inc|x" 5, .settle]).nets
  revert hnets
  decide +kernel

end Breadboard
