import Breadboard.Proofs.Storage
import Breadboard.Proofs.Synchronous

/-!
# Rebuilding a circuit

A part of a rebuilt circuit takes over what the part at its path stored, if that was of
the same definition. Paths identify components (`Schematic.Tidy`), so that an input, a
register or a memory that a rebuild does not concern keeps what it stores
(`Occurs.rebuild_keeps`), through any number of them (`Occurs.rebuilds_keep`), and one
that was not there before starts anew (`Occurs.rebuild_fresh`).

A rebuild with the same schematic forgets all else, and that is forgotten by a settle of
a static circuit anyway: there it comes to the same as settling (`rebuild_settles`).
-/

namespace Breadboard

/-! ## Components at a path -/

/-- The component is the one at the path. -/
def Schematic.Places (library : Library) (schematic : Schematic) (path : Path)
    (component : Component) : Prop :=
  ∃ site ∈ schematic.sites library, component ∈ site.schematic.components ∧
    site.path component.id = path

/-- At the path there is a built-in component with these arguments that stores something:
an input, a register or a memory. -/
structure Schematic.Stores (library : Library) (schematic : Schematic) (path : Path)
    (builtin : Builtin) (args : Json) : Prop where
  placed : ∃ component, schematic.Places library path component ∧
    component.definition = builtin.id ∧ component.args = args
  known : ∃ inside, library.get? builtin.id = some ⟨.ofBuiltin builtin, inside⟩
  stores : (builtin.assemble args).device.stores = true

section

variable {library : Library} {schematic : Schematic} {path : Path} {builtin : Builtin}
  {args : Json} {index : Nat} {placed : Part}

/-- The component at a path that finds a part is what the part was made for. -/
theorem Schematic.exists_places (h : (flatten library schematic).partAt? path = some index) :
    ∃ component, schematic.Places library path component ∧
      ((flatten library schematic).parts.getD index default).definition = component.definition := by
  obtain ⟨listing, hmem, rfl, hat⟩ := Listing.exists_of_partAt? h
  obtain ⟨part, hpart, -, hdefinition⟩ := hat.part
  obtain ⟨site, hsite, hnames, hcomponent, -⟩ := mem_roster.mp hmem
  refine ⟨listing.component, ⟨site, hsite, hcomponent, ?_⟩, ?_⟩
  · rw [Site.path, Listing.path, hnames]
  · rw [List.getD_eq_getElem?_getD, hpart, Option.getD_some, hdefinition]

namespace Schematic.Stores

variable (h : schematic.Stores library path builtin args)

include h

/-- Its path finds the part of the component. -/
theorem exists_part (htidy : schematic.Tidy library) : ∃ index placed,
    (flatten library schematic).partAt? path = some index ∧
      (flatten library schematic).parts[index]? = some placed ∧
      placed.device = (builtin.assemble args).device ∧ placed.definition = builtin.id ∧
      (flatten library schematic).partPath index = path := by
  obtain ⟨component, ⟨site, hsite, hmem, rfl⟩, hdefinition, rfl⟩ := h.placed
  obtain ⟨inside, hknown⟩ := h.known
  have hassembly : library.assembly? component = some (builtin.assemble component.args) := by
    rw [Library.assembly?, hdefinition, hknown]
    rfl
  obtain ⟨index, hlt, hlisted⟩ := List.mem_iff_getElem.mp
    (mem_roster.mpr ⟨site, hsite, rfl, hmem, hassembly⟩ :
      (⟨site.names, component, builtin.assemble component.args⟩ : Listing) ∈
        schematic.roster library)
  have hat := Listing.at_of_roster ((List.getElem?_eq_getElem hlt).trans (congrArg some hlisted))
  obtain ⟨placed, hpart, hmade, hsame⟩ := hat.part
  exact ⟨index, placed, htidy.partAt?_eq hat, hpart, hmade.device, hsame.trans hdefinition,
    hat.path⟩

end Schematic.Stores

end

namespace Simulation

/-- What the part at a path remembers. -/
def memoryAt? (simulation : Simulation) (path : Path) : Option Memory :=
  (simulation.netlist.partAt? path).map fun index => (simulation.state.part index).memory

/-- One rebuild after another. -/
inductive Rebuilds : Simulation → List (Library × Schematic) → Simulation → Prop where
  | nil (simulation : Simulation) : Rebuilds simulation [] simulation
  | cons {simulation next last : Simulation} {library : Library} {schematic : Schematic}
      {edits : List (Library × Schematic)} : simulation.rebuild library schematic = .ok next →
      Rebuilds next edits last → Rebuilds simulation ((library, schematic) :: edits) last

variable {simulation next last : Simulation} {library before : Library}
  {schematic earlier : Schematic} {path : Path} {builtin : Builtin} {args : Json} {index : Nat}
  {placed : Part}

/-! ## One rebuild -/

theorem Occurs.memoryAt?_eq (h : simulation.Occurs library schematic)
    (hindex : (flatten library schematic).partAt? path = some index) :
    simulation.memoryAt? path = some (simulation.state.part index).memory := by
  rw [memoryAt?, h.stocked.netlist, hindex, Option.map_some]

/-- What was at the same path, and of the same kind, is what it was. -/
theorem Occurs.rebuild_keeps (h : simulation.Occurs before earlier) (htidy : earlier.Tidy before)
    (hbefore : earlier.Stores before path builtin args) (htidy' : schematic.Tidy library)
    (hafter : schematic.Stores library path builtin args)
    (hnext : simulation.rebuild library schematic = .ok next) :
    ∃ memory, simulation.memoryAt? path = some memory ∧ next.memoryAt? path = some memory := by
  obtain ⟨index, placed, hindex, hpart, hdevice, hdefinition, -⟩ := hbefore.exists_part htidy
  obtain ⟨index', placed', hindex', hpart', hdevice', hdefinition', hpath⟩ :=
    hafter.exists_part htidy'
  have hsame : placed'.device = placed.device := hdevice'.trans hdevice.symm
  have hstores : placed.device.stores = true := by
    rw [hdevice]
    exact hbefore.stores
  have hproper := h.stocked.stored index placed (h.stocked.netlist ▸ hpart) hstores
  refine ⟨_, h.memoryAt?_eq hindex, ?_⟩
  rw [(h.rebuild hnext).memoryAt?_eq hindex', memory_rebuild hnext hpart' (hsame ▸ hstores),
    h.stocked.netlist, State.carriedMemory, hpath, hindex]
  dsimp only
  rw [List.getD_eq_getElem?_getD, hpart, Option.getD_some,
    if_pos (hdefinition.trans hdefinition'.symm), hsame, Device.adopt_proper hstores hproper]

/-- What was not at the path, or was of another kind, starts with its first contents. -/
theorem Occurs.rebuild_fresh (h : simulation.Occurs before earlier) (htidy : schematic.Tidy library)
    (hafter : schematic.Stores library path builtin args)
    (hnew : ∀ component, earlier.Places before path component → component.definition ≠ builtin.id)
    (hnext : simulation.rebuild library schematic = .ok next) :
    next.memoryAt? path = some (builtin.assemble args).device.fresh := by
  obtain ⟨index, placed, hindex, hpart, hdevice, hdefinition, hpath⟩ := hafter.exists_part htidy
  have hstores : placed.device.stores = true := by
    rw [hdevice]
    exact hafter.stores
  rw [(h.rebuild hnext).memoryAt?_eq hindex, memory_rebuild hnext hpart hstores, h.stocked.netlist,
    State.carriedMemory, hpath, ← hdevice]
  cases hfound : (flatten before earlier).partAt? path with
  | none => rfl
  | some old =>
    obtain ⟨component, hplaces, hold⟩ := Schematic.exists_places hfound
    dsimp only
    rw [if_neg fun heq => hnew component hplaces (hold.symm.trans (heq.trans hdefinition))]

/-! ## Many rebuilds -/

theorem Occurs.rebuilds_keep {edits : List (Library × Schematic)}
    (h : simulation.Occurs library schematic) (htidy : schematic.Tidy library)
    (hstores : schematic.Stores library path builtin args)
    (hrebuilds : simulation.Rebuilds edits last) (htidies : ∀ edit ∈ edits, edit.2.Tidy edit.1)
    (hedits : ∀ edit ∈ edits, edit.2.Stores edit.1 path builtin args) :
    ∃ memory, simulation.memoryAt? path = some memory ∧ last.memoryAt? path = some memory := by
  induction hrebuilds generalizing library schematic with
  | nil =>
    obtain ⟨index, _, hindex, -⟩ := hstores.exists_part htidy
    exact ⟨_, h.memoryAt?_eq hindex, h.memoryAt?_eq hindex⟩
  | cons hnext _ ih =>
    obtain ⟨htidy', htidies⟩ := List.forall_mem_cons.mp htidies
    obtain ⟨hstores', hedits⟩ := List.forall_mem_cons.mp hedits
    obtain ⟨memory, hbefore, hafter⟩ := h.rebuild_keeps htidy hstores htidy' hstores' hnext
    obtain ⟨memory', hafter', hlast⟩ := ih (h.rebuild hnext) htidy' hstores' htidies hedits
    obtain rfl := Option.some.inj (hafter.symm.trans hafter')
    exact ⟨memory, hbefore, hlast⟩

/-! ## The same circuit again -/

/-- Rebuilt from the same schematic, a part finds itself at its path. -/
theorem Occurs.carriedMemory_self (h : simulation.Occurs library schematic)
    (htidy : schematic.Tidy library)
    (hpart : (flatten library schematic).parts[index]? = some placed)
    (hstores : placed.device.stores = true) :
    State.carriedMemory simulation.netlist simulation.state (flatten library schematic) index
      placed = (simulation.state.part index).memory := by
  have hlt := (List.getElem?_eq_some_iff.mp hpart).1
  rw [← length_roster] at hlt
  have hat := Listing.at_of_roster (List.getElem?_eq_getElem hlt)
  have hproper := h.stocked.stored index placed (h.stocked.netlist ▸ hpart) hstores
  rw [h.stocked.netlist, State.carriedMemory, hat.path, htidy.partAt?_eq hat]
  dsimp only
  rw [List.getD_eq_getElem?_getD, hpart, Option.getD_some, if_pos rfl,
    Device.adopt_proper hstores hproper]

/-- A rebuild from the same schematic comes to the same as a settle. -/
theorem Occurs.rebuild_settles (h : simulation.Occurs library schematic)
    (htidy : schematic.Tidy library) (hnative : library.Native)
    (hstatic : simulation.netlist.Static) (hdriven : simulation.Driven)
    (hnext : simulation.rebuild library schematic = .ok next) :
    simulation.netlist.Observed simulation.settle.state next.state := by
  obtain ⟨before, hbefore, rfl⟩ := exists_pristine_rebuild hnext
  have hcoherent := h.coherent hnative
  have hnetlist : before.netlist = simulation.netlist :=
    hbefore.netlist.trans h.stocked.netlist.symm
  have hnew := hbefore.new
  have hsound' := hbefore.sound
  have htracked := (hbefore.coherent hnative).tracked_settle.agrees
  rw [hnetlist] at hnew hsound' htracked
  -- before it settles, all that the rebuilt circuit has from the old one is what is stored
  have hstored : simulation.netlist.SameStored simulation.state before.state := by
    intro part placed hpart hstores
    rw [hnew.memory hpart, State.inherited]
    rw [h.stocked.netlist] at hpart
    exact (h.carriedMemory_self htidy hpart hstores).symm.trans
      (congrArg (State.carriedMemory _ _ · _ _) h.stocked.netlist.symm)
  have htwins : simulation.netlist.Twins simulation.state before.state :=
    { flat := hcoherent.flat
      static := hstatic
      sound := hcoherent.sound
      sound' := hsound'
      blank := h.blank hnative
      blank' := hnew.blank
      stored := hstored
      single := fun {index net} hnet htristate => by
        rw [← hcoherent.tracked_settle.agrees.net]
        exact hdriven index net hnet htristate }
  exact htwins.observed.matches hcoherent.tracked_settle.agrees htracked

/-- Rebuilds do not touch what is stored. What an input, a register or a memory holds
goes through any number of them, as long as each new circuit has one of the same kind and
the same arguments at its path; what is new at its path, or was of another kind, starts
with its first contents. And a rebuild of a static circuit that changes nothing comes to
the same as a settle, provided that every bus then has one driver. -/
theorem rebuild_carries_over (h : simulation.Occurs library schematic)
    (htidy : schematic.Tidy library) :
    (∀ (edits : List (Library × Schematic)) (last : Simulation), simulation.Rebuilds edits last →
      (∀ edit ∈ edits, edit.2.Tidy edit.1) → ∀ (path : Path) (builtin : Builtin) (args : Json),
        schematic.Stores library path builtin args →
        (∀ edit ∈ edits, edit.2.Stores edit.1 path builtin args) →
        ∃ memory, simulation.memoryAt? path = some memory ∧ last.memoryAt? path = some memory) ∧
    (∀ (library' : Library) (schematic' : Schematic) (next : Simulation),
      schematic'.Tidy library' → simulation.rebuild library' schematic' = .ok next →
      ∀ (path : Path) (builtin : Builtin) (args : Json),
        schematic'.Stores library' path builtin args →
        (∀ component, schematic.Places library path component →
          component.definition ≠ builtin.id) →
        next.memoryAt? path = some (builtin.assemble args).device.fresh) ∧
    (library.Native → simulation.netlist.Static → simulation.Driven →
      ∃ next, simulation.rebuild library schematic = .ok next ∧
        simulation.netlist.Observed simulation.settle.state next.state) := by
  refine ⟨fun edits last hrebuilds htidies path builtin args hstores hedits => ?_,
    fun library' schematic' next htidy' hnext path builtin args hstores hnew => ?_,
    fun hnative hstatic hdriven => ?_⟩
  · exact h.rebuilds_keep htidy hstores hrebuilds htidies hedits
  · exact h.rebuild_fresh htidy' hstores hnew hnext
  · have hnext := rebuild_eq simulation h.fault?_eq_none
    exact ⟨_, hnext, h.rebuild_settles htidy hnative hstatic hdriven hnext⟩

/-- The circuit of `bufferedMemory` in another order, with one more register. -/
def bufferedMemoryExtended : Schematic where
  components := ⟨"n", Builtin.register.id, .null⟩ :: bufferedMemory.components.reverse
  wires := bufferedMemory.wires.reverse

/-- A register and a memory are moved, and a register is added. -/
theorem rebuild_carries_over_extended :
    let simulation := (ofNetlist (flatten Library.builtin bufferedMemory)).step
    ∃ next again, simulation.rebuild Library.builtin bufferedMemoryExtended = .ok next ∧
      simulation.rebuild Library.builtin bufferedMemory = .ok again ∧
      next.memoryAt? ⟨"r"⟩ = some (.register 1) ∧ next.memoryAt? ⟨"n"⟩ = some (.register 0) ∧
      again.state.net 2 = simulation.settle.state.net 2 := by
  intro simulation
  have hoccurs : simulation.Occurs Library.builtin bufferedMemory :=
    .step (.start (start_builtin (by decide +kernel)))
  have hdriven : ∀ entry ∈ (flatten Library.builtin bufferedMemory).nets.zipIdx,
      entry.1.tristate = true → (simulation.settle.state.net entry.2).enabledCount = 1 := by
    decide +kernel
  have hknown : ∃ inside, Library.builtin.get? Builtin.register.id =
      some ⟨.ofBuiltin .register, inside⟩ := ⟨none, by rfl⟩
  have hstores : ∀ {schematic : Schematic} {id : String},
      (⟨id, Builtin.register.id, .null⟩ : Component) ∈ schematic.components →
      schematic.Stores Library.builtin ⟨id⟩ .register .null := fun hmem =>
    ⟨⟨_, ⟨⟨[], _⟩, List.mem_cons_self .., hmem, rfl⟩, rfl, rfl⟩, hknown, rfl⟩
  have hregister : bufferedMemory.Stores Library.builtin ⟨"r"⟩ .register .null :=
    hstores (List.mem_of_getElem? (i := 4) rfl)
  have hmoved : bufferedMemoryExtended.Stores Library.builtin ⟨"r"⟩ .register .null :=
    hstores (List.mem_of_getElem? (i := 2) rfl)
  have hadded : bufferedMemoryExtended.Stores Library.builtin ⟨"n"⟩ .register .null :=
    hstores (List.mem_cons_self ..)
  have hnew : ∀ site ∈ bufferedMemory.sites Library.builtin,
      ∀ component ∈ site.schematic.components, site.path component.id ≠ ⟨"n"⟩ := by decide +kernel
  have hfault : (flatten Library.builtin bufferedMemoryExtended).fault? = none := by decide +kernel
  have hnext := rebuild_eq simulation hfault
  obtain ⟨hkeep, hfresh, hsettles⟩ := rebuild_carries_over hoccurs (by decide +kernel)
  obtain ⟨memory, hbefore, hafter⟩ := hkeep [(Library.builtin, bufferedMemoryExtended)] _
    (.cons hnext (.nil _)) (by decide +kernel) ⟨"r"⟩ .register .null hregister
    (List.forall_mem_singleton.mpr hmoved)
  have hone : simulation.memoryAt? ⟨"r"⟩ = some (.register 1) := by decide +kernel
  obtain rfl := Option.some.inj (hbefore.symm.trans hone)
  obtain ⟨again, hagain, hobserved⟩ := hsettles Library.native_builtin (by decide +kernel)
    fun index net hnet => hdriven (net, index) (List.mk_mem_zipIdx_iff_getElem?.mpr hnet)
  refine ⟨_, again, hnext, hagain, hafter, ?_, (hobserved.net 2).symm⟩
  refine hfresh _ _ _ (by decide +kernel) hnext ⟨"n"⟩ .register .null hadded ?_
  rintro component ⟨site, hsite, hmem, hpath⟩
  exact absurd hpath (hnew site hsite component hmem)

end Simulation

end Breadboard
