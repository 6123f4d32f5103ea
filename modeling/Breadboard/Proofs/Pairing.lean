import Breadboard.Proofs.Attempts

/-!
# Ports and nets pair up

What nets list faces the right way and knows some net, and the net that a port knows
lists it, whatever was attached in which order (`Mutual`). That the port also knows
every net that lists it, and is listed once, is a matter of how often it was tried: at
the end of a replay a port with one attempt at most is paired with its net
(`Replay.paired`).
-/

namespace Breadboard

open Netlist

variable {library : Library} {netlist next last : Netlist} {log more : List Attempt}
  {attempt : Attempt} {index scope : Nat} {ref : PortRef} {placements : Placements}
  {wires : List Wire} {endpoint other : Endpoint} {port : Port} {net : Net}

/-! ## What nets and ports know of each other -/

/-- The ports on one side of a net. -/
def Net.side (net : Net) (asSource : Bool) : List PortRef :=
  if asSource then net.sources else net.targets

/-- Whether a port can be on one side of a net. -/
def PortType.faces (type : PortType) (asSource : Bool) : Bool :=
  if asSource then type.output else type.input

/-- The port knows exactly the nets that list it, and these list it once on each side. -/
structure Netlist.Paired (netlist : Netlist) (ref : PortRef) : Prop where
  net_iff : ∀ port index, netlist.port? ref = some port →
    (port.net = some index ↔ netlist.Lists index ref)
  once : ∀ net ∈ netlist.nets, ∀ asSource, (net.side asSource).count ref ≤ 1

/-- Listed ports face the right way and know some net, and the net that a port knows
lists it. -/
structure Mutual (netlist : Netlist) : Prop where
  listed : ∀ net ∈ netlist.nets, ∀ asSource, ∀ ref ∈ net.side asSource,
    ∃ port, netlist.port? ref = some port ∧ port.type.faces asSource = true ∧ port.bound = true
  known : ∀ {ref : PortRef} {port : Port} {index : Nat}, netlist.port? ref = some port →
    port.net = some index → netlist.Lists index ref

theorem mutual_empty : Mutual { scopes := [⟨none, ""⟩] } :=
  ⟨fun _ h => absurd h List.not_mem_nil, fun h => by cases h⟩

theorem Mutual.bound (h : Mutual netlist) (hlists : netlist.Lists index ref)
    (hport : netlist.port? ref = some port) : port.bound = true := by
  obtain ⟨net, hnet, href⟩ := hlists
  obtain ⟨asSource, href⟩ : ∃ asSource, ref ∈ net.side asSource :=
    href.elim (⟨true, ·⟩) (⟨false, ·⟩)
  obtain ⟨found, hfound, -, hbound⟩ := h.listed net (List.mem_of_getElem? hnet) asSource ref href
  rwa [Option.some.inj (hport.symm.trans hfound)]

/-- What a net lists after a wire end has been bound to it was listed before, or it is
that wire end. -/
theorem listed_of_bind {wide : Net} {side : Bool} {other : PortRef}
    (hwide : wide ∈ (netlist.bind index ref asSource).nets) (hother : other ∈ wide.side side) :
    (∃ net ∈ netlist.nets, other ∈ net.side side) ∨
      other = ref ∧ ∃ port, netlist.port? ref = some port ∧ port.type.faces side = true := by
  rcases bind_cases netlist index ref asSource with ⟨_, heq⟩ | ⟨port, net, hself, hnet, -, -, heq⟩
  · rw [heq] at hwide
    exact Or.inl ⟨wide, hwide, hother⟩
  rw [heq] at hwide
  rcases List.mem_or_eq_of_mem_set hwide with hmem | rfl
  · exact Or.inl ⟨wide, hmem, hother⟩
  cases side with
  | false =>
    exact (Net.mem_targets_attach.mp hother).imp (⟨net, List.mem_of_getElem? hnet, ·⟩)
      fun ⟨hsame, hreads⟩ => ⟨hsame, port, hself, hreads⟩
  | true =>
    exact (Net.mem_sources_attach.mp hother).imp (⟨net, List.mem_of_getElem? hnet, ·⟩)
      fun ⟨hsame, hdrives⟩ => ⟨hsame, port, hself, (Bool.and_eq_true_iff.mp hdrives).2⟩

theorem mutual_bind (h : Mutual netlist) (index : Nat) (ref : PortRef) (asSource : Bool) :
    Mutual (netlist.bind index ref asSource) := by
  have hkept := kept_bind netlist index ref asSource
  rcases bind_cases netlist index ref asSource with ⟨_, heq⟩ |
    ⟨port, net, hself, hnet, huse, -, heq⟩
  · rw [heq]
    exact ⟨h.listed, h.known⟩
  have hport : ∀ {other : PortRef} {found : Port}, netlist.port? other = some found →
      (netlist.bind index ref asSource).port? other = some (joined index ref other found) := by
    intro other found hfound
    rw [heq, port_attached, hfound]
    rfl
  refine ⟨fun wide hwide side other hother => ?_, fun {other found place} hfound hplace => ?_⟩
  · rcases listed_of_bind hwide hother with ⟨net, hmem, hside⟩ | ⟨rfl, found, hfound, hfaces⟩
    · obtain ⟨found, hfound, hfaces, hbound⟩ := h.listed net hmem side other hside
      refine ⟨_, hport hfound, by rw [type_joined]; exact hfaces, ?_⟩
      unfold joined
      split
      · rfl
      · exact hbound
    · refine ⟨_, hport hfound, by rw [type_joined]; exact hfaces, ?_⟩
      rw [joined, if_pos rfl]
      rfl
  · have hafter := hfound
    rw [heq, port_attached] at hafter
    obtain ⟨before, hbefore, rfl⟩ := Option.map_eq_some_iff.mp hafter
    unfold joined at hplace
    split at hplace
    · next hother =>
      obtain rfl := Option.some.inj hplace
      rw [heq, hother]
      refine ⟨_, List.getElem?_set_self (List.getElem?_eq_some_iff.mp hnet).1, ?_⟩
      exact huse.imp (fun hdrives => Net.mem_sources_attach.mpr (Or.inr ⟨rfl, hdrives⟩))
        (fun hreads => Net.mem_targets_attach.mpr (Or.inr ⟨rfl, hreads⟩))
    · exact hkept.lists (h.known hbefore hplace)

theorem Quiet.mutual (h : Quiet library netlist next) (hmutual : Mutual netlist) :
    Mutual next := by
  have hkept := h.kept
  cases h with
  | reports | scope => exact ⟨hmutual.listed, hmutual.known⟩
  | part part _ hunbound =>
    refine ⟨fun net hnet asSource ref href => ?_, fun hport hbound => ?_⟩
    · obtain ⟨port, hport, hrest⟩ := hmutual.listed net hnet asSource ref href
      exact ⟨port, port_addPart hport part, hrest⟩
    · rcases port_addPart_cases hport with hport | ⟨-, hport⟩
      · exact hmutual.known hport hbound
      · rw [hunbound _ (List.mem_of_getElem? hport)] at hbound
        cases hbound
  | net scope wires _ =>
    refine ⟨fun net hnet asSource ref href => ?_, fun hport hbound =>
      hkept.lists (hmutual.known hport hbound)⟩
    rcases List.mem_append.mp hnet with hnet | hnet
    · exact hmutual.listed net hnet asSource ref href
    · rw [List.mem_singleton.mp hnet] at href
      cases asSource <;> cases href

theorem Replay.mutual (h : Replay library netlist log last) (hmutual : Mutual netlist) :
    Mutual last := by
  induction h with
  | nil => exact hmutual
  | quiet hquiet _ ih => exact ih (hquiet.mutual hmutual)
  | bind _ _ _ ih => exact ih (mutual_bind hmutual _ _ _)

/-! ## Counting attempts -/

/-- The ports that a record is about. -/
def refs (log : List Attempt) : List PortRef :=
  log.map (·.ref)

theorem refs_append (log more : List Attempt) : refs (log ++ more) = refs log ++ refs more :=
  List.map_append

/-- How often a net lists a port on one side. -/
def sideCount (netlist : Netlist) (asSource : Bool) (index : Nat) (ref : PortRef) : Nat :=
  ((netlist.nets.getD index default).side asSource).count ref

theorem sideCount_bind (netlist : Netlist) (place index : Nat) (other ref : PortRef)
    (drives asSource : Bool) :
    sideCount (netlist.bind place other drives) asSource index ref ≤
      sideCount netlist asSource index ref + [other].count ref := by
  rcases bind_cases netlist place other drives with ⟨_, heq⟩ | ⟨port, net, -, hnet, -, -, heq⟩
  · rw [heq]
    exact Nat.le_add_right ..
  · rw [heq, sideCount, sideCount, nets_attached, List.getD_eq_getElem?_getD,
      List.getD_eq_getElem?_getD]
    by_cases hplace : place = index
    · subst hplace
      rw [List.getElem?_set_self (List.getElem?_eq_some_iff.mp hnet).1, hnet]
      cases asSource <;>
      · simp only [Net.side, Net.attach, Option.getD_some, Bool.false_eq_true, if_false, if_true]
        split
        · exact Nat.le_of_eq List.count_append
        · exact Nat.le_add_right ..
    · rw [List.getElem?_set_ne hplace]
      exact Nat.le_add_right ..

theorem Replay.sideCount_le (h : Replay library netlist log last) (asSource : Bool) (index : Nat)
    (ref : PortRef) :
    sideCount last asSource index ref ≤ sideCount netlist asSource index ref +
      (refs log).count ref := by
  induction h with
  | nil => exact Nat.le_add_right ..
  | quiet hquiet _ ih =>
    refine Nat.le_trans ih (Nat.add_le_add_right (Nat.le_of_eq ?_) _)
    cases hquiet with
    | reports | scope | part => rfl
    | net scope wires _ =>
      unfold sideCount
      dsimp only
      rw [List.getD_eq_getElem?_getD, List.getD_eq_getElem?_getD, List.getElem?_append]
      split
      · rfl
      · next hge =>
        rw [List.getElem?_eq_none (Nat.not_lt.mp hge), List.getElem?_singleton]
        cases asSource <;> split <;> rfl
  | @bind netlist _ place other drives log _ _ _ _ _ ih =>
    have hfirst := sideCount_bind netlist place index other ref drives asSource
    have hcount : (([other] ++ refs log)).count ref = [other].count ref + (refs log).count ref :=
      List.count_append
    have hrefs : refs (⟨netlist, place, other, drives⟩ :: log) = [other] ++ refs log := rfl
    rw [hrefs]
    omega

/-- Of a port that was tried once at most there is one attempt. -/
theorem eq_of_count_le {first second : Attempt} (hcount : (refs log).count ref ≤ 1)
    (hfirst : first ∈ log) (hsecond : second ∈ log) (href : first.ref = ref)
    (href' : second.ref = ref) : first = second := by
  by_contra hne
  obtain ⟨left, right, rfl⟩ := List.append_of_mem hfirst
  have hpos : ∀ {part : List Attempt}, second ∈ part → 0 < (refs part).count ref := fun hmem =>
    List.count_pos_iff.mpr (href' ▸ List.mem_map_of_mem hmem)
  have hself : refs (first :: right) = first.ref :: refs right := rfl
  rw [refs_append, List.count_append, hself, href, List.count_cons_self] at hcount
  rcases List.mem_append.mp hsecond with hmem | hmem
  · have := hpos hmem
    omega
  · have := hpos ((List.mem_cons.mp hmem).resolve_left (Ne.symm hne))
    omega

/-- A port that was tried once at most is paired with its net. -/
theorem Replay.paired (h : Replay library { scopes := [⟨none, ""⟩] } log last)
    (hcount : (refs log).count ref ≤ 1) : last.Paired ref := by
  have hmutual := h.mutual mutual_empty
  have hlog : ∀ {index : Nat}, last.Lists index ref →
      ∃ attempt ∈ log, attempt.net = index ∧ attempt.ref = ref := by
    intro index hlists
    refine (h.lists hlists).resolve_left ?_
    rintro ⟨net, hnet, -⟩
    cases hnet
  refine ⟨fun port index hport => ⟨hmutual.known hport, fun hlists => ?_⟩, fun net hnet asSource => ?_⟩
  · obtain ⟨place, hplace⟩ := Option.isSome_iff_exists.mp (hmutual.bound hlists hport)
    obtain ⟨first, hfirst, hindex, href⟩ := hlog hlists
    obtain ⟨second, hsecond, hindex', href'⟩ := hlog (hmutual.known hport hplace)
    rw [hplace, ← hindex, ← hindex', eq_of_count_le hcount hfirst hsecond href href']
  · obtain ⟨index, hindex⟩ := List.getElem?_of_mem hnet
    have hle := h.sideCount_le asSource index ref
    have hzero : sideCount { scopes := [⟨none, ""⟩] } asSource index ref = 0 := by
      cases asSource <;> simp [sideCount, Net.side, default, instInhabitedNet.default]
    rw [hzero, sideCount, List.getD_eq_getElem?_getD, hindex, Option.getD_some] at hle
    omega

end Breadboard
