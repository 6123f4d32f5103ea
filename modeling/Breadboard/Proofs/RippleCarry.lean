import Breadboard.Proofs.SheetRun
import Mathlib.Algebra.BigOperators.Intervals
import Mathlib.Tactic.Ring

/-!
# Ripple-carry addition

Adders are put in a chain, the carry out of each wired to the carry in of the next one
(`rippleCarry`). The levels of a chain are the digits, so that it is a sheet, however long
it is. In a settled chain each adder shows one digit of the sum and hands its carry on
(`adder_digit`), which takes a sum of one bit more than the adders have: at a width of 64
bits that bit is beyond a word. Adding up the digits along the chain leaves the first carry
and the last one (`sum_of_digits`), and so `ripple_carry_adds`.
-/

namespace Breadboard

/-! ## Sums digit by digit -/

/-- A carry that is handed on from digit to digit is left over at both ends only. -/
theorem sum_of_digits (base : Nat) (out a b carry : Nat → Nat) {count : Nat}
    (h : ∀ digit < count, out digit + carry (digit + 1) * base = a digit + b digit + carry digit) :
    ∑ digit ∈ Finset.range count, out digit * base ^ digit + carry count * base ^ count =
      ∑ digit ∈ Finset.range count, a digit * base ^ digit +
        ∑ digit ∈ Finset.range count, b digit * base ^ digit + carry 0 := by
  induction count with
  | zero => simp
  | succ count ih =>
    have hless := ih fun digit hdigit => h digit (Nat.lt_succ_of_lt hdigit)
    have hdigit := congrArg (· * base ^ count) (h count (Nat.lt_succ_self count))
    rw [Finset.sum_range_succ, Finset.sum_range_succ, Finset.sum_range_succ, pow_succ]
    simp only [Nat.add_mul] at hdigit
    calc ∑ digit ∈ Finset.range count, out digit * base ^ digit + out count * base ^ count +
          carry (count + 1) * (base ^ count * base)
        = ∑ digit ∈ Finset.range count, out digit * base ^ digit +
          (out count * base ^ count + carry (count + 1) * base * base ^ count) := by ring
      _ = ∑ digit ∈ Finset.range count, out digit * base ^ digit + carry count * base ^ count +
          a count * base ^ count + b count * base ^ count := by rw [hdigit]; ring
      _ = _ := by rw [hless]; ring

/-- A word and the bit beyond it hold a sum of two words and a carry. -/
theorem trim_add_bit {width sum : Nat} (hwidth : width ≤ 64) (hsum : sum < 2 * 2 ^ width) :
    (trim width (UInt64.ofNat sum)).toNat +
      (UInt64.ofNat (sum >>> width % 2)).toNat * 2 ^ width = sum := by
  have hbit : sum >>> width < 2 := by
    rw [Nat.shiftRight_eq_div_pow]
    exact Nat.div_lt_of_lt_mul (by omega)
  have hhigh : (UInt64.ofNat (sum >>> width % 2)).toNat = sum / 2 ^ width := by
    rw [Nat.mod_eq_of_lt hbit, UInt64.toNat_ofNat', Nat.mod_eq_of_lt (by omega),
      Nat.shiftRight_eq_div_pow]
  rw [toNat_trim_ofNat hwidth, hhigh, Nat.mul_comm]
  exact Nat.mod_add_div sum (2 ^ width)

theorem trim_bit (number : Nat) :
    trim 1 (UInt64.ofNat (number % 2)) = UInt64.ofNat (number % 2) := by
  rcases Nat.mod_two_eq_zero_or_one number with h | h <;> rw [h] <;> rfl

/-! ## The circuit -/

namespace RippleCarry

/-- The components of a chain of adders. -/
inductive Place where
  /-- The input for the first carry. -/
  | carry
  | a (digit : Nat)
  | b (digit : Nat)
  | adder (digit : Nat)
  deriving DecidableEq, Repr

/-- What an adder takes in. -/
inductive Leg where
  | a
  | b
  | carry
  deriving DecidableEq, Repr

def Leg.port : Leg → String
  | a => "a"
  | b => "b"
  | carry => "cin"

def Leg.width (width : Nat) : Leg → Nat
  | a | b => width
  | carry => 1

/-- Where an adder takes it from. -/
def Leg.source : Leg → Nat → Place × String
  | a, digit => (.a digit, "out")
  | b, digit => (.b digit, "out")
  | carry, 0 => (.carry, "out")
  | carry, digit + 1 => (.adder digit, "cout")

variable (id : Place → String) (width count : Nat)

def component (place : Place) : Component :=
  match place with
  | .carry => ⟨id place, Builtin.input.id, .obj [("width", .int 1)]⟩
  | .a _ | .b _ => ⟨id place, Builtin.input.id, .obj [("width", .int width)]⟩
  | .adder _ =>
    ⟨id place, Builtin.adder.id,
      .obj [("width", .int width), ("carryIn", .bool true), ("carryOut", .bool true)]⟩

def source (leg : Leg) (digit : Nat) : Endpoint :=
  ⟨id (leg.source digit).1, (leg.source digit).2⟩

def sink (leg : Leg) (digit : Nat) : Endpoint :=
  ⟨id (.adder digit), leg.port⟩

def wire (tie : Nat × Leg) : Wire :=
  ⟨id (tie.2.source tie.1).1, [source id tie.2 tie.1, sink id tie.2 tie.1]⟩

def places : List Place :=
  .carry :: (List.range count).flatMap fun digit => [.a digit, .b digit, .adder digit]

def ties : List (Nat × Leg) :=
  (List.range count).product [.a, .b, .carry]

end RippleCarry

/-- A chain of adders of this width, one for each digit. -/
def rippleCarry (id : RippleCarry.Place → String) (width count : Nat) : Schematic where
  components := (RippleCarry.places count).map (RippleCarry.component id width)
  wires := (RippleCarry.ties count).map (RippleCarry.wire id)

namespace RippleCarry

variable {id : Place → String} {width count digit : Nat} {leg : Leg} {place : Place}

theorem mem_places : place ∈ places count ↔
    match place with
    | .carry => True
    | .a digit | .b digit | .adder digit => digit < count := by
  cases place <;> simp [places]

theorem mem_ties : (digit, leg) ∈ ties count ↔ digit < count := by
  cases leg <;> simp [ties]

theorem component_id (id : Place → String) (width : Nat) (place : Place) :
    (component id width place).id = id place := by
  cases place <;> rfl

theorem mem_components (hplace : place ∈ places count) :
    component id width place ∈ (rippleCarry id width count).components :=
  List.mem_map_of_mem hplace

theorem source_mem (hdigit : digit < count) : (leg.source digit).1 ∈ places count := by
  rw [mem_places]
  cases leg with
  | carry =>
    cases digit with
    | zero => trivial
    | succ digit => exact Nat.lt_of_succ_lt hdigit
  | _ => exact hdigit

/-- Different legs take in different things. -/
theorem source_inj {other : Leg} {digit' : Nat}
    (h : leg.source digit = other.source digit') : (digit, leg) = (digit', other) := by
  cases leg <;> cases other <;> cases digit <;> cases digit' <;>
    simp_all [Leg.source]

theorem source_port_ne (leg other : Leg) (digit : Nat) : (leg.source digit).2 ≠ other.port := by
  cases leg <;> cases other <;> cases digit <;> simp [Leg.source, Leg.port]

theorem port_inj {other : Leg} (h : leg.port = other.port) : leg = other := by
  cases leg <;> cases other <;> first | rfl | exact absurd h (by decide)

section

variable (hids : ((places count).map id).Nodup)

include hids

theorem id_inj {other : Place} (hplace : place ∈ places count) (hother : other ∈ places count)
    (h : id place = id other) : place = other :=
  List.inj_on_of_nodup_map hids hplace hother h

theorem disjoint_wires : Disjoint (rippleCarry id width count).wires := by
  refine List.pairwise_map.mpr ((List.Nodup.product List.nodup_range (by decide)).imp_of_mem ?_)
  rintro ⟨digit, leg⟩ ⟨digit', leg'⟩ hmem hmem' hne endpoint hend hend'
  have hdigit : digit < count := mem_ties.mp hmem
  have hdigit' : digit' < count := mem_ties.mp hmem'
  simp only [wire, List.mem_cons, List.not_mem_nil, or_false] at hend hend'
  rcases hend with rfl | rfl <;> rcases hend' with heq | heq <;>
    obtain ⟨hid, hport⟩ := Endpoint.mk.inj heq
  · have hplace := id_inj hids (source_mem hdigit) (source_mem hdigit') hid
    exact hne (source_inj (Prod.ext hplace hport))
  · exact source_port_ne _ _ _ hport
  · exact source_port_ne _ _ _ hport.symm
  · have hplace := id_inj hids (mem_places.mpr hdigit) (mem_places.mpr hdigit') hid
    exact hne (Prod.ext (Place.adder.inj hplace) (port_inj hport))

end

/-! ## The chain as a sheet -/

/-- The inputs are at the bottom, and the adders above them by their digits. -/
def Place.height : Place → Nat
  | .carry | .a _ | .b _ => 0
  | .adder digit => digit + 1

theorem height_source (leg : Leg) (digit : Nat) : (leg.source digit).1.height < digit + 1 := by
  cases leg <;> cases digit <;> simp [Leg.source, Place.height]

theorem drives_source (hword : width ≤ 64) (hdigit : digit < count) :
    (rippleCarry id width count).Drives (source id leg digit) (leg.width width) := by
  have hdrawn : component id width (leg.source digit).1 ∈ _ :=
    mem_components (source_mem hdigit)
  have hid := (component_id id width (leg.source digit).1).symm
  cases leg with
  | a => exact ⟨_, .input, 0, _, ⟨hdrawn, rfl, hid, rfl, rfl⟩, rfl, rfl, rfl, Json.width_eq hword _⟩
  | b => exact ⟨_, .input, 0, _, ⟨hdrawn, rfl, hid, rfl, rfl⟩, rfl, rfl, rfl, Json.width_eq hword _⟩
  | carry =>
    cases digit with
    | zero => exact ⟨_, .input, 0, _, ⟨hdrawn, rfl, hid, rfl, rfl⟩, rfl, rfl, rfl, rfl⟩
    | succ digit => exact ⟨_, .adder, 4, _, ⟨hdrawn, rfl, hid, rfl, rfl⟩, rfl, rfl, rfl, rfl⟩

theorem hears_sink (hword : width ≤ 64) (hdigit : digit < count) {level : String → Nat}
    (hlevel : ∀ place ∈ places count, level (id place) = place.height) :
    (rippleCarry id width count).Hears level (level (source id leg digit).component)
      (sink id leg digit) (leg.width width) := by
  have hplace : Place.adder digit ∈ places count := mem_places.mpr hdigit
  have hdrawn : component id width (.adder digit) ∈ _ := mem_components hplace
  have hbelow : level (source id leg digit).component < level (id (.adder digit)) := by
    rw [hlevel _ hplace, source, hlevel _ (source_mem hdigit)]
    exact height_source leg digit
  cases leg with
  | a =>
    exact ⟨_, .adder, 0, _, ⟨hdrawn, rfl, rfl, rfl, rfl⟩, rfl, rfl, rfl, Json.width_eq hword _,
      fun _ _ _ _ => hbelow⟩
  | b =>
    exact ⟨_, .adder, 1, _, ⟨hdrawn, rfl, rfl, rfl, rfl⟩, rfl, rfl, rfl, Json.width_eq hword _,
      fun _ _ _ _ => hbelow⟩
  | carry =>
    exact ⟨_, .adder, 3, _, ⟨hdrawn, rfl, rfl, rfl, rfl⟩, rfl, rfl, rfl, rfl,
      fun _ _ _ _ => hbelow⟩

/-- No adder of the chain shifts beyond its sum. -/
theorem kind_component (hword : width ≤ 64) (place : Place) : ∃ builtin : Builtin,
    (component id width place).definition = builtin.id ∧ builtin ≠ .bridge ∧
      (builtin.assemble (component id width place).args).device.overshifts = false := by
  cases place with
  | adder digit =>
    refine ⟨.adder, rfl, by decide, ?_⟩
    change (true && decide (128 ≤ (Json.obj _).width "width" 1)) = false
    rw [Json.width_eq hword, Bool.true_and, decide_eq_false_iff_not]
    omega
  | _ => exact ⟨.input, rfl, by decide, rfl⟩

theorem exists_sheet {library : Library} (hlibrary : library.Furnished) (hwidth : 1 ≤ width)
    (hword : width ≤ 64) (hids : ((places count).map id).Nodup) :
    ∃ level, Sheet library (rippleCarry id width count) level := by
  obtain ⟨level, hlevel⟩ := exists_level hids Place.height
  have hnames : (rippleCarry id width count).components.map (·.id) = (places count).map id := by
    rw [rippleCarry, List.map_map]
    exact List.map_congr_left fun place _ => component_id id width place
  refine ⟨level, hlibrary, hnames ▸ hids, fun found hmem => ?_, disjoint_wires hids,
    fun found hmem => ?_⟩
  · obtain ⟨place, -, rfl⟩ := List.mem_map.mp hmem
    exact kind_component hword place
  · obtain ⟨⟨digit, leg⟩, htie, rfl⟩ := List.mem_map.mp hmem
    have hdigit := mem_ties.mp htie
    refine ⟨_, _, leg.width width, rfl, ?_, drives_source hword hdigit,
      List.forall_mem_singleton.mpr (hears_sink hword hdigit hlevel)⟩
    cases leg <;> simp only [Leg.width] <;> omega

/-! ## The settled chain -/

section

variable {library : Library} {level : String → Nat} {netlist : Netlist} {root : Spot}
  {before after : State}
  (h : LaidSheet library (rippleCarry id width count) level netlist root)
  (hsettled : netlist.Settled before after) (hsound : State.Sound netlist after)
  (hword : width ≤ 64) (hdigit : digit < count)

include h hsettled hword hdigit

/-- An adder sees what its legs come from. -/
theorem wordAt_sink (leg : Leg) : netlist.wordAt after (sink id leg digit) =
    trim (leg.width width) (netlist.wordAt after (source id leg digit)) :=
  h.wordAt_sink hsettled (List.mem_map_of_mem (mem_ties.mpr hdigit)) rfl
    (drives_source hword hdigit) (List.mem_singleton_self _)

include hsound

/-- An adder shows a digit of the sum of what it sees, and hands the rest on, which is a
single bit. -/
theorem adder_digit :
    (netlist.wordAt after ⟨id (.adder digit), "out"⟩).toNat +
        (netlist.wordAt after (source id .carry (digit + 1))).toNat * 2 ^ width =
      (netlist.wordAt after (sink id .a digit)).toNat +
        (netlist.wordAt after (sink id .b digit)).toNat +
        (netlist.wordAt after (sink id .carry digit)).toNat ∧
    trim 1 (netlist.wordAt after (source id .carry (digit + 1))) =
      netlist.wordAt after (source id .carry (digit + 1)) := by
  have hwired := h.flat.wired
  obtain ⟨index, hhouses⟩ := h.exists_houses .adder
    (mem_components (mem_places.mpr hdigit : Place.adder digit ∈ places count)) rfl
  have hwide : (component id width (.adder digit)).args.width "width" 1 = width :=
    Json.width_eq hword _
  have hout := hhouses.adder_shows hsettled hwired hsound
  have hcarry := hhouses.adder_carries hsettled hwired hsound rfl
  rw [hwide] at hout hcarry
  -- what an adder sees has passed a wire, and fits the width of the wire
  have hfit : ∀ leg : Leg, (netlist.wordAt after (sink id leg digit)).toNat <
      span (leg.width width) := fun leg => by
    rw [wordAt_sink h hsettled hword hdigit]
    exact toNat_trim_lt _ _
  have ha := span_eq_pow hword ▸ hfit .a
  have hb := span_eq_pow hword ▸ hfit .b
  have hc : (netlist.wordAt after (sink id .carry digit)).toNat < 2 := hfit .carry
  have hsum : netlist.addends after (component id width (.adder digit)) =
      (netlist.wordAt after (sink id .a digit)).toNat +
        (netlist.wordAt after (sink id .b digit)).toNat +
        (netlist.wordAt after (sink id .carry digit)).toNat := by
    have hin : (component id width (.adder digit)).args.flag "carryIn" false = true := rfl
    rw [Netlist.addends, if_pos hin]
    exact congrArg (_ + _ + ·) (Nat.mod_eq_of_lt hc)
  rw [hsum] at hout hcarry
  rw [show netlist.wordAt after ⟨id (.adder digit), "out"⟩ = _ from hout,
    show netlist.wordAt after (source id .carry (digit + 1)) = _ from hcarry]
  exact ⟨trim_add_bit hword (by omega), trim_bit _⟩

variable {sets : List (String × Word)}
  (hheld : ∀ {input : Component}, input ∈ (rippleCarry id width count).components →
    input.definition = Builtin.input.id →
      netlist.wordAt after ⟨input.id, "out"⟩ = input.held sets)

include hheld

/-- No wire to an adder cuts off anything. -/
theorem source_fits (leg : Leg) :
    trim (leg.width width) (netlist.wordAt after (source id leg digit)) =
      netlist.wordAt after (source id leg digit) := by
  have hinput : ∀ place ∈ places count,
      (component id width place).definition = Builtin.input.id →
      trim ((component id width place).args.width "width" 1)
        (netlist.wordAt after ⟨id place, "out"⟩) = netlist.wordAt after ⟨id place, "out"⟩ := by
    intro place hplace hdefinition
    rw [show netlist.wordAt after ⟨id place, "out"⟩ = _ from
      component_id id width place ▸ hheld (mem_components hplace) hdefinition]
    exact (component id width place).trim_held sets
  have hplace : (leg.source digit).1 ∈ places count := source_mem hdigit
  have hwide : ∀ place ≠ Place.carry, (component id width place).args.width "width" 1 = width := by
    intro place hne
    cases place with
    | carry => exact absurd rfl hne
    | _ => exact Json.width_eq hword _
  cases leg with
  | a => exact hwide (.a digit) nofun ▸ hinput (.a digit) hplace rfl
  | b => exact hwide (.b digit) nofun ▸ hinput (.b digit) hplace rfl
  | carry =>
    cases digit with
    | zero => exact hinput .carry hplace rfl
    | succ digit =>
      exact (adder_digit h hsettled hsound hword (Nat.lt_of_succ_lt hdigit)).2

/-- What an adder makes of its inputs and of the carry that it gets. -/
theorem digit_of_held :
    (netlist.wordAt after ⟨id (.adder digit), "out"⟩).toNat +
        (netlist.wordAt after (source id .carry (digit + 1))).toNat * 2 ^ width =
      ((component id width (.a digit)).held sets).toNat +
        ((component id width (.b digit)).held sets).toNat +
        (netlist.wordAt after (source id .carry digit)).toNat := by
  have hsink : ∀ leg : Leg, netlist.wordAt after (sink id leg digit) =
      netlist.wordAt after (source id leg digit) := fun leg =>
    (wordAt_sink h hsettled hword hdigit leg).trans
      (source_fits h hsettled hsound hword hdigit hheld leg)
  have ha : netlist.wordAt after (source id .a digit) = _ :=
    hheld (mem_components (mem_places.mpr hdigit : Place.a digit ∈ places count)) rfl
  have hb : netlist.wordAt after (source id .b digit) = _ :=
    hheld (mem_components (mem_places.mpr hdigit : Place.b digit ∈ places count)) rfl
  rw [(adder_digit h hsettled hsound hword hdigit).1, hsink, hsink, hsink, ha, hb]

omit hdigit in
theorem sum_of_held :
    ∑ digit ∈ Finset.range count,
        (netlist.wordAt after ⟨id (.adder digit), "out"⟩).toNat * 2 ^ (width * digit) +
        (netlist.wordAt after (source id .carry count)).toNat * 2 ^ (width * count) =
      ∑ digit ∈ Finset.range count,
          ((component id width (.a digit)).held sets).toNat * 2 ^ (width * digit) +
        ∑ digit ∈ Finset.range count,
          ((component id width (.b digit)).held sets).toNat * 2 ^ (width * digit) +
        ((component id width .carry).held sets).toNat := by
  have hfirst := @hheld (component id width .carry) (mem_components (mem_places.mpr trivial)) rfl
  have hsum := sum_of_digits (2 ^ width)
    (fun digit => (netlist.wordAt after ⟨id (.adder digit), "out"⟩).toNat)
    (fun digit => ((component id width (.a digit)).held sets).toNat)
    (fun digit => ((component id width (.b digit)).held sets).toNat)
    (fun digit => (netlist.wordAt after (source id .carry digit)).toNat)
    fun digit hdigit => digit_of_held h hsettled hsound hword hdigit hheld
  simp only [pow_mul]
  rw [hsum]
  exact congrArg (_ + _ + UInt64.toNat ·) hfirst

end

/-- The ports of an adder are read by its id and their own. -/
theorem peekPort_adder {library : Library} {level : String → Nat} {netlist : Netlist}
    {root : Spot} {simulation : Simulation}
    (h : LaidSheet library (rippleCarry id width count) level netlist root) (hsame : simulation.netlist = netlist) (hdigit : digit < count) {port text : String}
    {position : Nat} (htext : text.toList = '.' :: port.toList) (hfree : '.' ∉ port.toList)
    (hfound : (Builtin.adder.assemble (component id width (.adder digit)).args).ports.findIdx?
      (·.id = port) = some position) :
    simulation.peekPort (id (.adder digit) ++ text) =
      .ok (netlist.wordAt simulation.state ⟨id (.adder digit), port⟩) := by
  obtain ⟨index, hhouses⟩ := h.exists_houses .adder
    (mem_components (mem_places.mpr hdigit : Place.adder digit ∈ places count)) rfl
  refine (hhouses.peekPort_eq hsame ?_ hfree hfound).trans
    (congrArg Except.ok (hhouses.wordAt_port port position hfound simulation.state).symm)
  rw [String.toList_append, htext]
  rfl

/-- What an input of the chain holds in a run. -/
def held (id : Place → String) (width : Nat) (commands : List Simulation.Command)
    (place : Place) : Nat :=
  ((component id width place).held (Simulation.sets commands)).toNat

end RippleCarry

open RippleCarry in
/-- A chain of adders adds: whatever is done with the circuit and whatever its inputs are
set to, after a settle the digits that it shows and its last carry are the sum of the
numbers at its inputs and of the first carry. -/
theorem Simulation.ripple_carry_adds {library : Library} {id : Place → String}
    {width count : Nat} (hlibrary : library.Furnished) (hwidth : 1 ≤ width) (hword : width ≤ 64)
    (hcount : 1 ≤ count) (hids : ((places count).map id).Nodup) :
    ∃ first, start library (rippleCarry id width count) = .ok first ∧
      ∀ commands : List Command,
        let settled := (commands.foldl obey first).settle
        ∃ (out : Nat → Word) (carry : Word),
          (∀ digit < count, settled.peekPort (id (.adder digit) ++ ".out") = .ok (out digit)) ∧
          settled.peekPort (id (.adder (count - 1)) ++ ".cout") = .ok carry ∧
          ∑ digit ∈ Finset.range count, (out digit).toNat * 2 ^ (width * digit) +
            carry.toNat * 2 ^ (width * count) =
          ∑ digit ∈ Finset.range count, held id width commands (.a digit) * 2 ^ (width * digit) +
            ∑ digit ∈ Finset.range count, held id width commands (.b digit) * 2 ^ (width * digit) +
            held id width commands .carry := by
  obtain ⟨level, hsheet⟩ := exists_sheet hlibrary hwidth hword hids
  obtain ⟨root, hlaid⟩ := hsheet.exists_laidSheet
  have hstart := start_eq hlaid.fault_eq_none
  refine ⟨_, hstart, fun commands => ?_⟩
  intro settled
  obtain ⟨hsame, hsettled, hsound, hheld⟩ := settled_run hlaid hstart commands
  let word (digit : Nat) (port : String) : Word :=
    (flatten library (rippleCarry id width count)).wordAt settled.state ⟨id (.adder digit), port⟩
  obtain ⟨last, rfl⟩ := Nat.exists_eq_add_of_le' hcount
  refine ⟨(word · "out"), word last "cout", fun digit hdigit => ?_, ?_, ?_⟩
  · exact peekPort_adder hlaid hsame hdigit (by decide) (by decide) rfl
  · exact peekPort_adder hlaid hsame (Nat.lt_succ_self last) (by decide) (by decide) rfl
  · exact sum_of_held hlaid hsettled hsound hword hheld

/-! ## Full words -/

namespace RippleCarry

/-- Names for the components of a chain, with one star for each digit below. -/
def tallied : Place → String
  | .carry => "c"
  | .a digit => .ofList ('a' :: List.replicate digit '*')
  | .b digit => .ofList ('b' :: List.replicate digit '*')
  | .adder digit => .ofList ('+' :: List.replicate digit '*')

theorem tallied_injective : Function.Injective tallied := by
  have hlist : ∀ place, (tallied place).toList = match place with
      | .carry => ['c']
      | .a digit => 'a' :: List.replicate digit '*'
      | .b digit => 'b' :: List.replicate digit '*'
      | .adder digit => '+' :: List.replicate digit '*' := fun place => by
    cases place <;> simp [tallied]
  intro place other h
  have hsame := congrArg String.toList h
  rw [hlist, hlist] at hsame
  cases place <;> cases other <;> simp_all

theorem nodup_places : (places count).Nodup := by
  refine List.nodup_cons.mpr ⟨by simp, List.nodup_flatMap.mpr ⟨fun digit _ => by simp, ?_⟩⟩
  refine List.nodup_range.imp fun {digit other} hne => ?_
  simp [Function.onFun, Ne.symm hne]

end RippleCarry

open RippleCarry in
/-- Two full words and a carry overflow both digits. -/
theorem Simulation.ripple_carry_adds_full :
    ∃ first, start Library.builtin (rippleCarry tallied 64 2) = .ok first ∧
      let full := [.set "a" (mask 64), .set "a*" (mask 64), .set "c" 1]
      let settled := (full.foldl obey first).settle
      settled.peekPort "+.out" = .ok 0 ∧ settled.peekPort "+*.out" = .ok 0 ∧
        settled.peekPort "+*.cout" = .ok 1 := by
  obtain ⟨first, hstart, hadds⟩ := @ripple_carry_adds Library.builtin tallied 64 2
    Library.furnished_builtin (by decide) (Nat.le_refl 64) (by decide)
    (nodup_places.map tallied_injective)
  refine ⟨first, hstart, ?_⟩
  intro full settled
  obtain ⟨out, carry, hout, hcarry, hsum⟩ := hadds full
  have ha : held tallied 64 full (.a 0) = 2 ^ 64 - 1 := rfl
  have ha' : held tallied 64 full (.a 1) = 2 ^ 64 - 1 := rfl
  have hb : held tallied 64 full (.b 0) = 0 := rfl
  have hb' : held tallied 64 full (.b 1) = 0 := rfl
  have hc : held tallied 64 full .carry = 1 := rfl
  simp only [Finset.sum_range_succ, Finset.sum_range_zero, ha, ha', hb, hb', hc] at hsum
  have hlow := (out 0).toNat_lt
  have hhigh := (out 1).toNat_lt
  have hzero : (out 0).toNat = 0 ∧ (out 1).toNat = 0 ∧ carry.toNat = 1 := by omega
  have hout₀ : settled.peekPort "+.out" = .ok (out 0) := hout 0 (by decide)
  have hout₁ : settled.peekPort "+*.out" = .ok (out 1) := hout 1 (by decide)
  have hcarry : settled.peekPort "+*.cout" = .ok carry := hcarry
  rw [hout₀, hout₁, hcarry, UInt64.toNat.inj (hzero.1.trans UInt64.toNat_zero.symm),
    UInt64.toNat.inj (hzero.2.1.trans UInt64.toNat_zero.symm),
    UInt64.toNat.inj (hzero.2.2.trans UInt64.toNat_one.symm)]
  exact ⟨rfl, rfl, rfl⟩

end Breadboard
