import Breadboard.Word
import Mathlib.Data.List.Basic

/-!
# Guarded computation

No definition of the library fails: beyond its end a list has a default entry, and what
is taken from a smaller number leaves zero. A machine stops instead, and so does a
`Guarded` computation: it reads tables by `entry` and `change`, counts by `sub`, `count`,
`rem`, `shiftLeft` and `shiftRight`, and returns a `Trap` where there is no such entry
or number. A computation that returns the result of the plain definition has met none.
Folds and maps do so where each step does (`foldlM_eq`, `mapM_eq`).
-/

namespace Breadboard

/-- What a machine stops at. -/
inductive Trap where
  /-- An index beyond the end of its table. -/
  | index
  /-- A subtraction below zero. -/
  | underflow
  /-- A count beyond the largest word. -/
  | overflow
  /-- A remainder by zero. -/
  | remainder
  /-- A shift by the width of the number or more. -/
  | shift
  /-- A choice from nothing. -/
  | choice
  /-- A definition that is expanded inside itself. -/
  | endless
  deriving DecidableEq, Repr

/-- A computation that may meet a trap. -/
abbrev Guarded := Except Trap

namespace Guarded

variable {α β : Type}

/-! ## Tables -/

/-- The entry of a table. -/
def entry (table : List α) (index : Nat) : Guarded α :=
  match table[index]? with
  | some a => .ok a
  | none => .error .index

/-- An index of a table with `size` entries. -/
def within (size index : Nat) : Guarded Nat :=
  if index < size then .ok index else .error .index

/-- Change the entry of a table. -/
def change (table : List α) (index : Nat) (f : α → α) : Guarded (List α) :=
  if index < table.length then .ok (table.modify index f) else .error .index

/-- Replace the entry of a table. -/
def replace (table : List α) (index : Nat) (a : α) : Guarded (List α) :=
  if index < table.length then .ok (table.set index a) else .error .index

/-! ## Numbers -/

def sub (a b : Nat) : Guarded Nat :=
  if b ≤ a then .ok (a - b) else .error .underflow

def rem (a b : Nat) : Guarded Nat :=
  if b = 0 then .error .remainder else .ok (a % b)

/-- One more than a word. -/
def count (a : Nat) : Guarded Nat :=
  if a + 1 < UInt64.size then .ok (a + 1) else .error .overflow

/-- Shift a number of `bits` bits to the left. -/
def shiftLeft (bits a count : Nat) : Guarded Nat :=
  if count < bits then .ok (a <<< count) else .error .shift

/-- Shift a number of `bits` bits to the right. -/
def shiftRight (bits a count : Nat) : Guarded Nat :=
  if count < bits then .ok (a >>> count) else .error .shift

/-- The word whose lowest `width` bits are set. -/
def mask (width : Nat) : Guarded Word :=
  if 64 ≤ width then .ok (.ofNat (UInt64.size - 1))
  else do
    let above ← shiftLeft 64 1 width
    return .ofNat (← sub above 1)

def trim (width : Nat) (value : Word) : Guarded Word := do
  return value &&& (← mask width)

/-! ## Lists -/

/-- What is found for the members of a list. -/
def gather (f : α → Guarded (Option β)) (list : List α) : Guarded (List β) := do
  return (← list.mapM f).filterMap id

/-- The lists that are found for the members of a list, one behind the other. -/
def join (f : α → Guarded (List β)) (list : List α) : Guarded (List β) := do
  return (← list.mapM f).flatten

/-- The members of a list that pass a test. -/
def keep (p : α → Guarded Bool) (list : List α) : Guarded (List α) := do
  let tested ← list.mapM fun a => do return (a, ← p a)
  return (tested.filter (·.2)).map (·.1)

/-- Whether some member of a list passes a test. -/
def any (p : α → Guarded Bool) (list : List α) : Guarded Bool := do
  return (← list.mapM p).any id

/-! ## What meets no trap -/

@[simp] theorem ok_bind (a : α) (f : α → Guarded β) : (Except.ok a >>= f) = f a := rfl

@[simp] theorem pure_eq_ok (a : α) : (pure a : Guarded α) = .ok a := rfl

variable {table : List α} {index size a b shift bits : Nat}

theorem entry_eq {x : α} (h : table[index]? = some x) : entry table index = .ok x := by
  rw [entry, h]

theorem entry_eq_getD (h : index < table.length) (x : α) :
    entry table index = .ok (table.getD index x) := by
  rw [entry_eq (List.getElem?_eq_getElem h), List.getD_eq_getElem?_getD,
    List.getElem?_eq_getElem h]
  rfl

theorem within_eq (h : index < size) : within size index = .ok index :=
  if_pos h

theorem change_eq (h : index < table.length) (f : α → α) :
    change table index f = .ok (table.modify index f) :=
  if_pos h

theorem replace_eq (h : index < table.length) (x : α) :
    replace table index x = .ok (table.set index x) :=
  if_pos h

theorem modify_eq_set {x : α} (h : table[index]? = some x) (f : α → α) :
    table.modify index f = table.set index (f x) := by
  refine List.ext_getElem? fun other => ?_
  rw [List.getElem?_modify]
  by_cases hother : index = other
  · subst hother
    rw [h, List.getElem?_set_self (List.getElem?_eq_some_iff.mp h).1]
    simp
  · rw [List.getElem?_set_ne hother]
    simp [hother]

theorem sub_eq (h : b ≤ a) : sub a b = .ok (a - b) :=
  if_pos h

theorem rem_eq (h : 0 < b) : rem a b = .ok (a % b) :=
  if_neg (Nat.ne_of_gt h)

theorem count_eq (h : a + 1 < UInt64.size) : count a = .ok (a + 1) :=
  if_pos h

theorem shiftLeft_eq (h : shift < bits) : shiftLeft bits a shift = .ok (a <<< shift) :=
  if_pos h

theorem shiftRight_eq (h : shift < bits) : shiftRight bits a shift = .ok (a >>> shift) :=
  if_pos h

/-- A mask is found without a trap, however wide it is. -/
theorem mask_eq (width : Nat) : mask width = .ok (Breadboard.mask width) := by
  by_cases h : 64 ≤ width
  · rw [mask, if_pos h, Breadboard.mask, span, Nat.min_eq_right h]
    rfl
  · have hlt : width < 64 := Nat.not_le.mp h
    have hpos : 1 ≤ 1 <<< width := by
      rw [Nat.one_shiftLeft]
      exact Nat.one_le_two_pow
    rw [mask, if_neg h, shiftLeft_eq hlt, ok_bind, sub_eq hpos, Breadboard.mask, span,
      Nat.min_eq_left (Nat.le_of_lt hlt)]
    rfl

@[simp] theorem trim_eq (width : Nat) (value : Word) :
    trim width value = .ok (Breadboard.trim width value) := by
  rw [trim, mask_eq]
  rfl

/-! ## Repetition -/

/-- A fold whose steps meet no trap, given what they preserve. -/
theorem foldlM_eq {σ : Type} {step : σ → α → Guarded σ} {plain : σ → α → σ}
    (Valid : σ → Prop) : ∀ {items : List α} {state : σ},
    (∀ state, ∀ item ∈ items, Valid state →
      step state item = .ok (plain state item) ∧ Valid (plain state item)) →
    Valid state → items.foldlM step state = .ok (items.foldl plain state) ∧
      Valid (items.foldl plain state) := by
  intro items
  induction items with
  | nil => exact fun _ h => ⟨rfl, h⟩
  | cons item items ih =>
    intro state hstep h
    obtain ⟨heq, hvalid⟩ := hstep state item (List.mem_cons_self ..) h
    rw [List.foldlM_cons, heq, ok_bind, List.foldl_cons]
    exact ih (fun next other hother => hstep next other (List.mem_cons_of_mem _ hother)) hvalid

theorem mapM_eq {f : α → Guarded β} {plain : α → β} : ∀ {items : List α},
    (∀ item ∈ items, f item = .ok (plain item)) → items.mapM f = .ok (items.map plain) := by
  intro items
  induction items with
  | nil => exact fun _ => rfl
  | cons item items ih =>
    intro h
    rw [List.mapM_cons, h item (List.mem_cons_self ..), ok_bind,
      ih fun other hother => h other (List.mem_cons_of_mem _ hother)]
    rfl

theorem mapM_entry {positions : List Nat} (h : ∀ position ∈ positions, position < table.length) :
    positions.mapM (entry table) = .ok (positions.filterMap (table[·]?)) := by
  induction positions with
  | nil => rfl
  | cons position positions ih =>
    have hfound := List.getElem?_eq_getElem (h position (List.mem_cons_self ..))
    rw [List.mapM_cons, entry_eq hfound, ok_bind,
      ih fun other hother => h other (List.mem_cons_of_mem _ hother),
      List.filterMap_cons_some hfound]
    rfl

theorem gather_eq {f : α → Guarded (Option β)} {plain : α → Option β} {list : List α}
    (h : ∀ a ∈ list, f a = .ok (plain a)) : gather f list = .ok (list.filterMap plain) := by
  rw [gather, mapM_eq h, ok_bind, List.filterMap_map]
  rfl

theorem join_eq {f : α → Guarded (List β)} {plain : α → List β} {list : List α}
    (h : ∀ a ∈ list, f a = .ok (plain a)) : join f list = .ok (list.flatMap plain) := by
  rw [join, mapM_eq h, ok_bind, List.flatMap_def]
  rfl

theorem keep_eq {p : α → Guarded Bool} {plain : α → Bool} {list : List α}
    (h : ∀ a ∈ list, p a = .ok (plain a)) : keep p list = .ok (list.filter plain) := by
  have htested : ∀ a ∈ list, (do return (a, ← p a) : Guarded (α × Bool)) = .ok (a, plain a) :=
    fun a ha => by rw [h a ha]; rfl
  rw [keep, mapM_eq htested, ok_bind, List.filter_map, List.map_map]
  exact congrArg Except.ok (List.map_id' _)

theorem any_eq {p : α → Guarded Bool} {plain : α → Bool} {list : List α}
    (h : ∀ a ∈ list, p a = .ok (plain a)) : any p list = .ok (list.any plain) := by
  rw [any, mapM_eq h, ok_bind, List.any_map]
  rfl

/-- What passes a check unchanged. -/
theorem mapM_eq_self {f : α → Guarded α} {items : List α} (h : ∀ item ∈ items, f item = .ok item) :
    items.mapM f = .ok items := by
  rw [mapM_eq h, List.map_id']

end Guarded

end Breadboard
