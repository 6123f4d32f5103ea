/-!
# Machine words

Every value on a pin, on a net or in a memory is a 64-bit word. Ports and
nets have a width that may be any number; `span` is the number of values a
width can tell apart, and `mask` and `trim` are the only places where a width
meets a word. `toNat_mask` and `toNat_trim` say what they compute in `Nat`.
-/

namespace Breadboard

/-- The value of a pin, a net or a memory cell. -/
abbrev Word := UInt64

/-- The number of values of a width, which are at most those of a word. -/
def span (width : Nat) : Nat :=
  1 <<< min width 64

/-- The word whose lowest `width` bits are set. From width 64 on that is
every bit. -/
def mask (width : Nat) : Word :=
  UInt64.ofNat (span width - 1)

/-- The lowest `width` bits of a word. -/
def trim (width : Nat) (value : Word) : Word :=
  value &&& mask width

theorem span_pos (width : Nat) : 0 < span width := by
  rw [span, Nat.one_shiftLeft]
  exact Nat.two_pow_pos _

theorem span_le (width : Nat) : span width ≤ UInt64.size := by
  rw [span, Nat.one_shiftLeft]
  exact Nat.pow_le_pow_right (by decide) (Nat.min_le_right width 64)

theorem toNat_mask (width : Nat) : (mask width).toNat = span width - 1 := by
  have hpos := span_pos width
  have hle := span_le width
  rw [mask, UInt64.toNat_ofNat']
  exact Nat.mod_eq_of_lt (by simp only [UInt64.size] at hle; omega)

theorem toNat_trim (width : Nat) (value : Word) :
    (trim width value).toNat = value.toNat % span width := by
  rw [trim, UInt64.toNat_and, toNat_mask, span, Nat.one_shiftLeft,
    Nat.and_two_pow_sub_one_eq_mod]

theorem toNat_trim_lt (width : Nat) (value : Word) : (trim width value).toNat < span width := by
  rw [toNat_trim]
  exact Nat.mod_lt _ (span_pos width)

theorem trim_trim (width : Nat) (value : Word) :
    trim width (trim width value) = trim width value := by
  apply UInt64.toNat_inj.mp
  rw [toNat_trim, Nat.mod_eq_of_lt (toNat_trim_lt width value)]

theorem trim_le_mask (width : Nat) (value : Word) : trim width value ≤ mask width := by
  rw [UInt64.le_iff_toNat_le, toNat_mask]
  have := toNat_trim_lt width value
  omega

end Breadboard
