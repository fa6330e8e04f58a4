import OrderedKey.Bytes.BigEndian

/-!
# Integers

An integer is written as a sign, a width and a field of that many bytes,
and the type code in front carries sign and width. Longer means further
from zero, so the codes alone order integers of different widths, and
within one width the field does.

* A non-negative integer is written as itself, in the fewest bytes that
  hold it – zero in none.
* A negative integer has as many bytes as its magnitude needs, and the
  field is what the magnitude lacks to the largest one of that width. The
  field therefore grows as the integer does, towards zero.

The reader takes any width up to `maxWidth`, the fewest or not. What it
reads may lie outside the 64-bit integers, so the arithmetic is done on
unbounded integers and `int64?` has the last word.
-/

namespace OrderedKey.Integer

/-- The widest field of an integer, in bytes. -/
def maxWidth : Nat := 8

/-- The largest magnitude of a width. -/
def limit (width : Nat) : Nat := capacity width - 1

/-- The fewest bytes that hold a magnitude. -/
def width (magnitude : Nat) : Nat :=
  if magnitude = 0 then 0 else Nat.log2 magnitude / 8 + 1

/-- The 64-bit integer of that value, when there is one. -/
def int64? (n : Int) : Option Int64 :=
  if Int64.minValue.toInt ≤ n ∧ n ≤ Int64.maxValue.toInt then some (Int64.ofInt n) else none

/-- The field of an integer in `width` bytes. -/
def field (width : Nat) (n : Int) : Bytes :=
  bigEndian width (if 0 ≤ n then n.natAbs else limit width - n.natAbs)

/-- The integer that a field writes behind a code for non-negative ones. -/
def ofNonnegative (field : Bytes) : Int := value field

/-- The integer that a field writes behind a code for negative ones. -/
def ofNegative (field : Bytes) : Int := (value field : Int) - limit field.length

/-- A width holds the magnitudes up to its limit. -/
theorem lt_capacity_iff {magnitude width : Nat} :
    magnitude < capacity width ↔ magnitude ≤ limit width := by
  have hpos := capacity_pos width
  unfold limit
  omega

/-- **No width below `width` is enough, and from there on all are.** -/
theorem width_le_iff {magnitude w : Nat} : width magnitude ≤ w ↔ magnitude < capacity w := by
  unfold width
  split
  · rename_i h
    exact iff_of_true (Nat.zero_le w) (h ▸ capacity_pos w)
  · rename_i h
    have hlog : Nat.log2 magnitude < 8 * w ↔ magnitude < Nat.pow 2 (8 * w) := Nat.log2_lt h
    rw [capacity_eq_two_pow, ← hlog]
    omega

/-- A magnitude fits its own width. -/
theorem lt_capacity_width (magnitude : Nat) : magnitude < capacity (width magnitude) :=
  width_le_iff.1 (Nat.le_refl _)

/-- Only zero is written in no bytes. -/
theorem width_eq_zero_iff {magnitude : Nat} : width magnitude = 0 ↔ magnitude = 0 := by
  have h := @width_le_iff magnitude 0
  rw [capacity_zero] at h
  omega

/-- A 64-bit integer needs no more than `maxWidth` bytes. -/
theorem width_toInt_le (n : Int64) : width n.toInt.natAbs ≤ maxWidth := by
  have hlow := n.le_toInt
  have hhigh := n.toInt_lt
  have hcapacity : capacity maxWidth = 18446744073709551616 := rfl
  rw [width_le_iff, hcapacity]
  omega

/-- The 64-bit integer of a value is the one that has it. -/
theorem int64?_eq_some_iff {z : Int} {n : Int64} : int64? z = some n ↔ n.toInt = z := by
  have hlow := n.le_toInt
  have hhigh := n.toInt_lt
  have hmin : Int64.minValue.toInt = -9223372036854775808 := rfl
  have hmax : Int64.maxValue.toInt = 9223372036854775807 := rfl
  unfold int64?
  rw [hmin, hmax]
  constructor
  · intro h
    split at h
    · rename_i hz
      cases h
      exact Int64.toInt_ofInt_of_le (by omega) (by omega)
    · cases h
  · rintro rfl
    rw [if_pos (by omega), Int64.ofInt_toInt]

/-- A value has no 64-bit integer exactly when it is out of their range. -/
theorem int64?_eq_none_iff {z : Int} :
    int64? z = none ↔ z < -0x8000000000000000 ∨ 0x8000000000000000 ≤ z := by
  have hmin : Int64.minValue.toInt = -9223372036854775808 := rfl
  have hmax : Int64.maxValue.toInt = 9223372036854775807 := rfl
  unfold int64?
  rw [hmin, hmax]
  split
  · exact iff_of_false (by simp) (by omega)
  · exact iff_of_true rfl (by omega)

@[simp] theorem length_field (width : Nat) (n : Int) : (field width n).length = width :=
  length_bigEndian _ _

/-- **A field of any width that is enough reads back**, from zero on. -/
theorem ofNonnegative_field {width : Nat} {n : Int} (hn : 0 ≤ n)
    (h : n.natAbs < capacity width) : ofNonnegative (field width n) = n := by
  rw [ofNonnegative, field, if_pos hn, value_bigEndian_of_lt h]
  omega

/-- **A field of any width that is enough reads back**, below zero. -/
theorem ofNegative_field {width : Nat} {n : Int} (hn : n < 0)
    (h : n.natAbs < capacity width) : ofNegative (field width n) = n := by
  have hle := lt_capacity_iff.1 h
  have hlt : limit width - n.natAbs < capacity width := lt_capacity_iff.2 (Nat.sub_le _ _)
  rw [ofNegative, length_field, field, if_neg (by omega), value_bigEndian_of_lt hlt]
  omega

end OrderedKey.Integer
