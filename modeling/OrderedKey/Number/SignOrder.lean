import OrderedKey.Bytes.BigEndian

/-!
# Floats in numeric order

The bits of a float, read as a number, grow with the float where its sign
bit is clear and shrink where it is set. `rank` puts them in one growing
sequence: the negative floats first and turned round, then the others.
Not-a-number patterns have their place in it too, at the two ends, and
`-0.0` stands just before `0.0`; no two patterns share a rank, so every
pattern survives being written.

`half` is the value of the sign bit: the patterns are the numbers below
`2 * half`, those with the sign set from `half` on. What numeric order
means is `signed`, the pattern read as a sign and a magnitude, and
`rank_eq_add_signed` says that a rank is nothing else.
-/

namespace OrderedKey.SignOrder

/-- The place of a bit pattern among those in numeric order. -/
def rank (half bits : Nat) : Nat :=
  if bits < half then half + bits else 2 * half - 1 - bits

/-- The bit pattern that has a place. -/
def unrank (half place : Nat) : Nat :=
  if place < half then 2 * half - 1 - place else place - half

/-- A bit pattern as a sign and a magnitude: from zero upwards where the sign
is clear, and from minus one downwards where it is set. -/
def signed (half bits : Nat) : Int :=
  if bits < half then (bits : Int) else (half : Int) - 1 - bits

variable {half : Nat}

theorem rank_lt {bits : Nat} (h : bits < 2 * half) : rank half bits < 2 * half := by
  unfold rank
  split <;> omega

theorem unrank_lt {place : Nat} (h : place < 2 * half) : unrank half place < 2 * half := by
  unfold unrank
  split <;> omega

/-- **A pattern is found again by its place.** -/
theorem unrank_rank {bits : Nat} (h : bits < 2 * half) : unrank half (rank half bits) = bits := by
  unfold rank unrank
  split <;> split <;> omega

/-- Every place is taken. -/
theorem rank_unrank {place : Nat} (h : place < 2 * half) :
    rank half (unrank half place) = place := by
  unfold rank unrank
  split <;> split <;> omega

variable {width : Nat}

/-- A pattern is found again by the field of its rank, where the field has room
for all of them. -/
theorem unrank_value_bigEndian_rank (hcap : capacity width = 2 * half) {bits : Nat}
    (h : bits < 2 * half) : unrank half (value (bigEndian width (rank half bits))) = bits := by
  rw [value_bigEndian_of_lt (hcap ▸ rank_lt h), unrank_rank h]

/-- A block is the field of the rank of the pattern that is found by it. -/
theorem bigEndian_rank_unrank (hcap : capacity width = 2 * half) (field : Block width) :
    bigEndian width (rank half (unrank half field.toNat)) = field.bytes := by
  rw [rank_unrank (hcap ▸ field.toNat_lt), field.bigEndian_toNat]

/-- **The ranks are in numeric order**: a rank is the signed reading, moved up
to start from zero. -/
theorem rank_eq_add_signed {bits : Nat} (h : bits < 2 * half) :
    (rank half bits : Int) = half + signed half bits := by
  unfold rank signed
  split <;> omega

end OrderedKey.SignOrder
