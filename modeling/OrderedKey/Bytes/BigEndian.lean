import OrderedKey.Bytes

/-!
# Numbers as fixed-width fields

`bigEndian width n` writes the low `width` base-256 digits of `n`, most
significant first, and `value` reads such a field back. Big-endian order
of digits is the point: among fields of one width, the order of the bytes
is the order of the numbers (`compare_bigEndian`), which is why every
number in a key is written this way.

`capacity width` counts the fields of one width, so a number can be
written in `width` bytes without loss exactly when it is below it.

The two directions are `value_bigEndian` – reading gives the number back,
reduced to what the width can hold – and `bigEndian_value` – every byte
string is the field of its own value, so a field has one reading and a
reading has one field.

`littleEndian` is the same field backwards, and is read back from its last
byte (`value_reverse_littleEndian`). It is used for one number only, an
offset that stands behind a key and takes no part in its order.
-/

namespace OrderedKey

/-- How many different fields have `width` bytes. -/
def capacity (width : Nat) : Nat := Nat.pow 256 width

/-- The low `width` base-256 digits of `n`, most significant first. -/
def bigEndian : (width n : Nat) → Bytes
  | 0, _ => []
  | width + 1, n => UInt8.ofNat (n / capacity width) :: bigEndian width n

/-- The low `width` base-256 digits of `n`, least significant first. -/
def littleEndian (width n : Nat) : Bytes := (bigEndian width n).reverse

/-- The number a field writes, its first byte the most significant digit. -/
def value (field : Bytes) : Nat :=
  field.foldl (fun n digit => 256 * n + digit.toNat) 0

@[simp] theorem capacity_zero : capacity 0 = 1 := rfl

theorem capacity_succ (width : Nat) : capacity (width + 1) = 256 * capacity width :=
  Nat.mul_comm (capacity width) 256

theorem capacity_pos (width : Nat) : 0 < capacity width := Nat.pow_pos (by decide)

/-- A wider field holds no less. -/
theorem capacity_le_capacity {v w : Nat} (h : v ≤ w) : capacity v ≤ capacity w :=
  Nat.pow_le_pow_right (by decide) h

/-- A byte holds eight bits. -/
theorem capacity_eq_two_pow (width : Nat) : capacity width = Nat.pow 2 (8 * width) :=
  (Nat.pow_mul 2 8 width).symm

@[simp] theorem length_bigEndian (width n : Nat) : (bigEndian width n).length = width := by
  induction width with
  | zero => rfl
  | succ width ih => rw [bigEndian, List.length_cons, ih]

@[simp] theorem length_littleEndian (width n : Nat) :
    (littleEndian width n).length = width := by
  rw [littleEndian, List.length_reverse, length_bigEndian]

@[simp] theorem value_nil : value [] = 0 := rfl

/-- Digits to the left count once per place to their right. -/
theorem foldl_digits (field : Bytes) (start : Nat) :
    field.foldl (fun n digit => 256 * n + digit.toNat) start
      = start * capacity field.length + value field := by
  induction field generalizing start with
  | nil => rw [List.foldl_nil, List.length_nil, capacity_zero, value_nil]; omega
  | cons digit field ih =>
    have hvalue : value (digit :: field)
        = digit.toNat * capacity field.length + value field := by
      rw [value, List.foldl_cons, ih, Nat.mul_zero, Nat.zero_add]
    rw [List.foldl_cons, ih, hvalue, List.length_cons, capacity_succ, Nat.add_mul,
      Nat.mul_comm 256 start, Nat.mul_assoc]
    omega

theorem value_cons (digit : UInt8) (field : Bytes) :
    value (digit :: field) = digit.toNat * capacity field.length + value field := by
  rw [value, List.foldl_cons, foldl_digits, Nat.mul_zero, Nat.zero_add]

/-- A field's value fits its width. -/
theorem value_lt (field : Bytes) : value field < capacity field.length := by
  induction field with
  | nil => decide
  | cons digit field ih =>
    have hdigit : digit.toNat + 1 ≤ 256 := digit.toNat_lt
    have hstep := Nat.mul_le_mul_right (capacity field.length) hdigit
    rw [Nat.add_mul, Nat.one_mul] at hstep
    rw [value_cons, List.length_cons, capacity_succ]
    omega

/-- **Reading a field gives its number back**, reduced to its width. -/
theorem value_bigEndian (width n : Nat) : value (bigEndian width n) = n % capacity width := by
  induction width with
  | zero => rw [bigEndian, value_nil, capacity_zero, Nat.mod_one]
  | succ width ih =>
    have hdigit : (UInt8.ofNat (n / capacity width)).toNat = n / capacity width % 256 :=
      UInt8.toNat_ofNat'
    have hmod : n % capacity (width + 1)
        = n % capacity width + capacity width * (n / capacity width % 256) := by
      rw [capacity_succ, Nat.mul_comm, Nat.mod_mul]
    rw [bigEndian, value_cons, ih, length_bigEndian, hdigit, hmod,
      Nat.mul_comm (capacity width), Nat.add_comm]

/-- A number that fits is read back as itself. -/
theorem value_bigEndian_of_lt {width n : Nat} (h : n < capacity width) :
    value (bigEndian width n) = n := by
  rw [value_bigEndian, Nat.mod_eq_of_lt h]

/-- A number that fits is read back from its little-endian field, last byte
first. -/
theorem value_reverse_littleEndian {width n : Nat} (h : n < capacity width) :
    value (littleEndian width n).reverse = n := by
  rw [littleEndian, List.reverse_reverse, value_bigEndian_of_lt h]

/-- Digits beyond the width are not written. -/
theorem bigEndian_add_mul (width n k : Nat) :
    bigEndian width (n + capacity width * k) = bigEndian width n := by
  induction width generalizing k with
  | zero => rfl
  | succ width ih =>
    have hsplit : n + capacity (width + 1) * k = n + capacity width * (256 * k) := by
      rw [capacity_succ, Nat.mul_comm 256, Nat.mul_assoc]
    have hdigit : UInt8.ofNat (n / capacity width + 256 * k)
        = UInt8.ofNat (n / capacity width) := by
      apply UInt8.toNat.inj
      rw [UInt8.toNat_ofNat', UInt8.toNat_ofNat', Nat.add_mul_mod_self_left]
    rw [bigEndian, bigEndian, hsplit, ih, Nat.add_mul_div_left _ _ (capacity_pos width), hdigit]

/-- The last bytes of a field are the narrower one. -/
theorem drop_bigEndian (k width n : Nat) :
    (bigEndian (k + width) n).drop k = bigEndian width n := by
  induction k with
  | zero => rw [Nat.zero_add, List.drop_zero]
  | succ k ih => rw [Nat.succ_add, bigEndian, List.drop_succ_cons, ih]

/-- The field of zero. -/
theorem bigEndian_zero (width : Nat) : bigEndian width 0 = List.replicate width 0x00 := by
  induction width with
  | zero => rfl
  | succ width ih =>
    rw [bigEndian, ih, Nat.zero_div]
    rfl

/-- The field of the largest number of a width. -/
theorem bigEndian_capacity_sub_one (width : Nat) :
    bigEndian width (capacity width - 1) = List.replicate width 0xFF := by
  induction width with
  | zero => rfl
  | succ width ih =>
    have hpos := capacity_pos width
    have hsplit : capacity (width + 1) - 1 = capacity width - 1 + capacity width * 255 := by
      rw [capacity_succ]
      omega
    have hdigit : (capacity width - 1 + capacity width * 255) / capacity width = 255 := by
      rw [Nat.add_mul_div_left _ _ hpos, Nat.div_eq_of_lt (by omega), Nat.zero_add]
    rw [hsplit, bigEndian, hdigit, bigEndian_add_mul, ih]
    rfl

/-- **Every byte string is the field of its own value.** -/
theorem bigEndian_value (field : Bytes) : bigEndian field.length (value field) = field := by
  induction field with
  | nil => rfl
  | cons digit field ih =>
    have hdiv : value (digit :: field) / capacity field.length = digit.toNat := by
      rw [value_cons, Nat.add_comm, Nat.add_mul_div_right _ _ (capacity_pos field.length),
        Nat.div_eq_of_lt (value_lt field), Nat.zero_add]
    have hrest : bigEndian field.length (value (digit :: field)) = field := by
      rw [value_cons, Nat.add_comm, Nat.mul_comm, bigEndian_add_mul, ih]
    rw [List.length_cons, bigEndian, hdiv, hrest, UInt8.ofNat_toNat]

/-- **Fields of one width are ordered as their values.** -/
theorem compare_eq_compare_value {a b : Bytes} (h : a.length = b.length) :
    compare a b = compare (value a) (value b) := by
  induction a generalizing b with
  | nil =>
    cases b with
    | nil => rfl
    | cons => cases h
  | cons c a ih =>
    cases b with
    | nil => cases h
    | cons d b =>
      have hlen : a.length = b.length := Nat.succ.inj h
      have ha := value_lt a
      have hb := value_lt b
      rw [List.compare_cons_cons, ih hlen, value_cons, value_cons, hlen, ← compare_toNat]
      rw [hlen] at ha
      generalize capacity b.length = p at ha hb ⊢
      -- Where the leading digits differ they outweigh all that follows them.
      rcases Nat.lt_trichotomy c.toNat d.toNat with hcd | hcd | hcd
      · have hmul := Nat.mul_le_mul_right p hcd
        rw [Nat.succ_mul] at hmul
        rw [Nat.compare_eq_lt.2 hcd, Ordering.lt_then, eq_comm, Nat.compare_eq_lt]
        omega
      · rw [Nat.compare_eq_eq.2 hcd, Ordering.eq_then, hcd]
        simp only [Nat.compare_eq_ite_lt, Nat.add_lt_add_iff_left]
      · have hmul := Nat.mul_le_mul_right p hcd
        rw [Nat.succ_mul] at hmul
        rw [Nat.compare_eq_gt.2 hcd, Ordering.gt_then, eq_comm, Nat.compare_eq_gt]
        omega

/-- Among numbers that fit, the order of the fields is the order of the
numbers. -/
theorem compare_bigEndian {width m n : Nat} (hm : m < capacity width)
    (hn : n < capacity width) :
    compare (bigEndian width m) (bigEndian width n) = compare m n := by
  have hlen : (bigEndian width m).length = (bigEndian width n).length := by
    rw [length_bigEndian, length_bigEndian]
  rw [compare_eq_compare_value hlen, value_bigEndian_of_lt hm, value_bigEndian_of_lt hn]

namespace Block

variable {width : Nat}

/-- The field of a number, as a block of its width. -/
def ofNat (width n : Nat) : Block width := ⟨bigEndian width n, length_bigEndian width n⟩

/-- The number a block writes. -/
def toNat (b : Block width) : Nat := value b.bytes

@[simp] theorem bytes_ofNat (width n : Nat) : (ofNat width n).bytes = bigEndian width n := rfl

theorem toNat_lt (b : Block width) : b.toNat < capacity width := by
  have h := value_lt b.bytes
  rwa [b.length_bytes] at h

theorem toNat_ofNat {n : Nat} (h : n < capacity width) : (ofNat width n).toNat = n :=
  value_bigEndian_of_lt h

/-- A block is the field of its number. -/
theorem bigEndian_toNat (b : Block width) : bigEndian width b.toNat = b.bytes := by
  have h := bigEndian_value b.bytes
  rwa [b.length_bytes] at h

@[simp] theorem ofNat_toNat (b : Block width) : ofNat width b.toNat = b :=
  Block.ext b.bigEndian_toNat

end Block

end OrderedKey
