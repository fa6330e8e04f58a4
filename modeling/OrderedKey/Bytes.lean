/-!
# Byte strings

A key is a byte string, and keys are ordered the way a dictionary orders
words: the first byte that differs decides, and a string that stops first
is the smaller. That order is `compare` on `List UInt8`, and all else in
this library is arranged so that it says something about values.

Fixed-width fields are the other recurring shape: a `Block n` is a byte
string with its length in its type, and `Block.leading?` reads one off the
front of a longer string, when the string is long enough. Blocks side by
side are a block (`append`), which `first` and `last` take apart again.

`compare_append_of_length_eq` is what lets fields be compared one after
the other: two strings that begin with fields of one length are ordered by
those fields, and by what follows only where the fields agree.

Where a text shows bytes, it shows them in hexadecimal digits (`Hex`).
-/

namespace OrderedKey

/-- A byte string, first byte first. -/
abbrev Bytes : Type := List UInt8

/-- An order that is read off `<` and `=` is kept by every map that keeps
those. -/
theorem compareOfLessAndEq_map {α β : Type} [LT α] [DecidableLT α] [DecidableEq α] [LT β]
    [DecidableLT β] [DecidableEq β] (f : α → β) (hlt : ∀ {a b}, a < b ↔ f a < f b)
    (heq : ∀ {a b}, f a = f b ↔ a = b) (a b : α) :
    compareOfLessAndEq (f a) (f b) = compareOfLessAndEq a b := by
  simp only [compareOfLessAndEq, hlt, heq]

/-- **Words are ordered as the numbers they are**, whatever their width. -/
theorem compare_toNat (a b : UInt8) : compare a.toNat b.toNat = compare a b :=
  compareOfLessAndEq_map UInt8.toNat UInt8.lt_iff_toNat_lt UInt8.toNat_inj a b

theorem compare_uint16_toNat (a b : UInt16) : compare a.toNat b.toNat = compare a b :=
  compareOfLessAndEq_map UInt16.toNat UInt16.lt_iff_toNat_lt UInt16.toNat_inj a b

theorem compare_uint64_toNat (a b : UInt64) : compare a.toNat b.toNat = compare a b :=
  compareOfLessAndEq_map UInt64.toNat UInt64.lt_iff_toNat_lt UInt64.toNat_inj a b

/-- **Fields decide before what follows them**: strings that begin with
equally long fields are ordered by the fields, and only equal fields leave
the decision to the rest. -/
theorem compare_append_of_length_eq {a b : Bytes} (h : a.length = b.length)
    (x y : Bytes) : compare (a ++ x) (b ++ y) = (compare a b).then (compare x y) := by
  induction a generalizing b with
  | nil =>
    cases b with
    | nil => simp
    | cons => simp at h
  | cons c a ih =>
    cases b with
    | nil => simp at h
    | cons d b =>
      have hlen : a.length = b.length := by simpa using h
      simp only [List.cons_append, List.compare_cons_cons, ih hlen, Ordering.then_assoc]

/-- A byte string of exactly `n` bytes. -/
structure Block (n : Nat) where
  /-- The bytes themselves. -/
  bytes : Bytes
  /-- There are `n` of them. -/
  length_bytes : bytes.length = n
deriving DecidableEq

namespace Block

variable {n : Nat}

@[ext] theorem ext {a b : Block n} (h : a.bytes = b.bytes) : a = b := by
  cases a; cases b; simp_all

/-- The first `n` bytes of a string, or nothing when it is shorter. -/
def leading? (n : Nat) (data : Bytes) : Option (Block n) :=
  if h : (data.take n).length = n then some ⟨data.take n, h⟩ else none

/-- A block is read off the front of whatever it is followed by. -/
@[simp] theorem leading?_append (b : Block n) (rest : Bytes) :
    leading? n (b.bytes ++ rest) = some b := by
  have h : (b.bytes ++ rest).take n = b.bytes := List.take_left' b.length_bytes
  simp [leading?, h, b.length_bytes]

/-- **What is read is the front of the string**, and nothing else is. -/
theorem leading?_eq_some_iff {data : Bytes} {b : Block n} :
    leading? n data = some b ↔ data = b.bytes ++ data.drop n := by
  constructor
  · intro h
    unfold leading? at h
    split at h
    · cases h
      exact (List.take_append_drop n data).symm
    · cases h
  · intro h
    rw [h]
    exact leading?_append b _

/-- Reading fails exactly on strings that are too short. -/
theorem leading?_eq_none_iff {data : Bytes} :
    leading? n data = none ↔ data.length < n := by
  unfold leading?
  split
  · rename_i h
    rw [List.length_take] at h
    simp; omega
  · rename_i h
    rw [List.length_take] at h
    simp; omega

variable {m : Nat}

/-- Two blocks side by side. -/
def append (a : Block m) (b : Block n) : Block (m + n) :=
  ⟨a.bytes ++ b.bytes, by rw [List.length_append, a.length_bytes, b.length_bytes]⟩

/-- The first `m` bytes of a block. -/
def first (b : Block (m + n)) : Block m :=
  ⟨b.bytes.take m, by rw [List.length_take, b.length_bytes]; omega⟩

/-- The last `n` bytes of a block. -/
def last (b : Block (m + n)) : Block n :=
  ⟨b.bytes.drop m, by rw [List.length_drop, b.length_bytes]; omega⟩

@[simp] theorem first_append (a : Block m) (b : Block n) : (a.append b).first = a :=
  Block.ext (List.take_left' a.length_bytes)

@[simp] theorem last_append (a : Block m) (b : Block n) : (a.append b).last = b :=
  Block.ext (List.drop_left' a.length_bytes)

/-- **A block is its two parts.** -/
@[simp] theorem append_first_last (b : Block (m + n)) : b.first.append b.last = b :=
  Block.ext (List.take_append_drop m b.bytes)

end Block

namespace Hex

/-- The two lower-case digits of a byte, high half first. -/
def digits (b : UInt8) : List Char :=
  [Nat.digitChar (b.toNat / 16), Nat.digitChar (b.toNat % 16)]

/-- Bytes as lower-case digits, two a byte. -/
def encode (bytes : Bytes) : String := String.ofList (bytes.flatMap digits)

/-- One byte as two upper-case digits. -/
def upper (b : UInt8) : String := String.ofList ((digits b).map Char.toUpper)

end Hex

end OrderedKey
