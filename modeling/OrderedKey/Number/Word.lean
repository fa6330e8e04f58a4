import OrderedKey.Number.Integer
import OrderedKey.TypeCode

/-!
# Integers in words of 64 bits

A 64-bit integer and its field have eight bytes at most, so nothing keeps the
arithmetic on them from being done in machine words, and no program that reads
many keys would do it otherwise. But words wrap round. A difference below zero
and a number with a byte too many come out as some other number, and nothing
shows it.

Here the integers are read and written in words, and whatever may wrap is
checked: where it does there is no result. So a computation that has a result
has not wrapped anywhere on the way. The fewest bytes for a magnitude are not
calculated but looked up in a table of the largest ones.
-/

namespace OrderedKey.Word

/-- The difference, when it is not below zero. -/
def sub? {α : Type} [LE α] [DecidableLE α] [Sub α] (a b : α) : Option α :=
  if b ≤ a then some (a - b) else none

/-- The word moved up by a byte, when no bit of it is lost. -/
def shiftByte? (a : UInt64) : Option UInt64 :=
  if (a <<< 8) >>> 8 = a then some (a <<< 8) else none

/-- The word with a byte put behind it, when no bit of it is lost. -/
def pushByte? (a : UInt64) (digit : UInt8) : Option UInt64 :=
  (shiftByte? a).map (· ||| digit.toUInt64)

/-- The number that a field writes, taken in byte after byte. -/
def value? (field : Bytes) : Option UInt64 := field.foldlM pushByte? 0

/-- The largest magnitude of each width, from no byte to eight. -/
def limits : List UInt64 :=
  [0x0, 0xFF, 0xFFFF, 0xFFFFFF, 0xFFFFFFFF, 0xFFFFFFFFFF, 0xFFFFFFFFFFFF, 0xFFFFFFFFFFFFFF,
    0xFFFFFFFFFFFFFFFF]

/-- The fewest bytes that hold a magnitude: the first width in the table whose
limit is not below it. -/
def width (magnitude : UInt64) : Nat :=
  (limits.findIdx? (magnitude ≤ ·)).getD Integer.maxWidth

/-- The low `size` bytes of a word, which has eight. -/
def lowBytes? (size : Nat) (n : UInt64) : Option Bytes :=
  (sub? Integer.maxWidth size).map (bigEndian Integer.maxWidth n.toNat).drop

/-- Reads an integer behind its code. Where nothing has wrapped there is the
integer, or none if it is not a 64-bit one. -/
def integer? (code : UInt8) (field : Bytes) : Option (Option Int64) := do
  let limit ← limits[field.length]?
  let n ← value? field
  if zeroCode < code then
    return Integer.int64? n.toNat
  else
    let lack ← sub? limit n
    return Integer.int64? (-lack.toNat)

/-- Writes an integer, with its code. -/
def pack? (n : Int64) : Option Bytes :=
  if n = 0 then some [zeroCode]
  else
    let magnitude := UInt64.ofNat n.toInt.natAbs
    let size := width magnitude
    if 0 < n then do
      let field ← lowBytes? size magnitude
      return (zeroCode + UInt8.ofNat size) :: field
    else do
      let code ← sub? zeroCode (UInt8.ofNat size)
      let limit ← limits[size]?
      let lack ← sub? limit magnitude
      let field ← lowBytes? size lack
      return code :: field

/-! ## What has a result has not wrapped -/

theorem sub?_of_le {a b : UInt64} (h : b ≤ a) :
    ∃ c, sub? a b = some c ∧ c.toNat = a.toNat - b.toNat :=
  ⟨a - b, if_pos h, UInt64.toNat_sub_of_le a b h⟩

/-- A word is moved up by a byte as the number is multiplied, or not at all. -/
theorem shiftByte?_eq_some_iff {a b : UInt64} :
    shiftByte? a = some b ↔ b.toNat = 256 * a.toNat := by
  have ha := a.toNat_lt
  have hb := b.toNat_lt
  have hup : (a <<< 8).toNat = 256 * a.toNat % 2 ^ 64 := by
    rw [UInt64.toNat_shiftLeft, Nat.shiftLeft_eq, Nat.mul_comm]
    rfl
  have hdown : ((a <<< 8) >>> 8).toNat = 256 * a.toNat % 2 ^ 64 / 256 := by
    rw [UInt64.toNat_shiftRight, hup, Nat.shiftRight_eq_div_pow]
    rfl
  unfold shiftByte?
  split
  · rename_i hback
    have hkept := congrArg UInt64.toNat hback
    rw [hdown] at hkept
    rw [Option.some_inj, ← UInt64.toNat_inj, hup]
    omega
  · rename_i hback
    rw [← UInt64.toNat_inj, hdown] at hback
    exact iff_of_false (by simp) (by omega)

/-- The bits of the byte are free, so nothing is carried. -/
theorem pushByte?_eq_some_iff {a b : UInt64} {digit : UInt8} :
    pushByte? a digit = some b ↔ b.toNat = 256 * a.toNat + digit.toNat := by
  have hor : ∀ c : UInt64, c.toNat = 256 * a.toNat →
      (c ||| digit.toUInt64).toNat = 256 * a.toNat + digit.toNat := by
    intro c hc
    rw [UInt64.toNat_or, hc, UInt8.toNat_toUInt64]
    exact (Nat.two_pow_add_eq_or_of_lt digit.toNat_lt a.toNat).symm
  rw [pushByte?, Option.map_eq_some_iff]
  constructor
  · rintro ⟨c, hshift, rfl⟩
    exact hor c (shiftByte?_eq_some_iff.1 hshift)
  · intro hb
    have hfits : 256 * a.toNat < UInt64.size := by
      have := b.toNat_lt
      show _ < 2 ^ 64
      omega
    have hc : (UInt64.ofNat (256 * a.toNat)).toNat = 256 * a.toNat :=
      UInt64.toNat_ofNat_of_lt' hfits
    refine ⟨_, shiftByte?_eq_some_iff.2 hc, UInt64.toNat_inj.1 ?_⟩
    rw [hor _ hc, hb]

/-- Byte after byte, behind those that have been taken in. -/
theorem foldlM_pushByte?_eq_some_iff {field : Bytes} {start r : UInt64} :
    field.foldlM pushByte? start = some r
      ↔ r.toNat = start.toNat * capacity field.length + value field := by
  induction field generalizing start with
  | nil =>
    show some start = some r ↔ r.toNat = start.toNat * 1 + 0
    rw [Option.some_inj, ← UInt64.toNat_inj]
    omega
  | cons digit field ih =>
    have hsplit : start.toNat * capacity (digit :: field).length + value (digit :: field)
        = (256 * start.toNat + digit.toNat) * capacity field.length + value field := by
      rw [List.length_cons, capacity_succ, value_cons, Nat.add_mul, Nat.mul_comm 256 start.toNat,
        Nat.mul_assoc, Nat.add_assoc]
    have hbind : (digit :: field).foldlM pushByte? start = some r
        ↔ ∃ next, pushByte? start digit = some next ∧ field.foldlM pushByte? next = some r := by
      rw [List.foldlM_cons]
      exact Option.bind_eq_some_iff
    rw [hbind, hsplit]
    constructor
    · rintro ⟨next, hpush, hrest⟩
      rw [ih.1 hrest, pushByte?_eq_some_iff.1 hpush]
    · intro hr
      -- What is taken in next is no more than all that is, and that is a word.
      have hle := Nat.mul_le_mul_left (256 * start.toNat + digit.toNat) (capacity_pos field.length)
      have hfits : 256 * start.toNat + digit.toNat < UInt64.size := by
        have hword : r.toNat < UInt64.size := r.toNat_lt
        omega
      have hnext : (UInt64.ofNat (256 * start.toNat + digit.toNat)).toNat
          = 256 * start.toNat + digit.toNat := UInt64.toNat_ofNat_of_lt' hfits
      refine ⟨_, pushByte?_eq_some_iff.2 hnext, ih.2 ?_⟩
      rw [hr, hnext]

/-- **A field is taken in as the number that it writes**, or not at all. -/
theorem value?_eq_some_iff {field : Bytes} {r : UInt64} :
    value? field = some r ↔ r.toNat = value field := by
  rw [value?, foldlM_pushByte?_eq_some_iff]
  show r.toNat = 0 * _ + _ ↔ _
  rw [Nat.zero_mul, Nat.zero_add]

/-- A ninth digit finds no room, and without the check would have driven out the
first. -/
example : value? [0x01, 0, 0, 0, 0, 0, 0, 0, 0x02] = none := by decide

/-! ## The widths that words have -/

theorem lt_capacity_maxWidth (a : UInt64) : a.toNat < capacity Integer.maxWidth := a.toNat_lt

/-- **A field of no more bytes than a word is taken in.** -/
theorem exists_value?_eq_some {field : Bytes} (h : field.length ≤ Integer.maxWidth) :
    ∃ r, value? field = some r ∧ r.toNat = value field := by
  have hlt : value field < UInt64.size :=
    Nat.lt_of_lt_of_le (value_lt field) (capacity_le_capacity h)
  have hr : (UInt64.ofNat (value field)).toNat = value field := UInt64.toNat_ofNat_of_lt' hlt
  exact ⟨_, value?_eq_some_iff.2 hr, hr⟩

/-- The table has the largest magnitude of each width. -/
theorem getElem?_limits {width : Nat} (h : width ≤ Integer.maxWidth) :
    ∃ limit, limits[width]? = some limit ∧ limit.toNat = Integer.limit width := by
  refine Option.map_eq_some_iff.1 ?_
  revert width
  decide

/-- What a magnitude lacks to the largest one of a width that holds it. -/
theorem exists_lack {width : Nat} {n : UInt64} (h : width ≤ Integer.maxWidth)
    (hn : n.toNat < capacity width) :
    ∃ limit lack, limits[width]? = some limit ∧ sub? limit n = some lack
      ∧ lack.toNat = Integer.limit width - n.toNat := by
  obtain ⟨limit, hlimit, hvalue⟩ := getElem?_limits h
  have hle : n ≤ limit := by
    rw [UInt64.le_iff_toNat_le, hvalue]
    exact Integer.lt_capacity_iff.1 hn
  obtain ⟨lack, hsub, hlack⟩ := sub?_of_le hle
  exact ⟨limit, lack, hlimit, hsub, hvalue ▸ hlack⟩

/-- **The width that is looked up is the fewest bytes.** -/
theorem width_eq (magnitude : UInt64) : width magnitude = Integer.width magnitude.toNat := by
  have hwidth : Integer.width magnitude.toNat ≤ Integer.maxWidth :=
    Integer.width_le_iff.2 (lt_capacity_maxWidth magnitude)
  -- A limit is not below the magnitude just where its width is enough.
  have hlimit : ∀ w (hw : w < limits.length),
      magnitude ≤ limits[w] ↔ Integer.width magnitude.toNat ≤ w := by
    intro w hw
    obtain ⟨limit, hget, htoNat⟩ := getElem?_limits (Nat.le_of_lt_succ hw)
    rw [List.getElem?_eq_getElem hw] at hget
    rw [Option.some_inj.1 hget, Integer.width_le_iff, Integer.lt_capacity_iff, ← htoNat,
      UInt64.le_iff_toNat_le]
  have hfind : limits.findIdx? (magnitude ≤ ·) = some (Integer.width magnitude.toNat) := by
    rw [List.findIdx?_eq_some_iff_getElem]
    have hlength : Integer.width magnitude.toNat < limits.length := Nat.lt_succ_of_le hwidth
    refine ⟨hlength, ?_, fun w hw => ?_⟩
    · exact decide_eq_true ((hlimit _ hlength).2 (Nat.le_refl _))
    · rw [decide_eq_true_iff, hlimit]
      exact Nat.not_le.2 hw
  rw [width, hfind]
  rfl

/-- The low bytes of a word are the field of that width. -/
theorem lowBytes?_eq {size : Nat} (h : size ≤ Integer.maxWidth) (n : UInt64) :
    lowBytes? size n = some (bigEndian size n.toNat) := by
  have hdrop := drop_bigEndian (Integer.maxWidth - size) size n.toNat
  rw [Nat.sub_add_cancel h] at hdrop
  rw [lowBytes?, sub?, if_pos h, Option.map_some, hdrop]

end OrderedKey.Word
