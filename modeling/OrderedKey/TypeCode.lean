import OrderedKey.Bytes.Escaped
import OrderedKey.Number.Integer

/-!
# Type codes

The first byte of an element says what the element is and where it ends.
It also orders elements of different kinds, so the values below are the
order of the kinds and no store that holds keys survives a change to them.

An **atom code** introduces a value without parts; `AtomCode.all` lists
them as they stand in the order, and `ofByte?` looks a byte up in that
list, so there is one table and not two. An integer has a code for each
width and sign, from eight bytes below zero to eight bytes above, with
zero itself in the middle. Integers of more than eight bytes have codes
set aside for them on both sides, which the reader knows only to refuse.

A nested tuple has a code of its own, `nestedCode`, and no atom has it.
-/

namespace OrderedKey

/-- The code in front of a nested tuple. -/
def nestedCode : UInt8 := 0x05

/-- The code of zero, the middle of the integer codes. -/
def zeroCode : UInt8 := 0x14

/-- What the code in front of an atom says. -/
inductive AtomCode where
  /-- No value; nothing follows. -/
  | null
  /-- A byte string, which marks its own end. -/
  | bytes
  /-- A text, which marks its own end. -/
  | string
  /-- A negative integer of more than eight bytes. -/
  | bigNegative
  /-- A negative integer in a field of `width` bytes. -/
  | negative (width : Nat)
  /-- An integer from zero on, in a field of `width` bytes. -/
  | nonnegative (width : Nat)
  /-- An integer of more than eight bytes. -/
  | bigPositive
  /-- A float in single precision. -/
  | float
  /-- A float in double precision. -/
  | double
  /-- A truth value; nothing follows. -/
  | bool (value : Bool)
  /-- A UUID. -/
  | uuid
  /-- A versionstamp, with or without a user version. -/
  | versionstamp (hasUser : Bool)
deriving DecidableEq

namespace AtomCode

/-- The byte that stands for a code. -/
def toByte : AtomCode → UInt8
  | null => 0x00
  | bytes => 0x01
  | string => 0x02
  | bigNegative => 0x0B
  | negative width => zeroCode - UInt8.ofNat width
  | nonnegative width => zeroCode + UInt8.ofNat width
  | bigPositive => 0x1D
  | float => 0x20
  | double => 0x21
  | bool false => 0x26
  | bool true => 0x27
  | uuid => 0x30
  | versionstamp false => 0x32
  | versionstamp true => 0x33

/-- Every atom code, in the order of their bytes. -/
def all : List AtomCode :=
  [null, bytes, string, bigNegative,
    negative 8, negative 7, negative 6, negative 5,
    negative 4, negative 3, negative 2, negative 1,
    nonnegative 0, nonnegative 1, nonnegative 2, nonnegative 3, nonnegative 4,
    nonnegative 5, nonnegative 6, nonnegative 7, nonnegative 8,
    bigPositive, float, double, bool false, bool true, uuid,
    versionstamp false, versionstamp true]

/-- The code that a byte stands for, if it stands for one. -/
def ofByte? (b : UInt8) : Option AtomCode := all.find? (·.toByte = b)

/-- Whether the bytes behind a code are part of the element. -/
def hasPayload : AtomCode → Bool
  | null | bigNegative | bigPositive | bool _ | nonnegative 0 => false
  | _ => true

/-- **A code is found by its byte.** -/
theorem ofByte?_toByte {code : AtomCode} (h : code ∈ all) : ofByte? code.toByte = some code := by
  revert code
  decide

/-- A byte stands for a code of the table, and for the one that has it. -/
theorem toByte_of_ofByte? {b : UInt8} {code : AtomCode} (h : ofByte? b = some code) :
    code ∈ all ∧ code.toByte = b :=
  ⟨List.mem_of_find?_eq_some h, by simpa using List.find?_some h⟩

/-- The table has every width of a non-negative integer. -/
theorem nonnegative_mem_all {width : Nat} (h : width ≤ Integer.maxWidth) :
    nonnegative width ∈ all := by
  have hall : ∀ width : Fin 9, nonnegative width.val ∈ all := by decide
  exact hall ⟨width, Nat.lt_succ_of_le h⟩

/-- The table has every width of a negative integer, which takes a byte at
least. -/
theorem negative_mem_all {width : Nat} (hpos : 0 < width) (h : width ≤ Integer.maxWidth) :
    negative width ∈ all := by
  have hall : ∀ width : Fin 9, 0 < width.val → negative width.val ∈ all := by decide
  exact hall ⟨width, Nat.lt_succ_of_le h⟩ hpos

/-- The table has no wider integer from zero on. -/
theorem width_of_nonnegative_mem_all {width : Nat} (h : nonnegative width ∈ all) :
    width ≤ Integer.maxWidth := by
  simp [all] at h
  show width ≤ 8
  omega

/-- The table has no wider negative integer, and none in no bytes. -/
theorem width_of_negative_mem_all {width : Nat} (h : negative width ∈ all) :
    0 < width ∧ width ≤ Integer.maxWidth := by
  simp [all] at h
  show 0 < width ∧ width ≤ 8
  omega

/-- No atom has the code of a nested tuple. -/
theorem toByte_ne_nestedCode {code : AtomCode} (h : code ∈ all) : code.toByte ≠ nestedCode := by
  revert code
  decide

/-- No code is the escape mark. -/
theorem toByte_ne_escapeMark {code : AtomCode} (h : code ∈ all) : code.toByte ≠ escapeMark := by
  revert code
  decide

/-- The terminator is the code of the atom without value, and of no other. -/
theorem eq_null_of_toByte_eq {code : AtomCode} (h : code ∈ all)
    (hbyte : code.toByte = terminator) : code = null := by
  revert code
  decide

/-- **The table is in the order of its bytes.** -/
theorem pairwise_toByte_lt : all.Pairwise (fun a b => a.toByte < b.toByte) := by
  decide

end AtomCode

/-- The codes that an element may begin with. -/
def typeCodes : List UInt8 := nestedCode :: AtomCode.all.map AtomCode.toByte

/-- The codes with bytes behind them that are part of the element. -/
def payloadCodes : List UInt8 :=
  nestedCode :: (AtomCode.all.filter AtomCode.hasPayload).map AtomCode.toByte

/-- A byte that is no atom's and not that of nested tuples is no code. -/
theorem not_mem_typeCodes {b : UInt8} (hne : b ≠ nestedCode) (h : AtomCode.ofByte? b = none) :
    b ∉ typeCodes := by
  intro hmem
  rcases List.mem_cons.1 hmem with hb | hb
  · exact hne hb
  · obtain ⟨code, hcode, rfl⟩ := List.mem_map.1 hb
    rw [AtomCode.ofByte?_toByte hcode] at h
    cases h

/-- **The codes of integers have no gaps**, those for wider integers than are read
included. -/
theorem mem_typeCodes_of_integer {b : UInt8} (hlow : AtomCode.bigNegative.toByte ≤ b)
    (hhigh : b ≤ AtomCode.bigPositive.toByte) : b ∈ typeCodes := by
  have hall : ∀ n : Fin 19, AtomCode.bigNegative.toByte + UInt8.ofNat n.val ∈ typeCodes := by decide
  have hlow' : 11 ≤ b.toNat := UInt8.le_iff_toNat_le.1 hlow
  have hhigh' : b.toNat ≤ 29 := UInt8.le_iff_toNat_le.1 hhigh
  have hb : AtomCode.bigNegative.toByte + UInt8.ofNat (b.toNat - 11) = b := by
    apply UInt8.toNat.inj
    rw [UInt8.toNat_add, UInt8.toNat_ofNat_of_lt' (by show _ < 256; omega)]
    show (11 + (b.toNat - 11)) % 256 = b.toNat
    omega
  exact hb ▸ hall ⟨b.toNat - 11, by omega⟩

/-- What is no code is not among those of integers. -/
theorem lt_or_lt_of_not_mem_typeCodes {b : UInt8} (h : b ∉ typeCodes) :
    b < AtomCode.bigNegative.toByte ∨ AtomCode.bigPositive.toByte < b := by
  rcases UInt8.lt_or_le b AtomCode.bigNegative.toByte with hlow | hlow
  · exact Or.inl hlow
  · exact Or.inr (UInt8.not_le.1 fun hhigh => h (mem_typeCodes_of_integer hlow hhigh))

/-- An atom with a payload has one of the codes that have. -/
theorem AtomCode.mem_payloadCodes {code : AtomCode} (h : code ∈ all) (hpayload : code.hasPayload) :
    code.toByte ∈ payloadCodes :=
  List.mem_cons_of_mem _ (List.mem_map_of_mem (List.mem_filter.2 ⟨h, hpayload⟩))

end OrderedKey
