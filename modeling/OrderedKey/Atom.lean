import OrderedKey.Bytes.Escaped
import OrderedKey.Number.SignOrder
import OrderedKey.Text.Utf8
import OrderedKey.TypeCode
import OrderedKey.Versionstamp

/-!
# Atoms

An atom is a value of a key that has no parts. Its written form is a type
code and a payload (`Atom.pack`), chosen so that the order of the written
forms is an order worth having: by kind first, and within a kind the one a
reader expects – bytes and texts as in a dictionary, numbers by size,
false before true, versionstamps by commit.

A float is held as its bits. Two floats are the same when their bits are,
so `-0.0` differs from `0.0` and a not-a-number pattern equals itself, and
each pattern is written and read back as it is.
-/

namespace OrderedKey

/-- How many bytes an identifier has. -/
abbrev uuidSize : Nat := 16

/-- A universally unique identifier, as its bytes. -/
abbrev Uuid : Type := Block uuidSize

/-- A value of a key that has no parts. -/
inductive Atom where
  /-- No value. -/
  | null
  /-- A byte string. -/
  | bytes (value : Bytes)
  /-- A text. -/
  | string (text : String)
  /-- An integer. -/
  | int (value : Int64)
  /-- The bits of a float in single precision. -/
  | float (bits : UInt32)
  /-- The bits of a float in double precision. -/
  | double (bits : UInt64)
  /-- A truth value. -/
  | bool (value : Bool)
  /-- An identifier. -/
  | uuid (value : Uuid)
  /-- A versionstamp, complete or not. -/
  | versionstamp (stamp : Versionstamp)

namespace Atom

/-- Whether two atoms are the same: of one kind, and with one value. -/
def beq : (a b : Atom) → Bool
  | null, null => true
  | bytes a, bytes b => a == b
  | string a, string b => a == b
  | int a, int b => a == b
  | float a, float b => a == b
  | double a, double b => a == b
  | bool a, bool b => a == b
  | uuid a, uuid b => a == b
  | versionstamp a, versionstamp b => a == b
  | _, _ => false

/-- **The comparison kind by kind is equality.** -/
theorem beq_iff {a b : Atom} : a.beq b = true ↔ a = b := by
  cases a <;> cases b <;> simp [beq]

/-- The sign bit of a float in single precision. -/
def floatHalf : Nat := 0x80000000

/-- The sign bit of a float in double precision. -/
def doubleHalf : Nat := 0x8000000000000000

/-- How many bytes a float in single precision has. -/
def floatSize : Nat := 4

/-- How many bytes a float in double precision has. -/
def doubleSize : Nat := 8

/-- The code in front of an atom. -/
def code : Atom → AtomCode
  | null => .null
  | bytes _ => .bytes
  | string _ => .string
  | int n =>
    let width := Integer.width n.toInt.natAbs
    if 0 ≤ n.toInt then .nonnegative width else .negative width
  | float _ => .float
  | double _ => .double
  | bool value => .bool value
  | uuid _ => .uuid
  | versionstamp stamp => .versionstamp stamp.userVersion.isSome

/-- What stands behind the code. -/
def payload : Atom → Bytes
  | null => []
  | bytes value => Escaped.encode value
  | string text => Escaped.encode (Utf8.encode text)
  | int n => Integer.field (Integer.width n.toInt.natAbs) n.toInt
  | float bits => bigEndian floatSize (SignOrder.rank floatHalf bits.toNat)
  | double bits => bigEndian doubleSize (SignOrder.rank doubleHalf bits.toNat)
  | bool _ => []
  | uuid value => value.bytes
  | versionstamp stamp => stamp.toBytes

/-- An atom as bytes: its code and its payload. -/
def pack (a : Atom) : Bytes := a.code.toByte :: a.payload

/-- Whether the atom is a versionstamp that the store has yet to fill in. -/
def isPlaceholder : Atom → Bool
  | versionstamp stamp => stamp.isPlaceholder
  | _ => false

/-- **Every atom has a code of the table.** -/
theorem code_mem_all (a : Atom) : a.code ∈ AtomCode.all := by
  cases a with
  | int n =>
    have hwidth := Integer.width_toInt_le n
    unfold code
    dsimp only
    split
    · exact AtomCode.nonnegative_mem_all hwidth
    · refine AtomCode.negative_mem_all ?_ hwidth
      have hzero := @Integer.width_eq_zero_iff n.toInt.natAbs
      omega
  | bool value =>
    have hall : ∀ value, AtomCode.bool value ∈ AtomCode.all := by decide
    exact hall value
  | versionstamp stamp =>
    have hall : ∀ hasUser, AtomCode.versionstamp hasUser ∈ AtomCode.all := by decide
    exact hall stamp.userVersion.isSome
  | null => show AtomCode.null ∈ AtomCode.all; decide
  | bytes => show AtomCode.bytes ∈ AtomCode.all; decide
  | string => show AtomCode.string ∈ AtomCode.all; decide
  | float => show AtomCode.float ∈ AtomCode.all; decide
  | double => show AtomCode.double ∈ AtomCode.all; decide
  | uuid => show AtomCode.uuid ∈ AtomCode.all; decide

/-- An integer from zero on is written in the fewest bytes that hold it. -/
theorem pack_int_of_nonneg {n : Int64} (h : 0 ≤ n.toInt) :
    (int n).pack = (AtomCode.nonnegative (Integer.width n.toInt.natAbs)).toByte
      :: bigEndian (Integer.width n.toInt.natAbs) n.toInt.natAbs := by
  rw [pack, code, payload, Integer.field, if_pos h, if_pos h]

/-- One below zero is written in the fewest bytes that hold its magnitude. -/
theorem pack_int_of_neg {n : Int64} (h : ¬ 0 ≤ n.toInt) :
    (int n).pack = (AtomCode.negative (Integer.width n.toInt.natAbs)).toByte
      :: bigEndian (Integer.width n.toInt.natAbs)
        (Integer.limit (Integer.width n.toInt.natAbs) - n.toInt.natAbs) := by
  rw [pack, code, payload, Integer.field, if_neg h, if_neg h]

/-- The code of an integer says its sign and width. -/
theorem code_int (n : Int64) :
    ∃ width, (int n).code = .nonnegative width ∨ (int n).code = .negative width := by
  refine ⟨Integer.width n.toInt.natAbs, ?_⟩
  unfold code
  dsimp only
  split
  · exact Or.inl rfl
  · exact Or.inr rfl

/-- No other atom has the code of the one without value. -/
theorem eq_null_of_code_eq (a : Atom) (h : a.code = .null) : a = null := by
  cases a with
  | null => rfl
  | int n =>
    obtain ⟨width, hcode | hcode⟩ := code_int n <;> rw [hcode] at h <;> cases h
  | _ => cases h

end Atom

end OrderedKey
