import OrderedKey.Element

/-!
# Values as elements

`ToElement α` says how a value of `α` stands in a tuple, so that a tuple
can be built from ordinary values. Every integer type that fits goes into
the one integer atom, and a missing value is the atom without value.
-/

namespace OrderedKey

/-- How a value stands in a tuple. -/
class ToElement (α : Type) where
  /-- The element that carries the value. -/
  toElement : α → Element

export ToElement (toElement)

instance : ToElement Element := ⟨id⟩
instance : ToElement Unit := ⟨fun _ => .null⟩
instance : ToElement Bytes := ⟨fun value => .atom (.bytes value)⟩
instance : ToElement String := ⟨fun text => .atom (.string text)⟩
instance : ToElement Int64 := ⟨fun n => .atom (.int n)⟩
instance : ToElement Int32 := ⟨fun n => .atom (.int n.toInt64)⟩
instance : ToElement UInt32 := ⟨fun n => .atom (.int n.toUInt64.toInt64)⟩
instance : ToElement UInt8 := ⟨fun n => .atom (.int n.toUInt64.toInt64)⟩
instance : ToElement Bool := ⟨fun value => .atom (.bool value)⟩
instance : ToElement Uuid := ⟨fun value => .atom (.uuid value)⟩
instance : ToElement Versionstamp := ⟨fun stamp => .atom (.versionstamp stamp)⟩
instance : ToElement Tuple := ⟨.tuple⟩

/-- A missing value is the element without value. -/
instance {α : Type} [ToElement α] : ToElement (Option α) where
  toElement
    | some value => toElement value
    | none => .null

/-- **An unsigned integer below the sign bit keeps its value** when it is
taken as a signed one. -/
theorem toInt_toInt64_of_lt {n : UInt64} (h : n.toNat < 0x8000000000000000) :
    n.toInt64.toInt = n.toNat := by
  have hbits : n.toInt64.toBitVec = n.toBitVec := rfl
  rw [Int64.toInt, hbits, BitVec.toInt_eq_toNat_of_lt] <;> rw [UInt64.toNat_toBitVec]
  omega

theorem toInt_toInt64_uint32 (n : UInt32) : n.toUInt64.toInt64.toInt = n.toNat := by
  have hn := n.toNat_lt
  rw [toInt_toInt64_of_lt] <;> rw [UInt32.toNat_toUInt64]
  omega

theorem toInt_toInt64_uint8 (n : UInt8) : n.toUInt64.toInt64.toInt = n.toNat := by
  have hn := n.toNat_lt
  rw [toInt_toInt64_of_lt] <;> rw [UInt8.toNat_toUInt64]
  omega

/-- The tuple with one more element behind it. -/
def Tuple.push {α : Type} [ToElement α] (t : Tuple) (value : α) : Tuple :=
  t ++ [toElement value]

end OrderedKey
