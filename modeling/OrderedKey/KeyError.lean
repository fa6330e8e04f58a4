import OrderedKey.Text.Utf8

/-!
# What can be wrong with a key

Writing a key never fails. Reading one may, and so may finding the one
placeholder in it; a `KeyError` is a cause of that, with the place it is
to be looked for. An offset is that of a type code, counted from the start
of the bytes that were read; the two offsets of `severalPlaceholders` are
those of the placeholders' first bytes instead.

Reading does not depend on what stands in front, and an error only by the
offsets in it: `shift` is what becomes of an error when more bytes are put
in front of those it is reported of.
-/

namespace OrderedKey

/-- Why bytes are not a key, or a tuple has no key. -/
inductive KeyError where
  /-- There are no bytes at all. -/
  | emptyInput
  /-- The integer at `offset` is not a signed 64-bit one. -/
  | integerTooLarge (offset : Nat)
  /-- No element begins with the byte `code`, found at `offset`. -/
  | unknownCode (code : UInt8) (offset : Nat)
  /-- The element at `offset` goes on past the end of the `length` bytes. -/
  | outOfBounds (offset length : Nat)
  /-- The text at `offset` is not UTF-8. -/
  | invalidText (offset : Nat) (fault : Utf8.Fault)
  /-- There is no placeholder. -/
  | missingPlaceholder
  /-- There is more than one placeholder, the first two where it says. -/
  | severalPlaceholders (first second : Nat)
  /-- The nested tuple at `offset` stands inside `limit` others. -/
  | nestingTooDeep (offset limit : Nat)
  /-- The key does not begin with the `baseLength` bytes of the subspace. -/
  | outsideSubspace (baseLength : Nat)
deriving DecidableEq

/-- The error in words. -/
def KeyError.message : KeyError → String
  | .emptyInput => "cannot unpack an empty byte string"
  | .integerTooLarge offset => s!"integer at offset {offset} is too large for i64"
  | .unknownCode code offset =>
    "unknown type code 0x" ++ Hex.upper code ++ s!" at offset {offset}"
  | .outOfBounds offset length =>
    s!"element at offset {offset} extends past the end of the {length} byte input"
  | .invalidText offset fault =>
    s!"invalid UTF-8 in string at offset {offset}: " ++ fault.message
  | .missingPlaceholder => "tuple contains no incomplete versionstamp"
  | .severalPlaceholders first second =>
    s!"tuple contains incomplete versionstamps at offsets {first} and {second}"
  | .nestingTooDeep offset limit =>
    s!"nested tuple at offset {offset} exceeds maximum depth {limit}"
  | .outsideSubspace baseLength =>
    s!"key is outside the subspace ({baseLength} byte prefix)"

example : (KeyError.unknownCode 0xC0 3).message = "unknown type code 0xC0 at offset 3" := rfl

example : (KeyError.invalidText 2 (.invalid 1 0)).message
    = "invalid UTF-8 in string at offset 2: invalid utf-8 sequence of 1 bytes from index 0" := rfl

/-- The element at `offset` is cut short: `rest` is all that stands behind
its type code. -/
def KeyError.cutShort (offset : Nat) (rest : Bytes) : KeyError :=
  .outOfBounds offset (offset + 1 + rest.length)

/-- The error with `k` more bytes in front of those it is reported of. -/
def KeyError.shift (k : Nat) : KeyError → KeyError
  | .emptyInput => .emptyInput
  | .integerTooLarge offset => .integerTooLarge (offset + k)
  | .unknownCode code offset => .unknownCode code (offset + k)
  | .outOfBounds offset length => .outOfBounds (offset + k) (length + k)
  | .invalidText offset fault => .invalidText (offset + k) fault
  | .missingPlaceholder => .missingPlaceholder
  | .severalPlaceholders first second => .severalPlaceholders (first + k) (second + k)
  | .nestingTooDeep offset limit => .nestingTooDeep (offset + k) limit
  | .outsideSubspace baseLength => .outsideSubspace baseLength

theorem KeyError.shift_cutShort (k offset : Nat) (rest : Bytes) :
    (cutShort offset rest).shift k = cutShort (offset + k) rest := by
  have hlength : offset + 1 + rest.length + k = offset + k + 1 + rest.length := by omega
  exact congrArg (outOfBounds (offset + k)) hlength

end OrderedKey
