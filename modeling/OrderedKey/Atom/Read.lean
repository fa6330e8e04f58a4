import OrderedKey.Atom
import OrderedKey.KeyError
import OrderedKey.Text.Utf8.Lemmas

/-!
# Reading an atom

The code has been read and says how the payload ends: not at all, at a
terminator, or after a fixed number of bytes. `Atom.read` is given the code
and everything behind it, and yields the atom and the size of its payload;
what follows the payload is the caller's.

The order of the checks is part of the format. The payload has to be there
before its value is looked at, with one exception: a text that is not UTF-8
is refused as such even where its terminator is missing too.
-/

namespace OrderedKey.Atom

/-- Reads a payload of exactly `width` bytes and goes on with it. -/
def readField (width offset : Nat) (data : Bytes)
    (interpret : Block width → Except KeyError Atom) : Except KeyError (Atom × Nat) :=
  match Block.leading? width data with
  | none => .error (.cutShort offset data)
  | some field => (interpret field).map fun a => (a, width)

/-- The atom of an integer, which has to be a 64-bit one. -/
def ofInteger (offset : Nat) (n : Int) : Except KeyError Atom :=
  match Integer.int64? n with
  | none => .error (.integerTooLarge offset)
  | some n => .ok (.int n)

/-- Reads the payload behind a code. `data` is all that stands behind the
code, which itself is at `offset`; the number is how many bytes of it are
the payload. -/
def read (code : AtomCode) (offset : Nat) (data : Bytes) : Except KeyError (Atom × Nat) :=
  match code with
  | .null => .ok (.null, 0)
  | .bytes =>
    match Escaped.decode data with
    | (content, some _) => .ok (.bytes content, (Escaped.encode content).length)
    | (_, none) => .error (.cutShort offset data)
  | .string =>
    match Escaped.decode data with
    | (content, rest) =>
      match Utf8.decode content, rest with
      | .error fault, _ => .error (.invalidText offset fault)
      | .ok _, none => .error (.cutShort offset data)
      | .ok text, some _ => .ok (.string text, (Escaped.encode content).length)
  | .bigNegative => .error (.integerTooLarge offset)
  | .bigPositive => .error (.integerTooLarge offset)
  | .negative width =>
    readField width offset data fun field => ofInteger offset (Integer.ofNegative field.bytes)
  | .nonnegative width =>
    readField width offset data fun field => ofInteger offset (Integer.ofNonnegative field.bytes)
  | .float =>
    readField floatSize offset data fun field =>
      .ok (.float (UInt32.ofNat (SignOrder.unrank floatHalf field.toNat)))
  | .double =>
    readField doubleSize offset data fun field =>
      .ok (.double (UInt64.ofNat (SignOrder.unrank doubleHalf field.toNat)))
  | .bool value => .ok (.bool value, 0)
  | .uuid => readField uuidSize offset data fun field => .ok (.uuid field)
  | .versionstamp false =>
    readField (Versionstamp.commitSize + Versionstamp.batchSize) offset data fun field =>
      .ok (.versionstamp (Versionstamp.ofTransactionBytes field))
  | .versionstamp true =>
    readField (Versionstamp.commitSize + Versionstamp.batchSize + Versionstamp.userSize) offset data
      fun field =>
        .ok (.versionstamp ((Versionstamp.ofTransactionBytes field.first).withUserVersion
          (UInt16.ofNat field.last.toNat)))

theorem readField_shift {width : Nat} (k offset : Nat) (data : Bytes)
    {interpret interpret' : Block width → Except KeyError Atom}
    (h : ∀ field, interpret' field = (interpret field).mapError (KeyError.shift k)) :
    readField width (offset + k) data interpret'
      = (readField width offset data interpret).mapError (KeyError.shift k) := by
  unfold readField
  split
  · rw [← KeyError.shift_cutShort]
    rfl
  · rename_i field _
    rw [h]
    cases interpret field <;> rfl

theorem ofInteger_shift (k offset : Nat) (n : Int) :
    ofInteger (offset + k) n = (ofInteger offset n).mapError (KeyError.shift k) := by
  unfold ofInteger
  split <;> rfl

/-- **Reading an atom does not depend on where it stands**, but for the
offsets in an error. -/
theorem read_shift (code : AtomCode) (k offset : Nat) (data : Bytes) :
    read code (offset + k) data = (read code offset data).mapError (KeyError.shift k) := by
  cases code with
  | bytes =>
    rw [read, read, ← KeyError.shift_cutShort]
    rcases Escaped.decode data with ⟨content, _ | rest⟩ <;> rfl
  | string =>
    rw [read, read, ← KeyError.shift_cutShort]
    rcases Escaped.decode data with ⟨content, _ | rest⟩ <;>
      (dsimp only; cases Utf8.decode content <;> rfl)
  | negative width => exact readField_shift k offset data fun _ => ofInteger_shift k offset _
  | nonnegative width => exact readField_shift k offset data fun _ => ofInteger_shift k offset _
  | float => exact readField_shift k offset data fun _ => rfl
  | double => exact readField_shift k offset data fun _ => rfl
  | uuid => exact readField_shift k offset data fun _ => rfl
  | versionstamp hasUser => cases hasUser <;> exact readField_shift k offset data fun _ => rfl
  | _ => rfl

/-- A payload of the right width is read off the front. -/
theorem readField_append {width : Nat} (offset : Nat) {payload : Bytes}
    (h : payload.length = width) (rest : Bytes)
    (interpret : Block width → Except KeyError Atom) :
    readField width offset (payload ++ rest) interpret
      = (interpret ⟨payload, h⟩).map fun a => (a, width) := by
  have hleading := Block.leading?_append ⟨payload, h⟩ rest
  rw [readField]
  simp only at hleading
  rw [hleading]

/-- A 64-bit integer is one. -/
theorem ofInteger_toInt (offset : Nat) (n : Int64) : ofInteger offset n.toInt = .ok (.int n) := by
  rw [ofInteger, Integer.int64?_eq_some_iff.2 rfl]

/-- A versionstamp is read back field by field. -/
theorem read_payload_versionstamp (stamp : Versionstamp) (offset : Nat) (rest : Bytes) :
    read (versionstamp stamp).code offset ((versionstamp stamp).payload ++ rest)
      = .ok (versionstamp stamp, (versionstamp stamp).payload.length) := by
  have hread := Versionstamp.ofTransactionBytes_transactionBytes stamp
  obtain ⟨commit, batch, user⟩ := stamp
  cases user with
  | none =>
    let stamp : Versionstamp := ⟨commit, batch, none⟩
    have hpayload : payload (versionstamp stamp) = stamp.transactionBytes.bytes :=
      List.append_nil _
    show read (.versionstamp false) offset (payload (versionstamp stamp) ++ rest) = _
    rw [hpayload, read, readField_append offset stamp.transactionBytes.length_bytes]
    show Except.ok (versionstamp (Versionstamp.ofTransactionBytes stamp.transactionBytes), _) = _
    rw [hread, stamp.transactionBytes.length_bytes]
    rfl
  | some user =>
    let stamp : Versionstamp := ⟨commit, batch, some user⟩
    let field := stamp.transactionBytes.append (Block.ofNat Versionstamp.userSize user.toNat)
    have hpayload : payload (versionstamp stamp) = field.bytes := rfl
    show read (.versionstamp true) offset (payload (versionstamp stamp) ++ rest) = _
    rw [hpayload, read, readField_append offset field.length_bytes]
    show Except.ok (versionstamp ((Versionstamp.ofTransactionBytes field.first).withUserVersion
      (UInt16.ofNat field.last.toNat)), _) = _
    rw [Block.first_append, Block.last_append, hread,
      Block.toNat_ofNat (Versionstamp.userVersion_lt user), UInt16.ofNat_toNat,
      field.length_bytes]
    rfl

/-- **An atom is read back from its payload**, whatever follows it. -/
theorem read_payload (a : Atom) (offset : Nat) {rest : Bytes}
    (h : rest.head? ≠ some escapeMark) :
    read a.code offset (a.payload ++ rest) = .ok (a, a.payload.length) := by
  cases a with
  | null => rfl
  | bytes value =>
    simp only [code, payload, read, Escaped.decode_encode_append value h]
  | string text =>
    simp only [code, payload, read, Escaped.decode_encode_append (Utf8.encode text) h,
      Utf8.decode_encode]
  | int n =>
    have hfits := Integer.lt_capacity_width n.toInt.natAbs
    unfold code
    dsimp only
    split
    · rename_i hn
      rw [read, payload, readField_append offset (Integer.length_field _ _),
        Integer.ofNonnegative_field hn hfits, ofInteger_toInt, Integer.length_field]
      rfl
    · rename_i hn
      rw [read, payload, readField_append offset (Integer.length_field _ _),
        Integer.ofNegative_field (by omega) hfits, ofInteger_toInt, Integer.length_field]
      rfl
  | float bits =>
    rw [code, read, payload, readField_append offset (length_bigEndian _ _), length_bigEndian]
    dsimp only [Block.toNat]
    rw [SignOrder.unrank_value_bigEndian_rank rfl bits.toNat_lt, UInt32.ofNat_toNat]
    rfl
  | double bits =>
    rw [code, read, payload, readField_append offset (length_bigEndian _ _), length_bigEndian]
    dsimp only [Block.toNat]
    rw [SignOrder.unrank_value_bigEndian_rank rfl bits.toNat_lt, UInt64.ofNat_toNat]
    rfl
  | bool value => rfl
  | uuid value =>
    rw [code, read, payload, readField_append offset value.length_bytes, value.length_bytes]
    rfl
  | versionstamp stamp => exact read_payload_versionstamp stamp offset rest

/-- It is read back where nothing follows. -/
theorem read_own_payload (a : Atom) (offset : Nat) :
    read a.code offset a.payload = .ok (a, a.payload.length) := by
  have hread := @read_payload a offset [] (by simp)
  rwa [List.append_nil] at hread

end OrderedKey.Atom
