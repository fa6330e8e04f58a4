import OrderedKey.Atom.Read
import OrderedKey.Tuple.Spelling

/-!
# What atoms are read from

The reader takes an atom from its spellings, and from nothing else. The two
directions are `Atom.Spelling.read_eq_ok`, by which a spelling is read
whatever stands behind it that does not begin with the escape mark, and
`Atom.spelling_of_read`, by which all that is read was spelled. Between
them the codes of an atom and the ways its payload may be written are
exactly those that `Atom.Spelling` lists.

A payload of fixed width is read as a block, and each kind then says which
blocks stand for which values. That is one fact per kind – a float is the
rank of its bits, an integer a value and a sign – and the rest is shared
(`readField_eq_ok`).
-/

namespace OrderedKey.Atom

/-- A field is read off the front of the data, and nothing else is. -/
theorem readField_eq_ok {width offset used : Nat} {data : Bytes} {a : Atom}
    {interpret : Block width → Except KeyError Atom}
    (h : readField width offset data interpret = .ok (a, used)) :
    ∃ (field : Block width) (rest : Bytes),
      data = field.bytes ++ rest ∧ used = field.bytes.length ∧ interpret field = .ok a := by
  unfold readField at h
  split at h
  · cases h
  · rename_i field hfield
    cases hvalue : interpret field with
    | error e => rw [hvalue] at h; cases h
    | ok b =>
      rw [hvalue] at h
      cases h
      exact ⟨field, data.drop width, Block.leading?_eq_some_iff.1 hfield,
        field.length_bytes.symm, hvalue⟩

/-- A field that is read is read whatever is behind the data. -/
theorem readField_append_of_ok {width offset : Nat} {data : Bytes} {r : Atom × Nat}
    {interpret : Block width → Except KeyError Atom}
    (h : readField width offset data interpret = .ok r) (rest : Bytes) :
    readField width offset (data ++ rest) interpret = .ok r := by
  obtain ⟨field, back, rfl, hused, hvalue⟩ := readField_eq_ok h
  rw [List.append_assoc, readField_append offset field.length_bytes, hvalue]
  exact congrArg Except.ok (Prod.ext rfl (hused.trans field.length_bytes).symm)

theorem ofInteger_eq_ok {offset : Nat} {z : Int} {a : Atom} (h : ofInteger offset z = .ok a) :
    ∃ n : Int64, a = int n ∧ n.toInt = z := by
  unfold ofInteger at h
  split at h
  · cases h
  · rename_i n hn
    cases h
    exact ⟨n, rfl, Integer.int64?_eq_some_iff.1 hn⟩

/-- **Only a payload that marks its own end is read with a look beyond it.** Any
other that is read is read whatever is behind the data. -/
theorem read_append_of_ok {code : AtomCode} {offset : Nat} {data : Bytes} {r : Atom × Nat}
    (hbytes : code ≠ .bytes) (hstring : code ≠ .string) (h : read code offset data = .ok r)
    (rest : Bytes) : read code offset (data ++ rest) = .ok r := by
  cases code with
  | bytes => exact absurd rfl hbytes
  | string => exact absurd rfl hstring
  | null => exact h
  | bool => exact h
  | bigNegative => cases h
  | bigPositive => cases h
  | versionstamp hasUser => cases hasUser <;> exact readField_append_of_ok h rest
  | _ => exact readField_append_of_ok h rest

/-! ## Blocks and their values -/

/-- A block from zero on is the field of its value. -/
theorem spelling_nonnegative {width : Nat} (hwidth : width ≤ Integer.maxWidth) {n : Int64}
    {field : Block width} (h : n.toInt = Integer.ofNonnegative field.bytes) :
    Spelling (int n) ((AtomCode.nonnegative width).toByte :: field.bytes) := by
  rw [← field.bigEndian_toNat]
  exact .nonnegative h field.toNat_lt hwidth

/-- A block below zero is the field of what its value lacks to the largest
one. -/
theorem spelling_negative {width : Nat} (hpos : 0 < width) (hwidth : width ≤ Integer.maxWidth)
    {n : Int64} {field : Block width} (h : n.toInt = Integer.ofNegative field.bytes) :
    Spelling (int n) ((AtomCode.negative width).toByte :: field.bytes) := by
  have hle := Integer.lt_capacity_iff.1 field.toNat_lt
  have hsub : Integer.limit width - (Integer.limit width - field.toNat) = field.toNat := by omega
  have hfield : bigEndian width (Integer.limit width - (Integer.limit width - field.toNat))
      = field.bytes := by
    rw [hsub, field.bigEndian_toNat]
  have hvalue : n.toInt = -((Integer.limit width - field.toNat : Nat) : Int) := by
    rw [h, Integer.ofNegative, field.length_bytes]
    show (field.toNat : Int) - _ = _
    omega
  rw [← hfield]
  exact .negative hvalue (Integer.lt_capacity_iff.2 (Nat.sub_le _ _)) hpos hwidth

/-- A block is the payload of the float that is read from it. -/
theorem payload_float (field : Block floatSize) :
    payload (float (UInt32.ofNat (SignOrder.unrank floatHalf field.toNat))) = field.bytes := by
  have hlt : SignOrder.unrank floatHalf field.toNat < UInt32.size :=
    SignOrder.unrank_lt field.toNat_lt
  rw [payload, UInt32.toNat_ofNat_of_lt' hlt]
  exact SignOrder.bigEndian_rank_unrank rfl field

theorem payload_double (field : Block doubleSize) :
    payload (double (UInt64.ofNat (SignOrder.unrank doubleHalf field.toNat))) = field.bytes := by
  have hlt : SignOrder.unrank doubleHalf field.toNat < UInt64.size :=
    SignOrder.unrank_lt field.toNat_lt
  rw [payload, UInt64.toNat_ofNat_of_lt' hlt]
  exact SignOrder.bigEndian_rank_unrank rfl field

theorem payload_versionstamp (field : Versionstamp.TransactionBytes) :
    payload (versionstamp (Versionstamp.ofTransactionBytes field)) = field.bytes := by
  show (Versionstamp.ofTransactionBytes field).transactionBytes.bytes ++ [] = _
  rw [Versionstamp.transactionBytes_ofTransactionBytes, List.append_nil]

theorem payload_versionstamp_user
    (field : Block (Versionstamp.commitSize + Versionstamp.batchSize + Versionstamp.userSize)) :
    payload (versionstamp ((Versionstamp.ofTransactionBytes field.first).withUserVersion
      (UInt16.ofNat field.last.toNat))) = field.bytes := by
  have huser : (UInt16.ofNat field.last.toNat).toNat = field.last.toNat :=
    UInt16.toNat_ofNat_of_lt' field.last.toNat_lt
  show (Versionstamp.ofTransactionBytes field.first).transactionBytes.bytes
    ++ bigEndian Versionstamp.userSize (UInt16.ofNat field.last.toNat).toNat = _
  rw [Versionstamp.transactionBytes_ofTransactionBytes, huser, field.last.bigEndian_toNat]
  exact congrArg Block.bytes (Block.append_first_last field)

/-! ## All that is read was spelled -/

/-- What is read off the front of the data is a spelling of the atom. -/
def ReadFrom (code : AtomCode) (data : Bytes) (a : Atom) (used : Nat) : Prop :=
  ∃ payload rest, data = payload ++ rest ∧ used = payload.length
    ∧ Spelling a (code.toByte :: payload)

/-- A written atom is a spelling. -/
theorem readFrom_payload {a : Atom} (h : ∀ n, a ≠ int n) (rest : Bytes) :
    ReadFrom a.code (a.payload ++ rest) a a.payload.length :=
  ⟨a.payload, rest, rfl, rfl, .written h⟩

/-- **All that is read was spelled**: the reader of an atom takes nothing but
a spelling of it. -/
theorem spelling_of_read {code : AtomCode} (hcode : code ∈ AtomCode.all) {offset used : Nat}
    {data : Bytes} {a : Atom} (h : read code offset data = .ok (a, used)) :
    ReadFrom code data a used := by
  cases code with
  | null =>
    cases h
    exact readFrom_payload (a := null) (fun n h => by cases h) data
  | bytes =>
    unfold read at h
    dsimp only at h
    split at h
    · rename_i content rest hdecode
      cases h
      rw [(Escaped.decode_eq_some_iff.1 hdecode).1]
      exact readFrom_payload (a := bytes content) (fun n h => by cases h) rest
    · cases h
  | string =>
    unfold read at h
    dsimp only at h
    rcases hdecode : Escaped.decode data with ⟨content, rest⟩
    rw [hdecode] at h
    dsimp only at h
    split at h
    · cases h
    · cases h
    · rename_i text rest htext
      cases h
      rw [(Escaped.decode_eq_some_iff.1 hdecode).1, Utf8.eq_encode_of_decode htext]
      exact readFrom_payload (a := string text) (fun n h => by cases h) rest
  | bigNegative => cases h
  | bigPositive => cases h
  | negative width =>
    obtain ⟨field, rest, rfl, rfl, hvalue⟩ := readField_eq_ok h
    obtain ⟨n, rfl, hn⟩ := ofInteger_eq_ok hvalue
    have hwidth := AtomCode.width_of_negative_mem_all hcode
    exact ⟨field.bytes, rest, rfl, rfl, spelling_negative hwidth.1 hwidth.2 hn⟩
  | nonnegative width =>
    obtain ⟨field, rest, rfl, rfl, hvalue⟩ := readField_eq_ok h
    obtain ⟨n, rfl, hn⟩ := ofInteger_eq_ok hvalue
    have hwidth := AtomCode.width_of_nonnegative_mem_all hcode
    exact ⟨field.bytes, rest, rfl, rfl, spelling_nonnegative hwidth hn⟩
  | float =>
    obtain ⟨field, rest, rfl, rfl, hvalue⟩ := readField_eq_ok h
    cases hvalue
    rw [← payload_float]
    exact readFrom_payload (fun n h => by cases h) rest
  | double =>
    obtain ⟨field, rest, rfl, rfl, hvalue⟩ := readField_eq_ok h
    cases hvalue
    rw [← payload_double]
    exact readFrom_payload (fun n h => by cases h) rest
  | bool value =>
    cases h
    exact readFrom_payload (a := bool value) (fun n h => by cases h) data
  | uuid =>
    obtain ⟨field, rest, rfl, rfl, hvalue⟩ := readField_eq_ok h
    cases hvalue
    exact readFrom_payload (a := uuid field) (fun n h => by cases h) rest
  | versionstamp hasUser =>
    cases hasUser with
    | false =>
      obtain ⟨field, rest, rfl, rfl, hvalue⟩ := readField_eq_ok h
      cases hvalue
      rw [← payload_versionstamp]
      exact readFrom_payload (fun n h => by cases h) rest
    | true =>
      obtain ⟨field, rest, rfl, rfl, hvalue⟩ := readField_eq_ok h
      cases hvalue
      rw [← payload_versionstamp_user]
      exact readFrom_payload (fun n h => by cases h) rest

/-! ## Spellings are read -/

/-- **A spelling is read**, whatever stands behind it that does not begin
with the mark. -/
theorem Spelling.read_eq_ok {a : Atom} {s : Bytes} (h : Spelling a s) :
    ∃ code ∈ AtomCode.all, ∃ payload, s = code.toByte :: payload ∧
      ∀ offset rest, rest.head? ≠ some escapeMark →
        read code offset (payload ++ rest) = .ok (a, payload.length) := by
  cases h with
  | written h =>
    exact ⟨a.code, a.code_mem_all, a.payload, rfl, fun offset rest hrest =>
      read_payload a offset hrest⟩
  | @nonnegative n width magnitude value fits bound =>
    refine ⟨.nonnegative width, AtomCode.nonnegative_mem_all bound, bigEndian width magnitude, rfl,
      fun offset rest _ => ?_⟩
    have hvalue : Integer.ofNonnegative (bigEndian width magnitude) = n.toInt := by
      rw [Integer.ofNonnegative, value_bigEndian_of_lt fits, value]
    rw [read, readField_append offset (length_bigEndian _ _)]
    dsimp only
    rw [hvalue, ofInteger_toInt, length_bigEndian]
    rfl
  | @negative n width magnitude value fits positive bound =>
    refine ⟨.negative width, AtomCode.negative_mem_all positive bound,
      bigEndian width (Integer.limit width - magnitude), rfl, fun offset rest _ => ?_⟩
    have hle := Integer.lt_capacity_iff.1 fits
    have hlt : Integer.limit width - magnitude < capacity width :=
      Integer.lt_capacity_iff.2 (Nat.sub_le _ _)
    have hvalue : Integer.ofNegative (bigEndian width (Integer.limit width - magnitude))
        = n.toInt := by
      rw [Integer.ofNegative, value_bigEndian_of_lt hlt, length_bigEndian, value]
      omega
    rw [read, readField_append offset (length_bigEndian _ _)]
    dsimp only
    rw [hvalue, ofInteger_toInt, length_bigEndian]
    rfl

end OrderedKey.Atom
