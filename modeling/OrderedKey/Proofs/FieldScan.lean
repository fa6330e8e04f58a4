import OrderedKey.Proofs.Reading

/-!
# Fields in place

A field that marks its own end is read to find out where it ends. `decode`
is given what stands behind a code and gives back what stands behind the
field. A reader with one buffer and a place in it does not cut the buffer up:
it looks at a byte, and at a `0x00` also at the next one, and moves on by one
byte or by two. The next byte may be the first of another element, or of
nothing that was ever written, or there may be none.

`decodeAt` reads a field that way, by positions. Step by step it does what
`decode` does with the rest of the buffer (`decodeAtFrom_eq`), so whatever is
known of fields cut out of a buffer holds of fields in it. The position it
gives back has exactly a written field in front of it, from the code on, and
no mark at it; and where there is no such position, the rest of the buffer is
a written field without its terminator (`decodeAt_eq_some_iff`,
`decodeAt_eq_none_iff`). That is said of every buffer, whoever filled it.

The reader of elements does not count positions as it reads: it finds the next
element by the length of the field that it would write. `unpackAt_bytes` and
`unpackAt_string` say that this is the position at which the field ends.
-/

namespace OrderedKey

/-- The byte at a position is the first of what stands from there on. -/
theorem drop_of_getElem?_eq_some {data : Bytes} {i : Nat} {b : UInt8} (h : data[i]? = some b) :
    data.drop i = b :: data.drop (i + 1) := by
  rw [List.drop_eq_getElem?_toList_append, h]
  rfl

/-- What goes on past the end of the data is cut short by the length of all of
it. -/
theorem KeyError.cutShort_drop {data : Bytes} {offset : Nat} {code : UInt8}
    (h : data[offset]? = some code) :
    cutShort offset (data.drop (offset + 1)) = .outOfBounds offset data.length := by
  have hoffset := (List.getElem?_eq_some_iff.1 h).1
  have hlength : offset + 1 + (data.drop (offset + 1)).length = data.length := by
    rw [List.length_drop, Nat.add_sub_cancel' hoffset]
  rw [cutShort, hlength]

namespace Escaped

/-- Reads on at position `i`, behind the content `done`, which is held last
byte first. -/
def decodeAtFrom (data done : Bytes) (i : Nat) : Bytes × Option Nat :=
  match _h : data[i]? with
  | none => (done.reverse, none)
  | some b =>
    if b ≠ terminator then decodeAtFrom data (b :: done) (i + 1)
    else if data[i + 1]? = some escapeMark then decodeAtFrom data (terminator :: done) (i + 2)
    else (done.reverse, some (i + 1))
termination_by data.length - i
decreasing_by
  all_goals
    have hi := (List.getElem?_eq_some_iff.1 _h).1
    omega

/-- Reads the field behind the code at `offset`: its content, and the position
behind the terminator – or none, when `data` ends before one. -/
def decodeAt (data : Bytes) (offset : Nat) : Bytes × Option Nat :=
  decodeAtFrom data [] (offset + 1)

variable {data content : Bytes} {offset next : Nat}

/-- **Reading by positions is reading what stands there**, behind what has been
read, and the position behind the field is where the rest begins. -/
theorem decodeAtFrom_eq (data done : Bytes) (i : Nat) :
    decodeAtFrom data done i
      = (done.reverse ++ (decode (data.drop i)).1,
        (decode (data.drop i)).2.map fun rest => data.length - rest.length) := by
  fun_induction decodeAtFrom data done i with
  | case1 done i hnone =>
    rw [List.drop_eq_nil_iff.2 (List.getElem?_eq_none_iff.1 hnone), decode_nil, List.append_nil]
    rfl
  | case2 done i b hsome hb ih =>
    rw [ih, drop_of_getElem?_eq_some hsome, decode_cons_of_ne hb, List.reverse_cons,
      List.append_assoc]
    rfl
  | case3 done i b hsome hb hmark ih =>
    obtain rfl : b = terminator := Decidable.not_not.1 hb
    rw [ih, drop_of_getElem?_eq_some hsome, drop_of_getElem?_eq_some hmark, decode_marked,
      List.reverse_cons, List.append_assoc]
    rfl
  | case4 done i b hsome hb hmark =>
    obtain rfl : b = terminator := Decidable.not_not.1 hb
    have hi := (List.getElem?_eq_some_iff.1 hsome).1
    have hnext : data.length - (data.drop (i + 1)).length = i + 1 := by
      rw [List.length_drop, Nat.sub_sub_self hi]
    rw [drop_of_getElem?_eq_some hsome, decode_terminator (by rwa [List.head?_drop]),
      List.append_nil, Option.map_some, hnext]

theorem decodeAt_eq (data : Bytes) (offset : Nat) :
    decodeAt data offset
      = ((decode (data.drop (offset + 1))).1,
        (decode (data.drop (offset + 1))).2.map fun rest => data.length - rest.length) :=
  decodeAtFrom_eq data [] (offset + 1)

/-- A field that stands behind the code ends as far in front of the end of the
data as what is behind it is long. -/
theorem length_sub_of_drop_eq {rest : Bytes}
    (h : data.drop (offset + 1) = encode content ++ rest) :
    data.length - rest.length = offset + 1 + (encode content).length := by
  have hlength := congrArg List.length h
  have hfield : (encode content).length = (body content).length + 1 := List.length_append
  rw [List.length_drop, List.length_append] at hlength
  omega

/-- **What is in front of the position is what is written**: the bytes between
the code and the position that `decodeAt` gives back are the field of the
content, and the byte at the position is not the mark. There is no other such
position. -/
theorem decodeAt_eq_some_iff :
    decodeAt data offset = (content, some next)
      ↔ offset + 1 < next ∧ next ≤ data.length
        ∧ data.extract (offset + 1) next = encode content ∧ data[next]? ≠ some escapeMark := by
  rw [decodeAt_eq]
  constructor
  · intro h
    obtain ⟨hcontent, hnext⟩ := Prod.mk.inj h
    obtain ⟨rest, hrest, rfl⟩ := Option.map_eq_some_iff.1 hnext
    obtain ⟨hdata, hhead⟩ := decode_eq_some_iff.1 (Prod.ext hcontent hrest)
    have hend := length_sub_of_drop_eq hdata
    have hpos : 0 < (encode content).length := List.length_append ▸ Nat.succ_pos _
    have hbehind : data.drop (data.length - rest.length) = rest := by
      rw [hend, ← List.drop_drop, hdata, List.drop_left]
    refine ⟨by omega, Nat.sub_le _ _, ?_, by rwa [← List.head?_drop, hbehind]⟩
    show (data.drop (offset + 1)).take (data.length - rest.length - (offset + 1)) = encode content
    rw [hend, Nat.add_sub_cancel_left, hdata, List.take_left]
  · rintro ⟨hlt, hle, hfield, hmark⟩
    have hdata : data.drop (offset + 1) = encode content ++ data.drop next := by
      have hsplit := List.take_append_drop (next - (offset + 1)) (data.drop (offset + 1))
      rw [List.drop_drop, Nat.add_sub_cancel' (Nat.le_of_lt hlt)] at hsplit
      rw [← hfield]
      exact hsplit.symm
    have hnext : data.length - (data.drop next).length = next := by
      rw [List.length_drop, Nat.sub_sub_self hle]
    rw [hdata, decode_encode_append content (by rwa [List.head?_drop]), Option.map_some, hnext]

/-- Where no position is given back, the rest of the data is the content's
marked form and no more. -/
theorem decodeAt_eq_none_iff :
    decodeAt data offset = (content, none) ↔ data.drop (offset + 1) = body content := by
  rw [decodeAt_eq, ← decode_eq_none_iff, Prod.ext_iff, Prod.ext_iff, Option.map_eq_none_iff]

/-- A field is read back from where it stands, if what follows it does not
begin with the mark. -/
theorem decodeAt_encode_append (content front : Bytes) (code : UInt8) {rest : Bytes}
    (h : rest.head? ≠ some escapeMark) :
    decodeAt (front ++ [code] ++ encode content ++ rest) front.length
      = (content, some (front ++ [code] ++ encode content).length) := by
  have hdrop : (front ++ [code] ++ encode content ++ rest).drop (front.length + 1)
      = encode content ++ rest := by
    rw [List.append_assoc]
    exact List.drop_left' List.length_append
  have hlength : (front ++ [code] ++ encode content ++ rest).length - rest.length
      = (front ++ [code] ++ encode content).length := by
    rw [List.length_append, Nat.add_sub_cancel]
  rw [decodeAt_eq, hdrop, decode_encode_append content h, Option.map_some, hlength]

/-- **Reading a field in place undoes writing it**, in every buffer and wherever
the field begins. A position comes back exactly where the bytes in front of it,
from the code on, are the field that is written for the content and the byte at
it is not the mark; none comes back exactly where what is left of the buffer is
that field without its terminator. Behind any bytes and any code, and in front of
anything that does not begin with the mark, a field gives its content back and the
position at which the rest begins. All of it is what `decode` makes of the buffer
behind the code. -/
theorem decodeAt_inverts_encode :
    (∀ (data content : Bytes) (offset : Nat),
      (∀ next : Nat, decodeAt data offset = (content, some next)
          ↔ offset + 1 < next ∧ next ≤ data.length
            ∧ data.extract (offset + 1) next = encode content ∧ data[next]? ≠ some escapeMark)
        ∧ (decodeAt data offset = (content, none)
          ↔ data.drop (offset + 1) ++ [terminator] = encode content))
      ∧ (∀ (content front : Bytes) (code : UInt8) (rest : Bytes), rest.head? ≠ some escapeMark →
        decodeAt (front ++ [code] ++ encode content ++ rest) front.length
          = (content, some (front ++ [code] ++ encode content).length))
      ∧ ∀ (data : Bytes) (offset : Nat),
        decodeAt data offset
          = ((decode (data.drop (offset + 1))).1,
            (decode (data.drop (offset + 1))).2.map fun rest => data.length - rest.length) := by
  refine ⟨fun data content offset => ⟨fun next => decodeAt_eq_some_iff, ?_⟩,
    fun content front code rest => decodeAt_encode_append content front code, decodeAt_eq⟩
  rw [decodeAt_eq_none_iff, encode, List.append_cancel_right_eq]

/-- A content that begins and ends with a marked `0x00`, in front of a `0x00` that
somebody else has marked; and the same cut off on either side of the last mark. -/
theorem decodeAt_inverts_encode_marked :
    let data : Bytes := [0x05, 0x00, 0x01, 0x00, 0xFF, 0xFF, 0x00, 0xFF, 0x00, 0x00, 0xFF]
    ([0x00, 0xFF] : Bytes).head? ≠ some escapeMark
      ∧ decodeAt data 2 = ([0x00, 0xFF, 0x00], some 9)
      ∧ decodeAt (data.take 8) 2 = ([0x00, 0xFF, 0x00], none)
      ∧ decodeAt (data.take 7) 2 = ([0x00, 0xFF], some 7) := by
  intro data
  obtain ⟨hread, hwritten, -⟩ := decodeAt_inverts_encode
  have hhead : ([0x00, 0xFF] : Bytes).head? ≠ some escapeMark := by decide
  refine ⟨hhead, hwritten [0x00, 0xFF, 0x00] [0x05, 0x00] 0x01 [0x00, 0xFF] hhead, ?_, ?_⟩
  · exact (hread (data.take 8) [0x00, 0xFF, 0x00] 2).2.2 rfl
  · exact ((hread (data.take 7) [0x00, 0xFF] 2).1 7).2 ⟨by decide, by decide, rfl, by decide⟩

end Escaped

namespace Element

variable {data : Bytes} {offset : Nat}

/-- What stands at a position is read behind the byte that stands there. -/
theorem unpackAt_toByte {kind : AtomCode} (hkind : kind ∈ AtomCode.all)
    (h : data[offset]? = some kind.toByte) :
    unpackAt data offset
      = (Atom.read kind offset (data.drop (offset + 1))).map fun r =>
        (.atom r.1, offset + 1 + r.2) := by
  have hdrop := drop_of_getElem?_eq_some h
  have hne : data ≠ [] := by
    rintro rfl
    cases h
  rw [unpackAt, if_neg hne, hdrop]
  dsimp only
  rw [read_toByte hkind]
  cases Atom.read kind offset (data.drop (offset + 1)) <;> rfl

/-- **A byte string ends where its field does**, and one whose field does not end
is blamed for it. -/
theorem unpackAt_bytes (h : data[offset]? = some AtomCode.bytes.toByte) :
    unpackAt data offset
      = match Escaped.decodeAt data offset with
        | (content, some next) => .ok (.atom (.bytes content), next)
        | (_, none) => .error (.outOfBounds offset data.length) := by
  rw [unpackAt_toByte (by decide) h, Escaped.decodeAt_eq, Atom.read, KeyError.cutShort_drop h]
  rcases hdecode : Escaped.decode (data.drop (offset + 1)) with ⟨content, _ | rest⟩
  · rfl
  · have hend := Escaped.length_sub_of_drop_eq (Escaped.decode_eq_some_iff.1 hdecode).1
    dsimp only [Option.map_some]
    rw [hend]
    rfl

/-- **So does a text**, which is refused before that where its content is not
UTF-8. -/
theorem unpackAt_string (h : data[offset]? = some AtomCode.string.toByte) :
    unpackAt data offset
      = match Utf8.decode (Escaped.decodeAt data offset).1, (Escaped.decodeAt data offset).2 with
        | .error fault, _ => .error (.invalidText offset fault)
        | .ok _, none => .error (.outOfBounds offset data.length)
        | .ok text, some next => .ok (.atom (.string text), next) := by
  rw [unpackAt_toByte (by decide) h, Escaped.decodeAt_eq, Atom.read, KeyError.cutShort_drop h]
  rcases hdecode : Escaped.decode (data.drop (offset + 1)) with ⟨content, _ | rest⟩
  · dsimp only [Option.map_none]
    cases Utf8.decode content <;> rfl
  · have hend := Escaped.length_sub_of_drop_eq (Escaped.decode_eq_some_iff.1 hdecode).1
    dsimp only [Option.map_some]
    rw [hend]
    cases Utf8.decode content <;> rfl

end Element

end OrderedKey
