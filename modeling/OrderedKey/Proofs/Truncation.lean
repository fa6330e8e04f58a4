import OrderedKey.Proofs.RoundTrip
import OrderedKey.Proofs.UniqueSpelling

/-!
# Keys that are cut off

Of a key that is cut off, what is left is read as the tuple whose key it is, or
it is no key, and then the error says so: the first bytes of a key are never
taken for anything else (`Tuple.unpack_take_pack`).

What is left may well be a key, and not only where the cut is between two
elements. Of a marked `0x00` a cut may leave the `0x00`, which is a terminator.
A text with a zero in it is then read as the text up to there, and a nested
tuple with a null in it as its members in front of the null; what is read need
not begin the tuple that was written. But it was written so, to the byte, and
that is what the induction carries: what is read behind a cut would be written
as the bytes up to it.

Which element an error names depends on where the cut is. An element that lacks
bytes is named itself, but if the cut makes a shorter element of it, it is the
nested tuple around that lacks its terminator. Either begins in front of the
cut, and `KeyError.BlamesCut` asks for no more. A text is looked at before its
terminator is missed, so a cut inside a character is told from other cuts.
-/

namespace OrderedKey

/-! ## What a cut is blamed for -/

/-- An error that tells of a cut, reported of the bytes `s` up to there, of which
the first is at `offset`. -/
inductive KeyError.BlamesCut (offset : Nat) : Bytes → KeyError → Prop where
  /-- An element that begins in the bytes is said to go on past their end. -/
  | outOfBounds (front : Bytes) {rest : Bytes} (h : rest ≠ []) :
      BlamesCut offset (front ++ rest)
        (.outOfBounds (offset + front.length) (offset + (front ++ rest).length))
  /-- A text that begins in the bytes is said to end inside a character. -/
  | invalidText (front rest : Bytes) (index : Nat) :
      BlamesCut offset (front ++ AtomCode.string.toByte :: rest)
        (.invalidText (offset + front.length) (.incomplete index))

namespace KeyError.BlamesCut

variable {offset : Nat} {s : Bytes} {e : KeyError}

/-- More bytes in front do not matter. -/
theorem append_left {front : Bytes} (h : BlamesCut (offset + front.length) s e) :
    BlamesCut offset (front ++ s) e := by
  cases h with
  | outOfBounds front' hne =>
    have hcut := @BlamesCut.outOfBounds offset (front ++ front') _ hne
    simpa only [List.length_append, List.append_assoc, Nat.add_assoc] using hcut
  | invalidText front' rest index =>
    have hcut := @BlamesCut.invalidText offset (front ++ front') rest index
    simpa only [List.length_append, List.append_assoc, Nat.add_assoc] using hcut

/-- A cut is no reason to say that tuples are too deep. -/
theorem not_nestingTooDeep {start limit : Nat} :
    ¬ BlamesCut offset s (.nestingTooDeep start limit) := by
  intro h
  cases h

/-- An error that blames a cut names a place in front of it. -/
theorem eq_or_eq (h : BlamesCut 0 s e) :
    (∃ offset, offset < s.length ∧ e = .outOfBounds offset s.length)
      ∨ ∃ offset index, offset < s.length ∧ s[offset]? = some AtomCode.string.toByte
        ∧ e = .invalidText offset (.incomplete index) := by
  cases h with
  | @outOfBounds front rest hne =>
    have hpos := List.length_pos_iff.2 hne
    refine .inl ⟨front.length, ?_, ?_⟩
    · rw [List.length_append]
      omega
    · rw [Nat.zero_add, Nat.zero_add]
  | invalidText front rest index =>
    refine .inr ⟨front.length, index, ?_, ?_, ?_⟩
    · simp
    · simp
    · rw [Nat.zero_add]

end KeyError.BlamesCut

/-- **What is read of bytes that were cut off** is a value, of which something is
known, or blames the cut. -/
inductive ReadsCut {α : Type} (known : α → Prop) (offset : Nat) (s : Bytes) :
    Except KeyError α → Prop where
  /-- There is a value. -/
  | ok {value : α} (h : known value) : ReadsCut known offset s (.ok value)
  /-- The error is due to the cut. -/
  | error {e : KeyError} (h : e.BlamesCut offset s) : ReadsCut known offset s (.error e)

/-- The first element is said to go on past the end. -/
theorem ReadsCut.cutShort {α : Type} {known : α → Prop} (offset : Nat) (code : UInt8)
    (rest : Bytes) : ReadsCut known offset (code :: rest) (.error (.cutShort offset rest)) := by
  have hcut := @KeyError.BlamesCut.outOfBounds offset [] _ (List.cons_ne_nil code rest)
  rw [List.nil_append, List.length_nil, List.length_cons, Nat.add_zero, Nat.add_comm _ 1,
    ← Nat.add_assoc] at hcut
  exact .error hcut

theorem ReadsCut.imp {α : Type} {p q : α → Prop} {offset : Nat} {s : Bytes}
    {reading : Except KeyError α} (h : ReadsCut p offset s reading)
    (himp : ∀ value, p value → q value) : ReadsCut q offset s reading := by
  cases h with
  | ok h => exact .ok (himp _ h)
  | error h => exact .error h

theorem ReadsCut.map {α β : Type} {known : β → Prop} {f : α → β} {offset : Nat} {s : Bytes}
    {reading : Except KeyError α} (h : ReadsCut (fun value => known (f value)) offset s reading) :
    ReadsCut known offset s (reading.map f) := by
  cases h with
  | ok h => exact .ok h
  | error h => exact .error h

/-! ## Atoms -/

namespace Atom

/-- A field that is cut off is not read. -/
theorem readField_of_length_lt {width : Nat} (offset : Nat) {data : Bytes}
    (h : data.length < width) (interpret : Block width → Except KeyError Atom) :
    readField width offset data interpret = .error (.cutShort offset data) := by
  rw [readField, Block.leading?_eq_none_iff.2 h]

/-- An atom of fixed width is not read without its last byte. -/
theorem read_of_length_lt {a : Atom} (hbytes : a.code ≠ .bytes) (hstring : a.code ≠ .string)
    (offset : Nat) {data : Bytes} (h : data.length < a.payload.length) :
    read a.code offset data = .error (.cutShort offset data) := by
  cases a with
  | bytes => exact absurd rfl hbytes
  | string => exact absurd rfl hstring
  | null => cases h
  | bool => cases h
  | int n =>
    rw [payload, Integer.length_field] at h
    unfold code
    dsimp only
    split <;> exact readField_of_length_lt offset h _
  | float bits =>
    rw [payload, length_bigEndian] at h
    exact readField_of_length_lt offset h _
  | double bits =>
    rw [payload, length_bigEndian] at h
    exact readField_of_length_lt offset h _
  | uuid value =>
    rw [payload, value.length_bytes] at h
    exact readField_of_length_lt offset h _
  | versionstamp stamp =>
    obtain ⟨commit, batch, user⟩ := stamp
    rw [payload, Versionstamp.toBytes, List.length_append, Block.length_bytes] at h
    cases user with
    | none => exact readField_of_length_lt offset h _
    | some user =>
      dsimp only at h
      rw [length_bigEndian] at h
      exact readField_of_length_lt offset h _

/-- An atom of fixed width that is cut off lacks its last byte. -/
theorem readsCut_of_fixed {a : Atom} (hbytes : a.code ≠ .bytes) (hstring : a.code ≠ .string)
    (offset : Nat) {front back : Bytes} (h : front ++ back = a.payload) :
    ReadsCut (fun r => r.1.pack = a.code.toByte :: front ∧ r.2 = front.length) offset
      (a.code.toByte :: front) (read a.code offset front) := by
  cases back with
  | nil =>
    rw [List.append_nil] at h
    subst h
    rw [read_own_payload]
    exact .ok ⟨rfl, rfl⟩
  | cons b back =>
    have hlt : front.length < a.payload.length := by
      rw [← h, List.length_append, List.length_cons]
      omega
    rw [read_of_length_lt hbytes hstring offset hlt]
    exact .cutShort offset _ front

/-- **An atom that is cut off** is read as a shorter one, or blames the cut. -/
theorem readsCut (a : Atom) (offset : Nat) {front back : Bytes} (h : front ++ back = a.payload) :
    ReadsCut (fun r => r.1.pack = a.code.toByte :: front ∧ r.2 = front.length) offset
      (a.code.toByte :: front) (read a.code offset front) := by
  cases a with
  | bytes content =>
    obtain ⟨part, -, hdecode | ⟨hdecode, rfl⟩⟩ := Escaped.decode_of_append_eq_encode h
    · rw [code, read, hdecode]
      exact .cutShort offset _ front
    · rw [code, read, hdecode]
      exact .ok ⟨rfl, rfl⟩
  | string text =>
    obtain ⟨part, ⟨rest, hpart⟩, hdecode⟩ := Escaped.decode_of_append_eq_encode h
    have hwhole : Utf8.decode (part ++ rest) = .ok text := by
      rw [hpart, Utf8.decode_encode]
    -- the text is looked at first, so a cut inside a character is what is reported
    rcases Utf8.decode_append_eq_ok hwhole with ⟨shorter, hshorter⟩ | ⟨index, hindex⟩
    · rcases hdecode with hdecode | ⟨hdecode, rfl⟩
      · rw [code, read, hdecode]
        dsimp only
        rw [hshorter]
        exact .cutShort offset _ front
      · rw [code, read, hdecode]
        dsimp only
        rw [hshorter]
        refine .ok ⟨?_, rfl⟩
        rw [pack, payload, ← Utf8.eq_encode_of_decode hshorter]
        rfl
    · have hcontent : (Escaped.decode front).1 = part := by
        rcases hdecode with hdecode | ⟨hdecode, -⟩ <;> rw [hdecode]
      rw [code, read]
      dsimp only
      rw [hcontent, hindex]
      exact .error (@KeyError.BlamesCut.invalidText offset [] front index)
  | int n =>
    obtain ⟨width, hcode | hcode⟩ := code_int n
    · exact readsCut_of_fixed (by simp [hcode]) (by simp [hcode]) offset h
    · exact readsCut_of_fixed (by simp [hcode]) (by simp [hcode]) offset h
  | _ => exact readsCut_of_fixed (by simp [code]) (by simp [code]) offset h

end Atom

/-! ## Elements -/

namespace Element

/-- **What is read of a nested tuple that was cut off**, behind the children
that have been read: a tuple that is written as the bytes up to the cut, or an
error that blames it. -/
def RowReadsCut (reader : Reader Element) (start : Nat) (children : List Element)
    (front : Bytes) : Prop :=
  let s := packNested children.reverse ++ front
  ReadsCut (fun r => packNested r.1 ++ [terminator] = s ∧ r.2 = s.length) start (nestedCode :: s)
    (readChildren reader start (packNested children.reverse).length children front)

section Row

variable {reader : Reader Element} {start : Nat} {children : List Element}

/-- What has been written of a row when one more member has been read. -/
theorem packNested_reverse_cons (e : Element) (children : List Element) :
    packNested (e :: children).reverse = packNested children.reverse ++ packNested [e] := by
  rw [List.reverse_cons, packNested_append]

/-- Reading a member does not change what the bytes up to the cut are. -/
theorem RowReadsCut.of_step {more : List Element} {front rest : Bytes}
    (h : RowReadsCut reader start more rest)
    (hbytes : packNested more.reverse ++ rest = packNested children.reverse ++ front)
    (hread : readChildren reader start (packNested children.reverse).length children front
      = readChildren reader start (packNested more.reverse).length more rest) :
    RowReadsCut reader start children front := by
  rw [RowReadsCut] at h
  rw [RowReadsCut, hread, ← hbytes]
  exact h

/-- A nested tuple without its terminator goes on past the end. -/
theorem rowReadsCut_nil : RowReadsCut reader start children [] := by
  rw [RowReadsCut, readChildren_nil, List.append_nil]
  exact .cutShort start nestedCode _

/-- A nested tuple may end behind any of its members. -/
theorem rowReadsCut_ended : RowReadsCut reader start children [terminator] := by
  rw [RowReadsCut, readChildren_ended (by simp)]
  exact .ok ⟨rfl, by simp⟩

/-- A cut behind the first byte of a null leaves the terminator. -/
theorem rowReadsCut_null {front back rest : Bytes}
    (h : front ++ back = terminator :: escapeMark :: rest)
    (htail : ∀ {front}, front ++ back = rest → RowReadsCut reader start (null :: children) front) :
    RowReadsCut reader start children front := by
  cases front with
  | nil => exact rowReadsCut_nil
  | cons b front =>
    rw [List.cons_append, List.cons.injEq] at h
    obtain ⟨rfl, h⟩ := h
    cases front with
    | nil => exact rowReadsCut_ended
    | cons b front =>
      rw [List.cons_append, List.cons.injEq] at h
      obtain ⟨rfl, h⟩ := h
      refine (htail h).of_step ?_ ?_
      · rw [packNested_reverse_cons, List.append_assoc]
        rfl
      · rw [readChildren_marked, packNested_reverse_cons, List.length_append]
        rfl

/-- A cut inside a member is reported of the member, or makes it a shorter
one, behind which the nested tuple has no terminator. -/
theorem rowReadsCut_inside {code : UInt8} {front : Bytes} (hcode : code ≠ terminator)
    (h : ∀ offset, ReadsCut (fun r => r.1.pack = code :: front ∧ r.2 = front.length) offset
      (code :: front) (reader offset code front)) :
    RowReadsCut reader start children (code :: front) := by
  have hmember := h (start + 1 + (packNested children.reverse).length)
  generalize hreading : reader (start + 1 + (packNested children.reverse).length) code front
    = reading at hmember
  rw [RowReadsCut]
  cases hmember with
  | @ok r hr =>
    have hlength : start + 1 + ((packNested children.reverse).length + 1 + front.length)
        = start + 1 + (packNested children.reverse ++ code :: front).length := by
      rw [List.length_append, List.length_cons]
      omega
    rw [readChildren_member hcode hreading, hr.2, List.drop_length, readChildren_nil, hlength]
    exact .cutShort start nestedCode _
  | @error e he =>
    have hoffset : start + 1 + (packNested children.reverse).length
        = start + (nestedCode :: packNested children.reverse).length := by
      rw [List.length_cons]
      omega
    rw [readChildren_member_error hcode hreading]
    rw [hoffset] at he
    exact .error he.append_left

/-- A cut behind a member is a cut of the rest of the row. -/
theorem rowReadsCut_behind {e : Element} {code : UInt8} {body rest : Bytes} (hnull : e ≠ null)
    (hpack : e.pack = code :: body) (hcode : code ≠ terminator)
    (h : ∀ offset, reader offset code (body ++ rest) = .ok (e, body.length))
    (htail : RowReadsCut reader start (e :: children) rest) :
    RowReadsCut reader start children (code :: (body ++ rest)) := by
  have hmember : packNested [e] = code :: body := by
    rw [packNested_cons_of_ne hnull, hpack, packNested, List.append_nil]
  refine htail.of_step ?_ ?_
  · rw [packNested_reverse_cons, hmember, List.append_assoc, List.cons_append]
  · rw [readChildren_member hcode (h _), List.drop_left, packNested_reverse_cons, hmember,
      List.length_append, List.length_cons, Nat.add_right_comm, ← Nat.add_assoc]

end Row

mutual

/-- **An element that is cut off behind its code** is read as a shorter one,
or blames the cut. -/
theorem readsCut : (e : Element) → {levels : Nat} → e.depth ≤ levels →
    ∀ {code : UInt8} {body : Bytes}, e.pack = code :: body →
      ∀ (offset : Nat) {front back : Bytes}, front ++ back = body →
        ReadsCut (fun r => r.1.pack = code :: front ∧ r.2 = front.length) offset (code :: front)
          (read levels offset code front)
  | .atom a, levels, _, code, body, hpack, offset, front, back, h => by
    obtain ⟨rfl, rfl⟩ := List.cons.inj hpack
    rw [read_toByte a.code_mem_all]
    exact (a.readsCut offset h).map
  | .tuple _, 0, hdepth, _, _, _, _, _, _, _ => by
    rw [depth] at hdepth
    cases hdepth
  | .tuple elements, levels + 1, hdepth, code, body, hpack, offset, front, back, h => by
    rw [depth] at hdepth
    obtain ⟨rfl, rfl⟩ := List.cons.inj hpack
    have hrow := rowReadsCut elements (Nat.le_of_succ_le_succ hdepth) offset [] h
    rw [read_nested_succ]
    exact ReadsCut.map (hrow.imp fun r hr => ⟨congrArg (nestedCode :: ·) hr.1, hr.2⟩)

/-- **A nested tuple that is cut off** is read as one that ends with the
terminator of a null, or blames the cut. -/
theorem rowReadsCut : (row : List Element) → {levels : Nat} → depthList row ≤ levels →
    ∀ (start : Nat) (children : List Element) {front back : Bytes},
      front ++ back = packNested row ++ [terminator] →
        RowReadsCut (read levels) start children front
  | [], levels, _, start, children, front, back, h => by
    rcases List.append_eq_singleton_iff.1 h with ⟨rfl, -⟩ | ⟨rfl, -⟩
    · exact rowReadsCut_nil
    · exact rowReadsCut_ended
  | e :: row, levels, hdepth, start, children, front, back, h => by
    have hlevels := Nat.le_trans (Nat.le_max_left _ _) hdepth
    have htail := fun {rest} (hrest : rest ++ back = packNested row ++ [terminator]) =>
      rowReadsCut row (Nat.le_trans (Nat.le_max_right _ _) hdepth) start (e :: children) hrest
    by_cases hnull : e = null
    · subst hnull
      rw [packNested_cons_null] at h
      exact rowReadsCut_null h htail
    · obtain ⟨code, body, hpack, hread⟩ := e.spelling_pack.read_eq_ok hlevels
      have hcode : code ≠ terminator :=
        (hpack ▸ e.spelling_pack : Spelling e (code :: body)).code_ne_terminator hnull
      rw [packNested_cons_of_ne hnull, hpack, List.append_assoc, List.cons_append] at h
      cases front with
      | nil => exact rowReadsCut_nil
      | cons b front =>
        rw [List.cons_append, List.cons.injEq] at h
        obtain ⟨rfl, h⟩ := h
        -- the cut is inside the member, or what is left of the row is cut behind it
        rcases List.append_eq_append_iff.1 h with ⟨rest, hbody, -⟩ | ⟨rest, rfl, hrest⟩
        · exact rowReadsCut_inside hcode fun offset =>
            readsCut e hlevels hpack offset hbody.symm
        · have hbehind : rest.head? ≠ some escapeMark :=
            head?_ne_of_append (hrest ▸ head?_packNested_append_ne row [])
          exact rowReadsCut_behind hnull hpack hcode (fun offset => hread offset rest hbehind)
            (htail hrest.symm)

end

end Element

/-! ## Tuples -/

namespace Tuple

/-- What has been written of a tuple when one more element has been read. -/
theorem pack_reverse_cons (e : Element) (elements : List Element) :
    pack (e :: elements).reverse = pack elements.reverse ++ e.pack := by
  rw [List.reverse_cons, pack_append, pack_cons, pack_nil, List.append_nil]

/-- **What is read of a key that was cut off**, behind the elements that have
been read: the tuple that is written as the bytes up to the cut, or an error that
blames it. -/
def ReadsOnCut (elements : List Element) (front : Bytes) : Prop :=
  let s := pack elements.reverse ++ front
  ReadsCut (fun r => pack r = s) 0 s (unpackFrom (pack elements.reverse).length elements front)

section Elements

variable {elements : List Element}

/-- A tuple may end behind any of its elements. -/
theorem readsOnCut_nil : ReadsOnCut elements [] := by
  rw [ReadsOnCut, unpackFrom, List.append_nil]
  exact .ok rfl

/-- A cut inside an element is reported of the element, or makes it a shorter
one, with which the tuple ends. -/
theorem readsOnCut_inside {code : UInt8} {front : Bytes}
    (h : ∀ offset, ReadsCut (fun r => r.1.pack = code :: front ∧ r.2 = front.length) offset
      (code :: front) (Element.read maxDepth offset code front)) :
    ReadsOnCut elements (code :: front) := by
  have helement := h (pack elements.reverse).length
  rw [ReadsOnCut, unpackFrom]
  generalize Element.read maxDepth (pack elements.reverse).length code front = reading at helement
  cases helement with
  | @ok r hr =>
    obtain ⟨shorter, used⟩ := r
    obtain ⟨hshorter, rfl⟩ : shorter.pack = code :: front ∧ used = front.length := hr
    dsimp only
    rw [List.drop_length, unpackFrom]
    refine .ok ?_
    rw [pack_reverse_cons, hshorter]
  | @error e he =>
    rw [← Nat.zero_add (pack _).length] at he
    exact .error he.append_left

/-- A cut behind an element is a cut of the rest of the tuple. -/
theorem readsOnCut_behind {e : Element} {code : UInt8} {body rest : Bytes}
    (hpack : e.pack = code :: body)
    (h : ∀ offset, Element.read maxDepth offset code (body ++ rest) = .ok (e, body.length))
    (htail : ReadsOnCut (e :: elements) rest) : ReadsOnCut elements (code :: (body ++ rest)) := by
  have hlength : (pack elements.reverse ++ code :: body).length
      = (pack elements.reverse).length + 1 + body.length := by
    rw [List.length_append, List.length_cons]
    omega
  rw [ReadsOnCut, pack_reverse_cons, hpack, List.append_assoc, List.cons_append, hlength] at htail
  rw [ReadsOnCut, unpackFrom, h]
  dsimp only
  rw [List.drop_left]
  exact htail

end Elements

/-- **A key that is cut off** is read as the tuple whose key is left, or the
error blames the cut. -/
theorem readsOnCut {t : Tuple} (h : depth t ≤ maxDepth) (elements : List Element)
    {front back : Bytes} (hcut : front ++ back = pack t) : ReadsOnCut elements front := by
  induction t generalizing elements front with
  | nil =>
    obtain ⟨rfl, -⟩ := List.append_eq_nil_iff.1 hcut
    exact readsOnCut_nil
  | cons e t ih =>
    have htail := ih (Nat.le_trans (Nat.le_max_right _ _) h)
    have hlevels := Nat.le_trans (Nat.le_max_left _ _) h
    obtain ⟨code, body, hpack, hread⟩ := e.spelling_pack.read_eq_ok hlevels
    rw [pack_cons, hpack] at hcut
    cases front with
    | nil => exact readsOnCut_nil
    | cons b front =>
      rw [List.cons_append, List.cons_append, List.cons.injEq] at hcut
      obtain ⟨rfl, hcut⟩ := hcut
      -- the cut is inside the element, or what is left of the tuple is cut behind it
      rcases List.append_eq_append_iff.1 hcut with ⟨rest, hbody, -⟩ | ⟨rest, rfl, hrest⟩
      · exact readsOnCut_inside fun offset => e.readsCut hlevels hpack offset hbody.symm
      · have hbehind : rest.head? ≠ some escapeMark := head?_ne_of_append (hrest ▸ head?_pack_ne t)
        exact readsOnCut_behind hpack (fun offset => hread offset rest hbehind)
          (htail (e :: elements) hrest.symm)

/-- A tuple whose key begins that of another is not too deep where the other
is not. -/
theorem depth_le_of_pack_append {t r : Tuple} {rest : Bytes} (h : depth t ≤ maxDepth)
    (hcut : pack r ++ rest = pack t) : depth r ≤ maxDepth := by
  rw [← tooDeep_eq_nil_iff, ← List.head?_eq_none_iff]
  cases hdeep : (tooDeep maxDepth r).head? with
  | none => rfl
  | some offset =>
    have hread : ReadsCut _ 0 (pack r) (unpackFrom 0 [] (pack r)) := readsOnCut h [] hcut
    rw [unpackFrom_pack_eq_error hdeep] at hread
    cases hread with
    | error he => exact absurd he KeyError.BlamesCut.not_nestingTooDeep

/-- **A key that is cut off is never misread.** It is read where what is left of
it is itself a key, as the tuple of that key. Otherwise the error is that there
are no bytes, that an element which begins in front of the cut goes on past it,
or that a text does and the cut is inside a character. -/
theorem unpack_take_pack {t : Tuple} (h : depth t ≤ maxDepth) {k : Nat}
    (hk : k ≤ (pack t).length) :
    (∀ r, unpack ((pack t).take k) = .ok r ↔ k ≠ 0 ∧ pack r = (pack t).take k)
      ∧ ∀ e, unpack ((pack t).take k) = .error e →
        k = 0 ∧ e = .emptyInput
          ∨ (∃ offset, offset < k ∧ e = .outOfBounds offset k)
          ∨ ∃ offset index, offset < k
            ∧ ((pack t).take k)[offset]? = some AtomCode.string.toByte
            ∧ e = .invalidText offset (.incomplete index) := by
  have hlength : ((pack t).take k).length = k := List.length_take_of_le hk
  have hcut : (pack t).take k ++ (pack t).drop k = pack t := List.take_append_drop k _
  have hempty : (pack t).take k = [] ↔ k = 0 := by
    rw [← List.length_eq_zero_iff, hlength]
  generalize (pack t).take k = front at hlength hcut hempty
  subst hlength
  have hread : ReadsCut (fun r => pack r = front) 0 front (unpackFrom 0 [] front) :=
    readsOnCut h [] hcut
  rw [unpack]
  by_cases hne : front = []
  · rw [if_pos hne]
    refine ⟨fun r => ?_, fun e he => ?_⟩
    · exact iff_of_false (by simp) fun hr => hr.1 (hempty.1 hne)
    · cases he
      exact .inl ⟨hempty.1 hne, rfl⟩
  · rw [if_neg hne]
    refine ⟨fun r => ⟨fun hr => ?_, fun hr => ?_⟩, fun e he => ?_⟩
    · rw [hr] at hread
      cases hread with
      | ok hpack => exact ⟨fun hzero => hne (hempty.2 hzero), hpack⟩
    · obtain ⟨-, rfl⟩ := hr
      exact unpackFrom_pack (depth_le_of_pack_append h hcut)
    · rw [he] at hread
      cases hread with
      | error hblames => exact .inr hblames.eq_or_eq

/-- A text that is cut behind the first byte of a `0x00` is a shorter text. -/
theorem unpack_take_pack_marked :
    depth [.atom (.string "a\x00")] ≤ maxDepth
      ∧ 3 ≤ (pack [.atom (.string "a\x00")]).length
      ∧ (pack [.atom (.string "a\x00")]).take 3 = [0x02, 0x61, 0x00]
      ∧ unpack [0x02, 0x61, 0x00] = .ok [.atom (.string "a")] := by
  have hcut := unpack_take_pack (t := [.atom (.string "a\x00")]) (k := 3) (by decide) (by decide)
  exact ⟨by decide, by decide, rfl, (hcut.1 _).2 ⟨by decide, rfl⟩⟩

/-- In the middle of a character a text cannot end, whatever is around it. -/
example : unpack ((pack [.tuple [.atom (.string "é")]]).take 3)
    = .error (.invalidText 1 (.incomplete 0)) := by cbv

end Tuple

end OrderedKey
