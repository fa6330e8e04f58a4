import OrderedKey.Proofs.Reading

/-!
# What an error blames

An error of the reader names one element, and a user looks at its bytes to see
what is wrong there. So it has to be the right element. Not the tuple around it,
though that is what was asked for; not a byte of its payload, though that is where
the reader stopped; and what the error says has to be true of it.

`KeyError.Names` lists what an error may say, each with what then holds of the
element it names: there is its code, and what stands behind the code. That it
names an element of the bytes that were to be read, and where that is inside a
nested tuple, is `KeyError.Blames`. A nested tuple is said to be too deep only
where as many others have been entered as may be; how many that were is known
from the bytes in front of it, which have at least one code of a nested tuple for
each.

Errors come from an atom, from a code, or from a nested tuple that does not end.
Whatever the bytes are, the reader only passes them on: what is wrong with a
member of a row is wrong behind the code of the row and behind the members in
front of it (`Element.blames_of_readChildren`).
-/

namespace OrderedKey

/-! ## What an error says -/

/-- **What an error says of the element it names**, which has its code `code` at
`offset`, and `rest` behind it. -/
inductive KeyError.Names (offset : Nat) (code : UInt8) (rest : Bytes) : KeyError → Prop where
  /-- The element is of a kind that has bytes behind the code, and there are not
  enough. -/
  | outOfBounds (h : code ∈ payloadCodes) : Names offset code rest (.cutShort offset rest)
  /-- The code is none. -/
  | unknownCode (h : code ∉ typeCodes) : Names offset code rest (.unknownCode code offset)
  /-- The code is that of integers of more than eight bytes. -/
  | bigInteger
      (h : code = AtomCode.bigNegative.toByte ∨ code = AtomCode.bigPositive.toByte) :
      Names offset code rest (.integerTooLarge offset)
  /-- The code is that of the widest negative integers, all bytes are there, and
  write one below the 64-bit integers. -/
  | wideNegative {field behind : Bytes}
      (hcode : code = (AtomCode.negative Integer.maxWidth).toByte) (hrest : rest = field ++ behind)
      (hlength : field.length = Integer.maxWidth)
      (hvalue : Integer.ofNegative field < -0x8000000000000000) :
      Names offset code rest (.integerTooLarge offset)
  /-- The code is that of the widest integers from zero on, all bytes are there, and
  write one above the 64-bit integers. -/
  | widePositive {field behind : Bytes}
      (hcode : code = (AtomCode.nonnegative Integer.maxWidth).toByte)
      (hrest : rest = field ++ behind) (hlength : field.length = Integer.maxWidth)
      (hvalue : 0x8000000000000000 ≤ Integer.ofNonnegative field) :
      Names offset code rest (.integerTooLarge offset)
  /-- The code is that of texts, and what stands behind it is not UTF-8. -/
  | invalidText {fault : Utf8.Fault} (hcode : code = AtomCode.string.toByte)
      (hfault : Utf8.decode (Escaped.decode rest).1 = .error fault) :
      Names offset code rest (.invalidText offset fault)
  /-- The code is that of nested tuples. -/
  | nestingTooDeep (hcode : code = nestedCode) :
      Names offset code rest (.nestingTooDeep offset maxDepth)

namespace KeyError.Names

variable {offset : Nat} {code : UInt8} {rest : Bytes} {e : KeyError}

/-- A code that is called unknown is not among those of integers. -/
theorem of_unknownCode (h : e.Names offset code rest) (c : UInt8) (o : Nat)
    (he : e = .unknownCode c o) :
    c < AtomCode.bigNegative.toByte ∨ AtomCode.bigPositive.toByte < c := by
  subst he
  cases h with
  | unknownCode hcode => exact lt_or_lt_of_not_mem_typeCodes hcode

/-- What is said of an element has to do with nothing but reading. -/
theorem ne_other (h : e.Names offset code rest) :
    e ≠ .missingPlaceholder ∧ (∀ first second, e ≠ .severalPlaceholders first second)
      ∧ ∀ baseLength, e ≠ .outsideSubspace baseLength := by
  refine ⟨?_, ?_, ?_⟩ <;> intros <;> rintro rfl <;> cases h

end KeyError.Names

/-- **An error blames an element of the bytes `s`**, of which the first is at
`start`; and if it calls a nested tuple too deep, there are `levels` codes of
nested tuples in front of it. -/
def KeyError.Blames (levels start : Nat) (s : Bytes) (e : KeyError) : Prop :=
  ∃ front code rest, s = front ++ code :: rest ∧ e.Names (start + front.length) code rest
    ∧ ∀ offset limit, e = .nestingTooDeep offset limit → levels ≤ front.count nestedCode

/-! ## Atoms -/

namespace Integer

variable {field : Bytes}

/-- **Only eight bytes write too large an integer**, from zero on. -/
theorem wide_of_ofNonnegative (h : field.length ≤ maxWidth)
    (hnone : int64? (ofNonnegative field) = none) :
    field.length = maxWidth ∧ 0x8000000000000000 ≤ ofNonnegative field := by
  have hvalue := value_lt field
  have hseven : capacity 7 = 0x100000000000000 := rfl
  rw [int64?_eq_none_iff, ofNonnegative] at hnone
  have hlength : ¬ field.length ≤ 7 := by
    intro hle
    have hcapacity := capacity_le_capacity hle
    omega
  rw [ofNonnegative]
  exact ⟨Nat.le_antisymm h (Nat.not_le.1 hlength), by omega⟩

/-- **Only eight bytes write too large an integer**, below zero. -/
theorem wide_of_ofNegative (h : field.length ≤ maxWidth)
    (hnone : int64? (ofNegative field) = none) :
    field.length = maxWidth ∧ ofNegative field < -0x8000000000000000 := by
  have hlimit := lt_capacity_iff.1 (value_lt field)
  have hseven : limit 7 = 0xFFFFFFFFFFFFFF := rfl
  rw [int64?_eq_none_iff, ofNegative] at hnone
  have hlength : ¬ field.length ≤ 7 := by
    intro hle
    have hcapacity : limit field.length ≤ limit 7 := Nat.sub_le_sub_right (capacity_le_capacity hle) 1
    omega
  rw [ofNegative]
  exact ⟨Nat.le_antisymm h (Nat.not_le.1 hlength), by omega⟩

end Integer

namespace Atom

/-- A field is not read if it is not there, or if its value is refused. -/
theorem readField_eq_error {width offset : Nat} {data : Bytes} {e : KeyError}
    {interpret : Block width → Except KeyError Atom}
    (h : readField width offset data interpret = .error e) :
    data.length < width ∧ e = .cutShort offset data
      ∨ ∃ (field : Block width) (behind : Bytes),
        data = field.bytes ++ behind ∧ interpret field = .error e := by
  unfold readField at h
  split at h
  · rename_i hnone
    cases h
    exact Or.inl ⟨Block.leading?_eq_none_iff.1 hnone, rfl⟩
  · rename_i field hfield
    cases hvalue : interpret field with
    | ok a => rw [hvalue] at h; cases h
    | error e' =>
      rw [hvalue] at h
      cases h
      exact Or.inr ⟨field, data.drop width, Block.leading?_eq_some_iff.1 hfield, hvalue⟩

/-- An integer is refused only where it is not a 64-bit one. -/
theorem ofInteger_eq_error {offset : Nat} {n : Int} {e : KeyError}
    (h : ofInteger offset n = .error e) : e = .integerTooLarge offset ∧ Integer.int64? n = none := by
  unfold ofInteger at h
  split at h
  · rename_i hn
    cases h
    exact ⟨rfl, hn⟩
  · cases h

/-- Of a field whose every value is taken, only bytes can be missing. -/
theorem names_of_readField {kind : AtomCode} (hkind : kind ∈ AtomCode.all)
    (hpayload : kind.hasPayload) {width offset : Nat} {data : Bytes} {e : KeyError}
    {value : Block width → Atom}
    (h : readField width offset data (fun field => .ok (value field)) = .error e) :
    e.Names offset kind.toByte data := by
  rcases readField_eq_error h with ⟨-, rfl⟩ | ⟨_, _, -, hvalue⟩
  · exact .outOfBounds (AtomCode.mem_payloadCodes hkind hpayload)
  · cases hvalue

/-- **The error of an atom names it.** -/
theorem names_of_read {kind : AtomCode} (hkind : kind ∈ AtomCode.all) {offset : Nat} {data : Bytes}
    {e : KeyError} (h : read kind offset data = .error e) : e.Names offset kind.toByte data := by
  cases kind with
  | null => cases h
  | bool => cases h
  | bigNegative =>
    cases h
    exact .bigInteger (Or.inl rfl)
  | bigPositive =>
    cases h
    exact .bigInteger (Or.inr rfl)
  | bytes =>
    unfold read at h
    dsimp only at h
    split at h
    · cases h
    · cases h
      exact .outOfBounds (AtomCode.mem_payloadCodes hkind rfl)
  | string =>
    unfold read at h
    dsimp only at h
    split at h
    · rename_i fault hfault
      cases h
      exact .invalidText rfl hfault
    · cases h
      exact .outOfBounds (AtomCode.mem_payloadCodes hkind rfl)
    · cases h
  | negative width =>
    rcases readField_eq_error h with ⟨-, rfl⟩ | ⟨field, behind, rfl, hvalue⟩
    · exact .outOfBounds (AtomCode.mem_payloadCodes hkind rfl)
    · obtain ⟨rfl, hnone⟩ := ofInteger_eq_error hvalue
      have hwidth := Nat.le_trans (Nat.le_of_eq field.length_bytes)
        (AtomCode.width_of_negative_mem_all hkind).2
      obtain ⟨hlength, hlow⟩ := Integer.wide_of_ofNegative hwidth hnone
      exact .wideNegative (by rw [← hlength, field.length_bytes]) rfl hlength hlow
  | nonnegative width =>
    rcases readField_eq_error h with ⟨hlt, rfl⟩ | ⟨field, behind, rfl, hvalue⟩
    · -- zero has no bytes behind its code, so none can be missing
      cases width with
      | zero => exact absurd hlt (Nat.not_lt_zero _)
      | succ width => exact .outOfBounds (AtomCode.mem_payloadCodes hkind rfl)
    · obtain ⟨rfl, hnone⟩ := ofInteger_eq_error hvalue
      have hwidth := Nat.le_trans (Nat.le_of_eq field.length_bytes)
        (AtomCode.width_of_nonnegative_mem_all hkind)
      obtain ⟨hlength, hhigh⟩ := Integer.wide_of_ofNonnegative hwidth hnone
      exact .widePositive (by rw [← hlength, field.length_bytes]) rfl hlength hhigh
  | float => exact names_of_readField hkind rfl h
  | double => exact names_of_readField hkind rfl h
  | uuid => exact names_of_readField hkind rfl h
  | versionstamp hasUser => cases hasUser <;> exact names_of_readField hkind rfl h

end Atom

/-! ## Elements -/

namespace KeyError.Blames

variable {levels start : Nat} {s : Bytes} {e : KeyError}

/-- An error that names the first element blames it, if it does not call it too
deep. -/
theorem here {code : UInt8} {rest : Bytes} (h : e.Names start code rest)
    (hdepth : ∀ offset limit, e ≠ .nestingTooDeep offset limit) :
    Blames levels start (code :: rest) e :=
  ⟨[], code, rest, rfl, h, fun offset limit he => absurd he (hdepth offset limit)⟩

/-- **What is blamed behind some bytes is blamed of all of them**, and each code of
a nested tuple in front is one that has been entered. -/
theorem append_left {front : Bytes} (h : Blames levels (start + front.length) s e) :
    Blames (levels + front.count nestedCode) start (front ++ s) e := by
  obtain ⟨inside, code, rest, rfl, hnames, hdepth⟩ := h
  refine ⟨front ++ inside, code, rest, by rw [List.append_assoc], ?_, fun offset limit he => ?_⟩
  · rw [List.length_append, ← Nat.add_assoc]
    exact hnames
  · have hlevels := hdepth offset limit he
    rw [List.count_append]
    omega

theorem mono {fewer : Nat} (h : Blames levels start s e) (hle : fewer ≤ levels) :
    Blames fewer start s e := by
  obtain ⟨front, code, rest, hs, hnames, hdepth⟩ := h
  exact ⟨front, code, rest, hs, hnames, fun offset limit he =>
    Nat.le_trans hle (hdepth offset limit he)⟩

end KeyError.Blames

namespace Element

/-- The error of what is no nested tuple names it. -/
theorem blames_of_read_of_ne {levels offset : Nat} {code : UInt8} {data : Bytes} {e : KeyError}
    (hne : code ≠ nestedCode) (h : read levels offset code data = .error e) :
    e.Blames levels offset (code :: data) := by
  cases hkind : AtomCode.ofByte? code with
  | none =>
    rw [read_of_ofByte?_eq_none hne hkind] at h
    cases h
    exact .here (.unknownCode (not_mem_typeCodes hne hkind)) (by simp)
  | some kind =>
    rw [read_of_ofByte? hne hkind] at h
    cases hread : Atom.read kind offset data with
    | ok r => rw [hread] at h; cases h
    | error e' =>
      rw [hread] at h
      cases h
      obtain ⟨hmem, rfl⟩ := AtomCode.toByte_of_ofByte? hkind
      have hnames := Atom.names_of_read hmem hread
      refine .here hnames fun offset limit he => ?_
      subst he
      cases hnames with
      | nestingTooDeep hcode => exact hne hcode

/-- **The error of a row is that of a member, or that the row does not end.** The
code of the row is one more that has been entered. -/
theorem blames_of_readChildren {levels : Nat}
    (hreader : ∀ {offset code data e},
      read levels offset code data = .error e → e.Blames levels offset (code :: data))
    {start size : Nat} {children : List Element} {body : Bytes} {e : KeyError}
    (h : readChildren (read levels) start size children body = .error e) (front : Bytes)
    (hfront : front.length = size) :
    e.Blames (levels + 1) start (nestedCode :: (front ++ body)) := by
  fun_induction readChildren (read levels) start size children body generalizing front with
  | case1 size children =>
    cases h
    subst hfront
    rw [List.append_nil]
    exact .here (.outOfBounds (by decide)) (by simp)
  | case2 size children rest hmark ih =>
    obtain ⟨tail, rfl⟩ := List.head?_eq_some_iff.1 hmark
    have hblames := ih h (front ++ [terminator, escapeMark]) (by simp [hfront])
    rwa [List.append_assoc] at hblames
  | case3 => cases h
  | case4 size children b rest hb e' hmember =>
    cases h
    have hbehind := hreader hmember
    rw [show start + 1 + size = start + (nestedCode :: front).length by
      rw [List.length_cons, hfront]; omega] at hbehind
    refine hbehind.append_left.mono ?_
    rw [List.count_cons_self]
    omega
  | case5 size children b rest hb child used hchild ih =>
    obtain ⟨s, behind, rfl, rfl, -, -⟩ := spelling_of_read hchild
    have hblames := ih h (front ++ b :: s) (by simp [hfront]; omega)
    rw [List.drop_left, List.append_assoc, List.cons_append] at hblames
    exact hblames

/-- **The error of an element blames it or an element inside.** -/
theorem blames_of_read {levels offset : Nat} {code : UInt8} {data : Bytes} {e : KeyError}
    (h : read levels offset code data = .error e) : e.Blames levels offset (code :: data) := by
  induction levels generalizing offset code data e with
  | zero =>
    by_cases hcode : code = nestedCode
    · subst hcode
      rw [read_nested_zero] at h
      cases h
      exact ⟨[], nestedCode, data, rfl, .nestingTooDeep rfl, fun _ _ _ => Nat.zero_le _⟩
    · exact blames_of_read_of_ne hcode h
  | succ levels ih =>
    by_cases hcode : code = nestedCode
    · subst hcode
      rw [read_nested_succ] at h
      cases hrow : readChildren (read levels) offset 0 [] data with
      | ok r => rw [hrow] at h; cases h
      | error e' =>
        rw [hrow] at h
        cases h
        exact blames_of_readChildren (fun hread => ih hread) hrow [] rfl
    · exact blames_of_read_of_ne hcode h

/-- An error of a position in the data blames something from there on. -/
theorem blames_of_unpackAt {data : Bytes} {position : Nat} {e : KeyError}
    (h : unpackAt data position = .error e) (hne : data ≠ []) :
    data.length ≤ position ∧ e = .outOfBounds position data.length
      ∨ position < data.length ∧ e.Blames maxDepth position (data.drop position) := by
  rw [unpackAt, if_neg hne] at h
  split at h
  · rename_i hdrop
    cases h
    exact Or.inl ⟨List.drop_eq_nil_iff.1 hdrop, rfl⟩
  · rename_i code rest hdrop
    have hlength : position < data.length := by
      have hlength := congrArg List.length hdrop
      rw [List.length_drop, List.length_cons] at hlength
      omega
    split at h
    · rename_i e' hread
      cases h
      rw [hdrop]
      exact Or.inr ⟨hlength, blames_of_read hread⟩
    · cases h

/-- An error of a position in the data names an element of the data. -/
theorem names_of_unpackAt {data : Bytes} {position : Nat} {e : KeyError}
    (h : unpackAt data position = .error e) (hne : data ≠ []) :
    data.length ≤ position ∧ e = .outOfBounds position data.length
      ∨ ∃ front code rest, data = front ++ code :: rest ∧ position ≤ front.length
        ∧ e.Names front.length code rest
        ∧ ∀ offset limit, e = .nestingTooDeep offset limit →
          maxDepth ≤ (front.drop position).count nestedCode := by
  rcases blames_of_unpackAt h hne with hbeyond | ⟨hinside, hblames⟩
  · exact Or.inl hbeyond
  obtain ⟨front, code, rest, hdrop, hnames, hdepth⟩ := hblames
  have htake := List.length_take_of_le (Nat.le_of_lt hinside)
  refine Or.inr ⟨data.take position ++ front, code, rest, ?_, ?_, ?_, ?_⟩
  · rw [List.append_assoc, ← hdrop, List.take_append_drop]
  · rw [List.length_append, htake]
    exact Nat.le_add_right _ _
  · rwa [List.length_append, htake]
  · rwa [List.drop_left' htake]

/-- **An error blames the right bytes.** That there are no bytes is said exactly
where there are none. Otherwise either the position is not in the data, and that
is what is said, or the error names an element of the data that does not begin in
front of the position; what it says is true of the bytes there, which are the code
`code` and the `rest` behind it. A nested tuple that is called too deep stands
behind as many codes of nested tuples as may be entered, and a code that is called
unknown is outside those of integers. Nothing is said of placeholders, nor of a
subspace. -/
theorem unpackAt_error_names {data : Bytes} {position : Nat} {e : KeyError}
    (h : unpackAt data position = .error e) :
    (e = .emptyInput ↔ data = [])
      ∧ (data ≠ [] →
        data.length ≤ position ∧ e = .outOfBounds position data.length
        ∨ ∃ front code rest, data = front ++ code :: rest ∧ position ≤ front.length
          ∧ e.Names front.length code rest
          ∧ ∀ offset limit, e = .nestingTooDeep offset limit →
            maxDepth ≤ (front.drop position).count nestedCode)
      ∧ (∀ code offset, e = .unknownCode code offset →
        code < AtomCode.bigNegative.toByte ∨ AtomCode.bigPositive.toByte < code)
      ∧ e ≠ .missingPlaceholder ∧ (∀ first second, e ≠ .severalPlaceholders first second)
      ∧ ∀ baseLength, e ≠ .outsideSubspace baseLength := by
  by_cases hempty : data = []
  · rw [unpackAt, if_pos hempty] at h
    cases h
    simp [hempty]
  · rcases names_of_unpackAt h hempty with
      ⟨hbeyond, rfl⟩ | ⟨front, code, rest, hdata, hposition, hnames, hdepth⟩
    · simp [hempty, hbeyond]
    · refine ⟨iff_of_false ?_ hempty,
        fun _ => Or.inr ⟨front, code, rest, hdata, hposition, hnames, hdepth⟩,
        hnames.of_unknownCode, hnames.ne_other⟩
      rintro rfl
      cases hnames

/-- Behind a truth value, a nested tuple of a text and of an integer that is below
all 64-bit ones: not the tuple is named, nor the text, but the integer. -/
theorem unpackAt_error_names_nested :
    let data : Bytes := [0x27, 0x05, 0x02, 0x61, 0x00, 0x0C, 0, 0, 0, 0, 0, 0, 0, 0, 0x00]
    unpackAt data 1 = .error (.integerTooLarge 5) ∧ data ≠ []
      ∧ ∃ front code rest, data = front ++ code :: rest ∧ 1 ≤ front.length
        ∧ (KeyError.integerTooLarge 5).Names front.length code rest := by
  intro data
  have htext : read 127 2 0x02 (data.drop 3) = .ok (.atom (.string "a"), 2) := by
    rw [read_of_ofByte? (by decide) (show AtomCode.ofByte? 0x02 = some .string from rfl)]
    rfl
  have hinteger : read 127 5 0x0C (data.drop 6) = .error (.integerTooLarge 5) := rfl
  have hrow : readChildren (read 127) 1 0 [] (data.drop 2) = .error (.integerTooLarge 5) :=
    (readChildren_member (by decide) htext).trans (readChildren_member_error (by decide) hinteger)
  have hnested : read maxDepth 1 nestedCode (data.drop 2) = .error (.integerTooLarge 5) := by
    rw [maxDepth, read_nested_succ, hrow]
    rfl
  have hread : unpackAt data 1 = .error (.integerTooLarge 5) :=
    (unpackAt_append [0x27] nestedCode (data.drop 2)).trans (congrArg _ hnested)
  have hne : data ≠ [] := List.cons_ne_nil _ _
  obtain ⟨-, hnamed, -⟩ := unpackAt_error_names hread
  rcases hnamed hne with ⟨-, hbeyond⟩ | ⟨front, code, rest, hdata, hposition, hnames, -⟩
  · cases hbeyond
  · exact ⟨hread, hne, front, code, rest, hdata, hposition, hnames⟩

end Element

end OrderedKey
