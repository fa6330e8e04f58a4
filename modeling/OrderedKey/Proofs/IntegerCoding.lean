import OrderedKey.Number.Word
import OrderedKey.Proofs.Walk

/-!
# The coding of integers is exact

Every field of one to eight bytes is read, behind a code for each sign, and
what is read is the integer that the field writes there – or it is refused,
exactly when there is no 64-bit integer of that value. Values of every width
are read, so an integer may have several spellings, and zero has some behind
the codes below it; the one that is written is the only shortest
(`Integer.coding_exact_and_shortest`).

Reading and writing are defined on unbounded integers, so they cannot say
whether words of 64 bits would do. They do: with every difference and every
shift checked, the computation in words has a result on every field and every
integer, and the same one (`Word.integer?_nonnegative`,
`Word.integer?_negative`, `Word.pack?_eq`).
-/

namespace OrderedKey

namespace Word

/-! ## In words -/

/-- The codes from zero on are above that of zero. -/
theorem zeroCode_lt_toByte_nonnegative {width : Nat} (h : width ≤ Integer.maxWidth) :
    0 < width → zeroCode < (AtomCode.nonnegative width).toByte := by
  revert width
  decide

/-- Those below zero are not. -/
theorem not_zeroCode_lt_toByte_negative {width : Nat} (h : width ≤ Integer.maxWidth) :
    ¬ zeroCode < (AtomCode.negative width).toByte := by
  revert width
  decide

/-- No width is too large to be taken from the code of zero. -/
theorem sub?_zeroCode {width : Nat} (h : width ≤ Integer.maxWidth) :
    sub? zeroCode (UInt8.ofNat width) = some (AtomCode.negative width).toByte := by
  revert width
  decide

variable {field : Bytes}

/-- **From zero on, nothing wraps as a field is read**, and what comes of it is
the value of the field. -/
theorem integer?_nonnegative (hpos : 0 < field.length) (h : field.length ≤ Integer.maxWidth) :
    integer? (AtomCode.nonnegative field.length).toByte field
      = some (Integer.int64? (Integer.ofNonnegative field)) := by
  obtain ⟨limit, hlimit, -⟩ := getElem?_limits h
  obtain ⟨n, hvalue, hn⟩ := exists_value?_eq_some h
  simp only [integer?, hlimit, hvalue, Option.bind_eq_bind, Option.bind_some]
  rw [if_pos (zeroCode_lt_toByte_nonnegative h hpos), hn]
  rfl

/-- **Below zero, nothing wraps as a field is read**: no field is beyond the
limit of its width. -/
theorem integer?_negative (h : field.length ≤ Integer.maxWidth) :
    integer? (AtomCode.negative field.length).toByte field
      = some (Integer.int64? (Integer.ofNegative field)) := by
  obtain ⟨n, hvalue, hn⟩ := exists_value?_eq_some h
  have hfits : n.toNat < capacity field.length := hn ▸ value_lt field
  obtain ⟨limit, lack, hlimit, hsub, hlack⟩ := exists_lack h hfits
  have hle : n.toNat ≤ Integer.limit field.length := Integer.lt_capacity_iff.1 hfits
  have hinteger : -(lack.toNat : Int) = Integer.ofNegative field := by
    rw [hlack, Integer.ofNegative, ← hn]
    omega
  simp only [integer?, hlimit, hvalue, hsub, Option.bind_eq_bind, Option.bind_some]
  rw [if_neg (not_zeroCode_lt_toByte_negative h), hinteger]
  rfl

/-- **Nothing wraps as an integer is written**, and the bytes are those of its
atom. -/
theorem pack?_eq (n : Int64) : pack? n = some (Atom.int n).pack := by
  have hbound := Integer.width_toInt_le n
  have hmagnitude : (UInt64.ofNat n.toInt.natAbs).toNat = n.toInt.natAbs :=
    UInt64.toNat_ofNat_of_lt' (Integer.width_le_iff.1 hbound)
  have hwidth : width (UInt64.ofNat n.toInt.natAbs) = Integer.width n.toInt.natAbs := by
    rw [width_eq, hmagnitude]
  unfold pack?
  dsimp only
  rw [hwidth]
  split
  · rename_i hzero
    rw [hzero]
    rfl
  · split
    · rename_i hpos
      have hn : 0 ≤ n.toInt := Int.le_of_lt (Int64.lt_iff_toInt_lt.1 hpos)
      rw [lowBytes?_eq hbound, hmagnitude, Atom.pack_int_of_nonneg hn]
      rfl
    · rename_i hzero hpos
      have hn : ¬ 0 ≤ n.toInt := by
        intro hn
        have hne : n.toInt ≠ 0 := fun h => hzero (Int64.toInt_inj.1 h)
        exact hpos (Int64.lt_iff_toInt_lt.2 (by show 0 < n.toInt; omega))
      have hfits := Integer.lt_capacity_width n.toInt.natAbs
      obtain ⟨limit, lack, hlimit, hsub, hlack⟩ :=
        exists_lack (n := UInt64.ofNat n.toInt.natAbs) hbound (hmagnitude.symm ▸ hfits)
      rw [hmagnitude] at hlack
      simp only [sub?_zeroCode hbound, hlimit, hsub, lowBytes?_eq hbound, Option.bind_eq_bind,
        Option.bind_some]
      rw [Atom.pack_int_of_neg hn, hlack]
      rfl

/-- The least integer has a magnitude that is no 64-bit integer itself. -/
example : pack? Int64.minValue = some [0x0C, 0x7F, 0xFF, 0xFF, 0xFF, 0xFF, 0xFF, 0xFF, 0xFF] := by
  decide

end Word

namespace Integer

/-! ## What a field is read as -/

/-- Wherever the field stands behind the code, it is read as the 64-bit integer of
value `z`, or refused as too large where there is none. -/
structure ReadAs (code : UInt8) (field : Bytes) (z : Int) : Prop where
  /-- A value within the range is read, with the position behind the field. -/
  within : -0x8000000000000000 ≤ z → z < 0x8000000000000000 →
    ∃ n : Int64, n.toInt = z ∧ ∀ front rest : Bytes,
      Element.unpackAt (front ++ code :: (field ++ rest)) front.length
        = .ok (.atom (.int n), front.length + 1 + field.length)
  /-- Any other is refused, and its code is blamed. -/
  beyond : z < -0x8000000000000000 ∨ 0x8000000000000000 ≤ z → ∀ front rest : Bytes,
    Element.unpackAt (front ++ code :: (field ++ rest)) front.length
      = .error (.integerTooLarge front.length)

variable {field : Bytes}

/-- What the code makes of the field as an unbounded integer decides. -/
theorem readAs_of_read {code : AtomCode} {z : Int} (hcode : code ∈ AtomCode.all)
    (hread : ∀ (offset : Nat) (rest : Bytes), Atom.read code offset (field ++ rest)
      = (Atom.ofInteger offset z).map fun a => (a, field.length)) :
    ReadAs code.toByte field z := by
  have hunpack : ∀ front rest : Bytes,
      Element.unpackAt (front ++ code.toByte :: (field ++ rest)) front.length
        = (Atom.ofInteger front.length z).map fun a =>
          (.atom a, front.length + 1 + field.length) := by
    intro front rest
    rw [Element.unpackAt_append, Element.read_toByte hcode, hread]
    cases Atom.ofInteger front.length z <;> rfl
  refine ⟨fun hlow hhigh => ?_, fun hbeyond front rest => ?_⟩
  · cases hz : int64? z with
    | none =>
      have hout := int64?_eq_none_iff.1 hz
      omega
    | some n =>
      refine ⟨n, int64?_eq_some_iff.1 hz, fun front rest => ?_⟩
      rw [hunpack, Atom.ofInteger, hz]
      rfl
  · rw [hunpack, Atom.ofInteger, int64?_eq_none_iff.2 hbeyond]
    rfl

/-- **A field of any width is read from zero on.** -/
theorem readAs_nonnegative (h : field.length ≤ maxWidth) :
    ReadAs (AtomCode.nonnegative field.length).toByte field (ofNonnegative field) :=
  readAs_of_read (AtomCode.nonnegative_mem_all h) fun offset rest =>
    Atom.readField_append offset rfl rest _

/-- **And below zero**, unless it is empty. -/
theorem readAs_negative (hpos : 0 < field.length) (h : field.length ≤ maxWidth) :
    ReadAs (AtomCode.negative field.length).toByte field (ofNegative field) :=
  readAs_of_read (AtomCode.negative_mem_all hpos h) fun offset rest =>
    Atom.readField_append offset rfl rest _

/-! ## What an integer is read from -/

/-- An integer is read from what is written for it. -/
theorem unpackAt_pack (n : Int64) :
    Element.unpackAt (Atom.int n).pack 0 = .ok (.atom (.int n), (Atom.int n).pack.length) := by
  have hunpack := Element.unpackAt_append [] (Atom.int n).code.toByte (Atom.int n).payload
  rw [List.nil_append, List.length_nil, Element.read_toByte (Atom.code_mem_all _),
    Atom.read_own_payload] at hunpack
  have hlength : (Atom.int n).pack.length = 0 + 1 + (Atom.int n).payload.length := by
    rw [Atom.pack, List.length_cons, Nat.zero_add, Nat.add_comm]
  rw [hlength]
  exact hunpack

/-- **Whatever else it is read from is longer.** -/
theorem length_pack_lt_of_unpackAt {n : Int64} {s : Bytes}
    (h : Element.unpackAt s 0 = .ok (.atom (.int n), s.length)) (hne : s ≠ (Atom.int n).pack) :
    (Atom.int n).pack.length < s.length := by
  obtain ⟨spelled, rest, hs, hlength, hspelling⟩ := Element.spelling_of_unpackAt h
  rw [List.drop_zero] at hs
  have hrest : rest = [] := by
    rw [hs, List.length_append] at hlength
    exact List.length_eq_zero_iff.1 (by omega)
  rw [hrest, List.append_nil] at hs
  rw [← hs] at hspelling
  have hshortest : Shortest (Atom.int n).pack s := hspelling.shortest
  exact Nat.lt_of_le_of_ne hshortest.length_le fun heq => hne (hshortest.eq_of_length heq.symm)

/-- **The coding of integers is exact, and no bytes are wasted.** Behind a code
from zero on, a field of one to eight bytes is read as its value, and behind one
below zero as that value less the largest of the width; either is refused exactly
where it is no 64-bit integer, and computed in words it comes out the same, with
nothing wrapped. Every 64-bit integer is read from the bytes that are written for
it, is read from no others as short, and is written in words with nothing
wrapped. -/
theorem coding_exact_and_shortest :
    (∀ field : Bytes, 0 < field.length → field.length ≤ maxWidth →
      ReadAs (zeroCode + UInt8.ofNat field.length) field (value field)
        ∧ ReadAs (zeroCode - UInt8.ofNat field.length) field
          ((value field : Int) - (capacity field.length - 1 : Nat))
        ∧ Word.integer? (zeroCode + UInt8.ofNat field.length) field
          = some (int64? (value field))
        ∧ Word.integer? (zeroCode - UInt8.ofNat field.length) field
          = some (int64? ((value field : Int) - (capacity field.length - 1 : Nat))))
      ∧ ∀ n : Int64,
        Element.unpackAt (Atom.int n).pack 0 = .ok (.atom (.int n), (Atom.int n).pack.length)
          ∧ (∀ s : Bytes, Element.unpackAt s 0 = .ok (.atom (.int n), s.length) →
            s ≠ (Atom.int n).pack → (Atom.int n).pack.length < s.length)
          ∧ Word.pack? n = some (Atom.int n).pack :=
  ⟨fun _ hpos h => ⟨readAs_nonnegative h, readAs_negative hpos h,
      Word.integer?_nonnegative hpos h, Word.integer?_negative h⟩,
    fun n => ⟨unpackAt_pack n, fun _ => length_pack_lt_of_unpackAt, Word.pack?_eq n⟩⟩

/-- The least field of eight bytes that writes no 64-bit integer from zero on, and
what it writes below zero; and a seven in a byte more than it needs. -/
theorem coding_exact_and_shortest_wide :
    let field : Bytes := [0x80, 0, 0, 0, 0, 0, 0, 0]
    0 < field.length ∧ field.length ≤ maxWidth
      ∧ Element.unpackAt (0x1C :: field) 0 = .error (.integerTooLarge 0)
      ∧ Word.integer? 0x1C field = some none
      ∧ Element.unpackAt (0x0C :: field) 0 = .ok (.atom (.int (-0x7FFFFFFFFFFFFFFF)), 9)
      ∧ Element.unpackAt [0x16, 0x00, 0x07] 0 = .ok (.atom (.int 7), 3)
      ∧ (Atom.int 7).pack.length < 3 := by
  intro field
  obtain ⟨hfields, hwritten⟩ := coding_exact_and_shortest
  have hpos : 0 < field.length := by decide
  have hle : field.length ≤ maxWidth := by decide
  obtain ⟨habove, hbelow, hword, -⟩ := hfields field hpos hle
  have hrefused := habove.beyond (Or.inr (by decide)) [] []
  obtain ⟨n, hn, hread⟩ := hbelow.within (by decide) (by decide)
  have hvalue : n = -0x7FFFFFFFFFFFFFFF := Int64.toInt_inj.1 (hn.trans (by decide))
  have hcode : zeroCode - UInt8.ofNat field.length = 0x0C := by decide
  rw [hcode, hvalue] at hread
  have hseven : Element.unpackAt [0x16, 0x00, 0x07] 0 = .ok (.atom (.int 7), 3) := rfl
  exact ⟨hpos, hle, hrefused, hword, hread [] [], hseven, (hwritten 7).2.1 _ hseven (by decide)⟩

end Integer

end OrderedKey
