import OrderedKey.Proofs.Reading
import OrderedKey.Proofs.ShortestSpelling

/-!
# The grammar of keys

The spellings of tuples are the grammar of keys. Bytes are read as a tuple
exactly if they spell it and it is not too deep (`Tuple.unpack_eq_ok_iff`),
so the grammar says all there is to say about what the reader accepts, and
it has one freedom: an integer may be given more bytes than it needs.
`Atom.spelling_iff` lists what that comes to, sign by sign.

A reader that accepts more than is written makes for keys that come back
changed. What may change is bounded by the grammar again. The tuple that was
read is no deeper than a reader goes, so it can be written and read once
more; and of its spellings the written one is the shortest, so foreign bytes
never grow by being read and written, and stay as many only if they are what
is written (`Tuple.unpack_pack_of_unpack`).
-/

namespace OrderedKey

/-! ## The spellings of an atom -/

namespace Integer

/-- What spells the integer `n` in a field of `width` bytes. The code of zero
is moved up by the width for an integer above zero and down for one below,
which is written as what it has above the least one of the width. Zero is
both, and may be a field of `0x00` or a field of `0xFF`. -/
def SpelledIn (width : Nat) (n : Int) (s : Bytes) : Prop :=
  0 < n ∧ s = (zeroCode + UInt8.ofNat width) :: bigEndian width n.natAbs
  ∨ n < 0 ∧ s = (zeroCode - UInt8.ofNat width) :: bigEndian width (capacity width - 1 - n.natAbs)
  ∨ n = 0 ∧ (s = (zeroCode + UInt8.ofNat width) :: List.replicate width 0x00
    ∨ 0 < width ∧ s = (zeroCode - UInt8.ofNat width) :: List.replicate width 0xFF)

theorem spelledIn_nonnegative (width magnitude : Nat) :
    SpelledIn width magnitude
      ((AtomCode.nonnegative width).toByte :: bigEndian width magnitude) := by
  rcases Nat.eq_zero_or_pos magnitude with rfl | hpos
  · rw [bigEndian_zero]
    exact Or.inr (Or.inr ⟨rfl, Or.inl rfl⟩)
  · exact Or.inl ⟨by omega, rfl⟩

theorem spelledIn_negative {width : Nat} (hwidth : 0 < width) (magnitude : Nat) :
    SpelledIn width (-magnitude)
      ((AtomCode.negative width).toByte :: bigEndian width (limit width - magnitude)) := by
  rcases Nat.eq_zero_or_pos magnitude with rfl | hpos
  · rw [Nat.sub_zero, limit, bigEndian_capacity_sub_one]
    exact Or.inr (Or.inr ⟨rfl, Or.inr ⟨hwidth, rfl⟩⟩)
  · refine Or.inr (Or.inl ⟨by omega, ?_⟩)
    rw [Int.natAbs_neg]
    rfl

end Integer

/-- **The only freedom is in the integers.** An integer is spelled in every
width from the fewest bytes that hold it up to eight, and any other atom as it
is written. -/
theorem Atom.spelling_iff {a : Atom} {s : Bytes} :
    Spelling a s ↔ (∀ n, a ≠ int n) ∧ s = a.pack
      ∨ ∃ n width, a = int n ∧ Integer.width n.toInt.natAbs ≤ width
        ∧ width ≤ Integer.maxWidth ∧ Integer.SpelledIn width n.toInt s := by
  constructor
  · intro h
    cases h with
    | written h => exact Or.inl ⟨h, rfl⟩
    | @nonnegative n width magnitude value fits bound =>
      refine Or.inr ⟨n, width, rfl, ?_, bound, ?_⟩ <;> rw [value]
      · exact Integer.width_le_iff.2 fits
      · exact Integer.spelledIn_nonnegative width magnitude
    | @negative n width magnitude value fits positive bound =>
      refine Or.inr ⟨n, width, rfl, ?_, bound, ?_⟩ <;> rw [value]
      · rw [Int.natAbs_neg]
        exact Integer.width_le_iff.2 fits
      · exact Integer.spelledIn_negative positive magnitude
  · rintro (⟨h, rfl⟩ | ⟨n, width, rfl, hwidth, hbound, hspelled⟩)
    · exact .written h
    · have hfits := Integer.width_le_iff.1 hwidth
      rcases hspelled with ⟨hn, rfl⟩ | ⟨hn, rfl⟩ | ⟨hn, rfl | ⟨hpos, rfl⟩⟩
      · exact .nonnegative (by omega) hfits hbound
      · -- below zero a magnitude takes a byte at least
        have hzero := @Integer.width_eq_zero_iff n.toInt.natAbs
        exact .negative (by omega) hfits (by omega) hbound
      · rw [← bigEndian_zero]
        exact .nonnegative (by omega) (capacity_pos width) hbound
      · rw [← bigEndian_capacity_sub_one]
        exact .negative (by omega) (capacity_pos width) hpos hbound

namespace Tuple

/-! ## What is read -/

/-- **Reading takes the grammar and nothing else**: bytes are read as a tuple
exactly if there are any, the tuple is not too deep, and they are spellings of
its elements one behind the other. All that is free in these is the width of
the integers. -/
theorem unpack_eq_ok_iff :
    (∀ (data : Bytes) (t : Tuple),
      unpack data = .ok t ↔ data ≠ [] ∧ depth t ≤ maxDepth ∧ Spelling t data)
    ∧ ∀ (a : Atom) (s : Bytes),
      Atom.Spelling a s ↔ (∀ n, a ≠ .int n) ∧ s = a.pack
        ∨ ∃ n width, a = .int n ∧ Integer.width n.toInt.natAbs ≤ width
          ∧ width ≤ Integer.maxWidth ∧ Integer.SpelledIn width n.toInt s := by
  refine ⟨fun data t => ⟨fun h => ?_, fun h => ?_⟩, fun a s => Atom.spelling_iff⟩
  · obtain ⟨hne, hspelling, hdepth⟩ := spelling_of_unpack h
    exact ⟨hne, hdepth, hspelling⟩
  · obtain ⟨hne, hdepth, hspelling⟩ := h
    exact hspelling.unpack_eq_ok hne hdepth

/-! ## What is read and written again -/

/-- **What was read can be written and read again**, and it has not grown: the
key of a tuple is no longer than any bytes the tuple was read from, and as
long only if it is those bytes. -/
theorem unpack_pack_of_unpack {data : Bytes} {t : Tuple} (h : unpack data = .ok t) :
    unpack (pack t) = .ok t ∧ (pack t).length ≤ data.length
      ∧ ((pack t).length = data.length → pack t = data) := by
  obtain ⟨hne, hspelling, hdepth⟩ := spelling_of_unpack h
  have hwritten := spelling_pack t
  have hpack : pack t ≠ [] := fun hnil => hne (hspelling.eq_nil_iff.2 (hwritten.eq_nil_iff.1 hnil))
  have hshortest := hspelling.shortest
  exact ⟨hwritten.unpack_eq_ok hpack hdepth, hshortest.length_le,
    fun hlength => (hshortest.eq_of_length hlength.symm).symm⟩

/-- A seven in two bytes behind a missing value, both in a nested tuple, and a
zero from below. -/
theorem unpack_pack_of_unpack_wide :
    unpack [0x05, 0x00, 0xFF, 0x16, 0x00, 0x07, 0x00, 0x13, 0xFF]
        = .ok [.tuple [.null, .atom (.int 7)], .atom (.int 0)]
      ∧ unpack (pack [.tuple [.null, .atom (.int 7)], .atom (.int 0)])
        = .ok [.tuple [.null, .atom (.int 7)], .atom (.int 0)]
      ∧ (pack [.tuple [.null, .atom (.int 7)], .atom (.int 0)]).length ≤ 9
      ∧ ((pack [.tuple [.null, .atom (.int 7)], .atom (.int 0)]).length = 9
        → pack [.tuple [.null, .atom (.int 7)], .atom (.int 0)]
          = [0x05, 0x00, 0xFF, 0x16, 0x00, 0x07, 0x00, 0x13, 0xFF]) := by
  have hseven : Element.Spelling (.atom (.int 7)) [0x16, 0x00, 0x07] :=
    .atom (@Atom.Spelling.nonnegative 7 2 7 rfl (by decide) (by decide))
  have hzero : Element.Spelling (.atom (.int 0)) [0x13, 0xFF] :=
    .atom (@Atom.Spelling.negative 0 1 0 rfl (by decide) (by decide) (by decide))
  have hrow : Element.RowSpelling [.null, .atom (.int 7)] [0x00, 0xFF, 0x16, 0x00, 0x07] :=
    .null (.cons (by decide) hseven .nil)
  have hread : unpack [0x05, 0x00, 0xFF, 0x16, 0x00, 0x07, 0x00, 0x13, 0xFF]
      = .ok [.tuple [.null, .atom (.int 7)], .atom (.int 0)] :=
    (Spelling.cons (.tuple hrow) (.cons hzero .nil)).unpack_eq_ok (by decide) (by decide)
  exact ⟨hread, unpack_pack_of_unpack hread⟩

end Tuple

end OrderedKey
