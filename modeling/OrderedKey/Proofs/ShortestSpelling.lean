import OrderedKey.Tuple.Spelling

/-!
# The shortest spelling

Writing gives every integer the fewest bytes that hold it. So a tuple has
no shorter spelling than the one that is written, and no other that is as
short. Spellings are put together one behind the other, and what is true
of the parts in this is true of the whole: two lengths add up to the least
only if each of them is the least (`Shortest.append`).
-/

namespace OrderedKey

/-- `p` is no longer than `s`, and as long only if it is `s`. -/
structure Shortest (p s : Bytes) : Prop where
  /-- It is no longer. -/
  length_le : p.length ≤ s.length
  /-- It is as long only in one case. -/
  eq_of_length : s.length = p.length → s = p

namespace Shortest

theorem refl (s : Bytes) : Shortest s s := ⟨Nat.le_refl _, fun _ => rfl⟩

/-- What is strictly shorter is so in particular. -/
theorem of_lt {p s : Bytes} (h : p.length < s.length) : Shortest p s :=
  ⟨Nat.le_of_lt h, fun heq => (Nat.ne_of_gt h heq).elim⟩

/-- A narrower field makes for fewer bytes. -/
theorem of_width_lt {v w : Nat} (h : v < w) (c d : UInt8) (m n : Nat) :
    Shortest (c :: bigEndian v m) (d :: bigEndian w n) := by
  refine .of_lt ?_
  rw [List.length_cons, List.length_cons, length_bigEndian, length_bigEndian]
  exact Nat.succ_lt_succ h

/-- **Two shortest spellings side by side are shortest.** -/
theorem append {p q s t : Bytes} (h : Shortest p s) (h' : Shortest q t) :
    Shortest (p ++ q) (s ++ t) := by
  have hle := h.length_le
  have hle' := h'.length_le
  refine ⟨?_, fun heq => ?_⟩
  · rw [List.length_append, List.length_append]
    omega
  · rw [List.length_append, List.length_append] at heq
    rw [h.eq_of_length (by omega), h'.eq_of_length (by omega)]

end Shortest

/-- An atom has no other spelling as short as the written one. -/
theorem Atom.Spelling.shortest {a : Atom} {s : Bytes} (h : Atom.Spelling a s) :
    Shortest a.pack s := by
  cases h with
  | written => exact .refl _
  | @nonnegative n width magnitude value fits bound =>
    obtain rfl : magnitude = n.toInt.natAbs := by omega
    have hle := Integer.width_le_iff.2 fits
    rw [pack_int_of_nonneg (by omega)]
    rcases Nat.lt_or_eq_of_le hle with hlt | rfl
    · exact .of_width_lt hlt _ _ _ _
    · exact .refl _
  | @negative n width magnitude value fits positive bound =>
    obtain rfl : magnitude = n.toInt.natAbs := by omega
    have hle := Integer.width_le_iff.2 fits
    by_cases hn : 0 ≤ n.toInt
    · -- zero, which is written as one from zero on, in no bytes at all
      have hzero := Integer.width_eq_zero_iff.2 (show n.toInt.natAbs = 0 by omega)
      rw [pack_int_of_nonneg hn]
      exact .of_width_lt (hzero ▸ positive) _ _ _ _
    · rw [pack_int_of_neg hn]
      rcases Nat.lt_or_eq_of_le hle with hlt | rfl
      · exact .of_width_lt hlt _ _ _ _
      · exact .refl _

mutual

/-- An element has no other spelling as short as the written one. -/
theorem Element.Spelling.shortest : {e : Element} → {s : Bytes} → Element.Spelling e s →
    Shortest e.pack s
  | _, _, .atom h => h.shortest
  | _, _, .tuple h =>
    (Shortest.refl [nestedCode]).append ((Element.RowSpelling.shortest h).append (.refl _))

/-- And so a row of elements inside a nested tuple. -/
theorem Element.RowSpelling.shortest : {row : List Element} → {s : Bytes} →
    Element.RowSpelling row s → Shortest (Element.packNested row) s
  | _, _, .nil => .refl []
  | _, _, .null tail =>
    (Shortest.refl Element.nestedNull).append (Element.RowSpelling.shortest tail)
  | _, _, .cons hne head tail => by
    rw [Element.packNested_cons_of_ne hne]
    exact (Element.Spelling.shortest head).append (Element.RowSpelling.shortest tail)

end

/-- **A tuple has no other spelling as short as the written one.** -/
theorem Tuple.Spelling.shortest {t : Tuple} {s : Bytes} (h : Tuple.Spelling t s) :
    Shortest (Tuple.pack t) s := by
  induction h with
  | nil => exact .refl []
  | cons head tail ih => exact head.shortest.append ih

end OrderedKey
