import OrderedKey.Element.Pack

/-!
# The spellings of a tuple

Writing picks one byte string for a tuple, and reading takes a few more.
The only freedom is in the integers, which may be given more bytes than
they need, up to eight: a spelling of a tuple is what writing would give
but for the widths of its integers. Zero has the most spellings, since it
may also stand behind the codes of negative integers, as a field of
`0xFF`.

The relations below say which byte strings spell what, with no word about
how they are read. `Tuple.spelling_pack` says that writing picks one of
them.
-/

namespace OrderedKey

/-- Which byte strings spell an atom. -/
inductive Atom.Spelling : Atom → Bytes → Prop where
  /-- Any atom but an integer is spelled as it is written. -/
  | written {a : Atom} (h : ∀ n, a ≠ .int n) : Spelling a a.pack
  /-- An integer from zero on is spelled in any width that holds it. -/
  | nonnegative {n : Int64} {width magnitude : Nat} (value : n.toInt = magnitude)
      (fits : magnitude < capacity width) (bound : width ≤ Integer.maxWidth) :
      Spelling (.int n) ((AtomCode.nonnegative width).toByte :: bigEndian width magnitude)
  /-- An integer up to zero is spelled in any width that holds its magnitude,
  as what the magnitude lacks to the largest one. -/
  | negative {n : Int64} {width magnitude : Nat} (value : n.toInt = -magnitude)
      (fits : magnitude < capacity width) (positive : 0 < width)
      (bound : width ≤ Integer.maxWidth) :
      Spelling (.int n)
        ((AtomCode.negative width).toByte :: bigEndian width (Integer.limit width - magnitude))

mutual

/-- Which byte strings spell an element on the top level. -/
inductive Element.Spelling : Element → Bytes → Prop where
  /-- An atom is spelled as such. -/
  | atom {a : Atom} {s : Bytes} (h : Atom.Spelling a s) : Spelling (.atom a) s
  /-- A nested tuple is spelled by its code, its row and the terminator. -/
  | tuple {elements : List Element} {s : Bytes} (h : Element.RowSpelling elements s) :
      Spelling (.tuple elements) (nestedCode :: (s ++ [terminator]))

/-- Which byte strings spell a row of elements inside a nested tuple. -/
inductive Element.RowSpelling : List Element → Bytes → Prop where
  /-- Nothing spells the row without elements. -/
  | nil : RowSpelling [] []
  /-- The element without value is marked. -/
  | null {rest : List Element} {s : Bytes} (tail : Element.RowSpelling rest s) :
      RowSpelling (Element.null :: rest) (Element.nestedNull ++ s)
  /-- Any other element is spelled as on the top level. -/
  | cons {e : Element} {rest : List Element} {s t : Bytes} (h : e ≠ Element.null)
      (head : Element.Spelling e s) (tail : Element.RowSpelling rest t) :
      RowSpelling (e :: rest) (s ++ t)

end

/-- Which byte strings spell a tuple: its elements, one behind the other. -/
inductive Tuple.Spelling : Tuple → Bytes → Prop where
  /-- Nothing spells the tuple without elements. -/
  | nil : Spelling [] []
  /-- A first element stands in front of the others. -/
  | cons {e : Element} {rest : Tuple} {s t : Bytes} (head : Element.Spelling e s)
      (tail : Tuple.Spelling rest t) : Spelling (e :: rest) (s ++ t)

/-- An atom is spelled as it is written. -/
theorem Atom.spelling_pack (a : Atom) : Atom.Spelling a a.pack := by
  cases a with
  | int n =>
    have hfits := Integer.lt_capacity_width n.toInt.natAbs
    have hbound := Integer.width_toInt_le n
    by_cases hn : 0 ≤ n.toInt
    · rw [pack_int_of_nonneg hn]
      exact .nonnegative (by omega) hfits hbound
    · have hzero := @Integer.width_eq_zero_iff n.toInt.natAbs
      rw [pack_int_of_neg hn]
      exact .negative (by omega) hfits (by omega) hbound
  | _ => exact .written (fun n h => by cases h)

mutual

/-- An element is spelled as it is written. -/
theorem Element.spelling_pack : (e : Element) → Element.Spelling e e.pack
  | .atom a => .atom a.spelling_pack
  | .tuple elements => .tuple (Element.rowSpelling_packNested elements)

/-- So is a row of elements inside a nested tuple. -/
theorem Element.rowSpelling_packNested :
    (elements : List Element) → Element.RowSpelling elements (Element.packNested elements)
  | [] => .nil
  | e :: rest => by
    have hrest := Element.rowSpelling_packNested rest
    rw [packNested]
    split
    · rename_i h
      rw [Element.isNull_iff.1 h]
      exact .null hrest
    · rename_i h
      exact .cons (fun heq => h (heq ▸ rfl)) (Element.spelling_pack e) hrest

end

/-- **A tuple is spelled as it is written.** -/
theorem Tuple.spelling_pack (t : Tuple) : Tuple.Spelling t t.pack := by
  induction t with
  | nil => exact .nil
  | cons e t ih => exact .cons e.spelling_pack ih

end OrderedKey
