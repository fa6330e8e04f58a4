import OrderedKey.Proofs.AtomOrder

/-!
# Values are ordered as their keys

`compare` on elements and on tuples looks at nothing but bytes. This module
says that it is the order of the values, `collate`: kinds first, then the
values of one kind, and tuples element by element
(`Tuple.compare_eq_collate`).

A tuple has no length and no separators in its key, so two keys part ways
in the middle of an element or behind one, and which of the two it is
cannot be told from the bytes so far. The statement that carries the
induction is therefore about elements with anything behind them – what
follows decides exactly where the elements are the same – and what follows
an element inside a nested tuple is the rest of the row with its
terminator, which never begins with the escape mark
(`Element.head?_packNested_append_ne`).

The element without value is the one that is written in two ways. Inside a
nested tuple its two bytes are still below every other code, and above the
terminator of a row that has ended, so the row is ordered as a tuple of the
top level is.
-/

namespace OrderedKey

namespace Element

/-- The element without value is below every other. -/
theorem collate_null_of_ne {b : Element} (h : b ≠ null) :
    null.collate b = .lt ∧ b.collate null = .gt := by
  cases b with
  | atom b =>
    cases b with
    | null => exact absurd rfl h
    | _ => exact ⟨rfl, rfl⟩
  | tuple t => exact ⟨rfl, rfl⟩

/-- The terminator is below every element that has a value. -/
theorem compare_terminator_pack_append {b : Element} (h : b ≠ null) (x y : Bytes) :
    compare (terminator :: x) (b.pack ++ y) = .lt := by
  obtain ⟨code, body, hpack, -, hcode⟩ := b.exists_pack_eq_cons
  have hne : code ≠ terminator := fun heq => h (hcode heq)
  rw [hpack, List.cons_append, List.compare_cons_cons, compare_terminator hne]
  rfl

/-- **A row that ends is below one that goes on**, whatever follows it. -/
theorem compare_terminator_packNested_cons {x : Bytes} (h : x.head? ≠ some escapeMark)
    (b : Element) (t : List Element) (y : Bytes) :
    compare (terminator :: x) (packNested (b :: t) ++ y) = .lt := by
  by_cases hb : b = null
  · rw [hb, packNested_cons_null, List.cons_append, List.cons_append, List.compare_cons_cons,
      compare_escapeMark_cons h]
    rfl
  · rw [packNested_cons_of_ne hb, List.append_assoc]
    exact compare_terminator_pack_append hb x _

/-- An atom and a tuple are decided by their codes. -/
theorem compare_pack_atom_tuple (a : Atom) (t : List Element) (x y : Bytes) :
    compare ((atom a).pack ++ x) ((tuple t).pack ++ y)
      = ((atom a).collate (tuple t)).then (compare x y) := by
  show compare (a.code.toByte :: (a.payload ++ x))
    (nestedCode :: (packNested t ++ [terminator] ++ y)) = (compare a.kindRank 3).then _
  rw [List.compare_cons_cons, Std.OrientedOrd.eq_swap (a := a.code.toByte),
    AtomCode.compare_nestedCode_toByte a.code_mem_all, ← Std.OrientedOrd.eq_swap, a.kindRank_code]
  have hne : a.kindRank ≠ 3 := by
    cases a <;> simp [Atom.kindRank]
  rcases Nat.lt_or_gt_of_ne hne with hlt | hgt
  · rw [Nat.compare_eq_lt.2 hlt]
    rfl
  · rw [Nat.compare_eq_gt.2 hgt]
    rfl

mutual

/-- **Elements are ordered as their keys**, whatever follows them that does
not begin with the mark. -/
theorem compare_pack_append : (a b : Element) → {x y : Bytes} → x.head? ≠ some escapeMark →
    y.head? ≠ some escapeMark →
    compare (a.pack ++ x) (b.pack ++ y) = (a.collate b).then (compare x y)
  | .atom a, .atom b, _, _, hx, hy => by
    rw [collate]
    exact a.compare_pack_append hx hy b
  | .atom a, .tuple t, x, y, _, _ => compare_pack_atom_tuple a t x y
  | .tuple s, .atom b, x, y, _, _ => by
    have hcollate : (tuple s).collate (atom b) = ((atom b).collate (tuple s)).swap := by
      show compare 3 b.kindRank = (compare b.kindRank 3).swap
      rw [← Std.OrientedOrd.eq_swap]
    rw [Std.OrientedOrd.eq_swap, compare_pack_atom_tuple, Ordering.swap_then, hcollate,
      ← Std.OrientedOrd.eq_swap (a := x)]
  | .tuple s, .tuple t, x, y, hx, hy => by
    have hrow := compare_packNested_append s t hx hy
    have hpack : ∀ (row : List Element) (z : Bytes),
        (tuple row).pack ++ z = nestedCode :: (packNested row ++ terminator :: z) := by
      intro row z
      simp [pack]
    rw [hpack, hpack, List.compare_cons_cons, Std.ReflOrd.compare_self, Ordering.eq_then, hrow,
      collate]

/-- **Rows inside a nested tuple are ordered element by element**, up to
their terminators and what follows these. -/
theorem compare_packNested_append : (s t : List Element) → {x y : Bytes} →
    x.head? ≠ some escapeMark → y.head? ≠ some escapeMark →
    compare (packNested s ++ terminator :: x) (packNested t ++ terminator :: y)
      = (collateList s t).then (compare x y)
  | [], [], x, y, _, _ => by
    show compare (terminator :: x) (terminator :: y) = _
    rw [List.compare_cons_cons, Std.ReflOrd.compare_self]
    rfl
  | [], b :: t, _, y, hx, _ => compare_terminator_packNested_cons hx b t (terminator :: y)
  | a :: s, [], x, y, _, hy => by
    show compare (packNested (a :: s) ++ terminator :: x) (terminator :: y) = .gt
    rw [Std.OrientedOrd.eq_swap, compare_terminator_packNested_cons hy]
    rfl
  | a :: s, b :: t, x, y, hx, hy => by
    have hrow := compare_packNested_append s t hx hy
    rw [collateList, Ordering.then_assoc, ← hrow]
    -- only where both have a value are the members written as on the top level
    by_cases ha : a = null <;> by_cases hb : b = null
    · rw [ha, hb, packNested_cons_null, packNested_cons_null]
      simp only [List.cons_append, List.compare_cons_cons, Std.ReflOrd.compare_self,
        Ordering.eq_then]
      rfl
    · rw [ha, packNested_cons_null, packNested_cons_of_ne hb, List.append_assoc, List.cons_append,
        compare_terminator_pack_append hb, (collate_null_of_ne hb).1]
      rfl
    · rw [hb, packNested_cons_null, packNested_cons_of_ne ha, List.append_assoc, List.cons_append,
        Std.OrientedOrd.eq_swap, compare_terminator_pack_append ha, (collate_null_of_ne ha).2]
      rfl
    · rw [packNested_cons_of_ne ha, packNested_cons_of_ne hb, List.append_assoc, List.append_assoc,
        compare_pack_append a b (head?_packNested_append_ne s x) (head?_packNested_append_ne t y)]

end

/-- Elements are ordered as their keys. -/
theorem compare_pack (a b : Element) : compare a.pack b.pack = a.collate b := by
  have h := compare_pack_append a b (x := []) (y := []) (by simp) (by simp)
  rwa [List.append_nil, List.append_nil, List.compare_nil_nil, Ordering.then_eq] at h

end Element

namespace Tuple

/-- Tuples are ordered as their keys, element by element. -/
theorem compare_pack (s t : Tuple) : Ord.compare s.pack t.pack = s.collate t := by
  induction s generalizing t with
  | nil =>
    cases t with
    | nil => rfl
    | cons b t =>
      obtain ⟨code, body, hpack, -, -⟩ := b.exists_pack_eq_cons
      rw [pack_cons, hpack]
      rfl
  | cons a s ih =>
    cases t with
    | nil =>
      obtain ⟨code, body, hpack, -, -⟩ := a.exists_pack_eq_cons
      rw [pack_cons, hpack]
      rfl
    | cons b t =>
      rw [pack_cons, pack_cons, Element.compare_pack_append a b (head?_pack_ne s) (head?_pack_ne t),
        ih]
      rfl

/-- **The order of keys is the order of values.** Tuples compare element by
element, the first pair that differs decides, and a tuple that stops first
is the smaller; elements compare by kind and within a kind by value; and a
tuple inside another is ordered as it is on the top level. -/
theorem compare_eq_collate :
    (∀ s t : Tuple, s.compare t = s.collate t)
      ∧ (∀ a b : Element, Ord.compare a b = a.collate b)
      ∧ ∀ s t : Tuple, Ord.compare (Element.tuple s) (Element.tuple t) = s.compare t := by
  refine ⟨compare_pack, Element.compare_pack, fun s t => ?_⟩
  calc Ord.compare (Element.tuple s) (Element.tuple t)
      = (Element.tuple s).collate (Element.tuple t) := Element.compare_pack _ _
    _ = s.collate t := by rw [Element.collate]; rfl
    _ = s.compare t := (compare_pack s t).symm

end Tuple

end OrderedKey
