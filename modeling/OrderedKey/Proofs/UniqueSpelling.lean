import OrderedKey.Proofs.Reading

/-!
# Keys come apart in one way

A key is its elements one behind the other, with nothing in between, and an
element may begin like a longer one: the bytes of the text `"a"` are also
the first bytes of a text that goes on with a `0x00`. What keeps elements
apart is the mark, with which no element begins. Where two elements are in
front of bytes that do not begin with the mark, and all of it is the same,
the elements are the same and end at the same place
(`Element.Spelling.append_inj`). That is a fact about spellings and not about
their reader, and holds however deep the elements are. The reader proves it
all the same, since a reader may be given as many levels as two elements
need.

For tuples it follows element by element. A spelling in front of bytes that
do not begin with the mark belongs to the first elements of whatever tuple
all of it spells (`Tuple.Spelling.split`), and no bytes spell two tuples. So
keys are equal exactly where tuples are, and as far as equality goes nothing
is lost by comparing keys instead of values (`Tuple.beq_iff_pack_eq`).
-/

namespace OrderedKey

namespace Element

/-- **A spelling ends in one place**, whatever follows it that does not begin
with the mark. -/
theorem Spelling.append_inj {a b : Element} {s t x y : Bytes} (ha : Spelling a s)
    (hb : Spelling b t) (hx : x.head? ≠ some escapeMark) (hy : y.head? ≠ some escapeMark)
    (h : s ++ x = t ++ y) : a = b ∧ s = t ∧ x = y := by
  -- one reader that goes deep enough for both reads both off the same bytes
  obtain ⟨code, body, rfl, hread⟩ := ha.read_eq_ok (Nat.le_max_left a.depth b.depth)
  obtain ⟨code', body', rfl, hread'⟩ := hb.read_eq_ok (Nat.le_max_right a.depth b.depth)
  rw [List.cons_append, List.cons_append, List.cons.injEq] at h
  obtain ⟨rfl, hbytes⟩ := h
  have hsame := hread 0 x hx
  rw [hbytes, hread' 0 y hy] at hsame
  obtain ⟨rfl, hlength⟩ := Prod.mk.inj (Except.ok.inj hsame)
  obtain ⟨rfl, rfl⟩ := List.append_inj hbytes hlength.symm
  exact ⟨rfl, rfl, rfl⟩

/-- No bytes spell two elements. -/
theorem Spelling.unique {a b : Element} {s : Bytes} (ha : Spelling a s) (hb : Spelling b s) :
    a = b :=
  (ha.append_inj hb (x := []) (y := []) (by simp) (by simp) rfl).1

/-- Different elements are written differently. -/
theorem pack_injective {a b : Element} (h : a.pack = b.pack) : a = b :=
  a.spelling_pack.unique (h ▸ b.spelling_pack)

end Element

namespace Tuple

/-- **What begins with a spelling of a tuple begins with its elements**: if
bytes that spell a tuple are a spelling of `p` and more, and the more does not
begin with the mark, then `p` is the front of the tuple and the more spells
the rest of it. -/
theorem Spelling.split {p k : Tuple} {s x : Bytes} (hp : Spelling p s) (hk : Spelling k (s ++ x))
    (hx : x.head? ≠ some escapeMark) : ∃ t, k = p ++ t ∧ Spelling t x := by
  induction hp generalizing k with
  | nil => exact ⟨k, rfl, hk⟩
  | @cons e rest s t head tail ih =>
    generalize hbytes : s ++ t ++ x = bytes at hk
    cases hk with
    | nil =>
      obtain ⟨code, body, rfl, -, -⟩ := head.exists_eq_cons
      cases hbytes
    | cons head' tail' =>
      rw [List.append_assoc] at hbytes
      obtain ⟨rfl, rfl, rfl⟩ :=
        head.append_inj head' (tail.head?_append_ne hx) tail'.head?_ne hbytes
      obtain ⟨row, rfl, hrow⟩ := ih tail'
      exact ⟨row, rfl, hrow⟩

/-- No bytes spell two tuples. -/
theorem Spelling.unique {s t : Tuple} {data : Bytes} (hs : Spelling s data)
    (ht : Spelling t data) : s = t := by
  obtain ⟨rest, rfl, hrest⟩ := hs.split (x := []) (by rwa [List.append_nil]) (by simp)
  rw [hrest.eq_nil_iff.1 rfl, List.append_nil]

/-- Different tuples have different keys. -/
theorem pack_injective {s t : Tuple} (h : pack s = pack t) : s = t :=
  (spelling_pack s).unique (h ▸ spelling_pack t)

/-- **What begins with the key of a tuple begins with its elements**, unless it
goes on with the mark. -/
theorem exists_append_of_pack_eq {p k : Tuple} {x : Bytes} (h : pack k = pack p ++ x)
    (hx : x.head? ≠ some escapeMark) : ∃ t, k = p ++ t ∧ x = pack t := by
  obtain ⟨t, rfl, -⟩ := (spelling_pack p).split (h ▸ spelling_pack k) hx
  rw [pack_append] at h
  exact ⟨t, rfl, (List.append_cancel_left h).symm⟩

/-- **Values are equal exactly where their keys are**, and where they compare
as equal. Equality walks two values side by side and the order looks at nothing
but keys; they agree on all tuples and all elements, however deep. -/
theorem beq_iff_pack_eq :
    (∀ s t : Tuple, ((s == t) = true ↔ pack s = pack t)
      ∧ (pack s = pack t ↔ Tuple.compare s t = .eq))
    ∧ ∀ a b : Element, ((a == b) = true ↔ a.pack = b.pack)
      ∧ (a.pack = b.pack ↔ Ord.compare a b = .eq) := by
  refine ⟨fun s t => ⟨?_, ?_⟩, fun a b => ⟨?_, ?_⟩⟩
  · rw [beq_iff_eq]
    exact ⟨congrArg pack, pack_injective⟩
  · exact Std.compare_eq_iff_eq.symm
  · rw [beq_iff_eq]
    exact ⟨congrArg Element.pack, Element.pack_injective⟩
  · exact Std.compare_eq_iff_eq.symm

end Tuple

end OrderedKey
