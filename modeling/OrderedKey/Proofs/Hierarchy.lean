import OrderedKey.Proofs.Isolation

/-!
# Subspaces inside subspaces

A subspace inside another has a longer base, and that is all: the key of a tuple
is written behind as much of its path as is in the base, and the rest of the path
is written as elements in front of its own. So one key can be read from either
end of the path, in the subspace inside as the tuple it was written for and in
the one around as that tuple behind the elements of the path.

The base of the subspace around is any bytes, which may be no key and may end in
the middle of one. It never matters, since no one reads it. What does matter is
how the key of the path begins, for a range leaves out what goes on with the
mark behind the base; and no key begins with the mark.
-/

namespace OrderedKey.Subspace

variable {s : Subspace}

/-- **The range of a subspace inside is in the range**, and not only as far as
keys go. -/
theorem mem_range_of_mem_range_child {a : Tuple} {key : Bytes} (h : key ∈ (s.child a).range) :
    key ∈ s.range := by
  obtain ⟨rest, rfl, hne, hmark⟩ := mem_range_iff.1 h
  refine mem_range_iff.2 ⟨Tuple.pack a ++ rest, List.append_assoc _ _ _, ?_, ?_⟩
  · exact List.append_ne_nil_of_right_ne_nil _ hne
  · exact (Tuple.spelling_pack a).head?_append_ne hmark

/-- **Subspaces nest.** A tuple has the same key in a subspace inside as it has,
behind the elements of that subspace, in the one around; each of the two reads
the key as it was written there. What is in the range of the subspace inside is
in the range of the one around, and of the keys written inside, only the bare
base is not in the range inside. -/
theorem child_pack_unpack_range (s : Subspace) {a b : Tuple} (ha : Tuple.depth a ≤ maxDepth)
    (hb : Tuple.depth b ≤ maxDepth) :
    (s.child a).pack b = s.pack (a ++ b)
      ∧ (s.child a).unpack ((s.child a).pack b) = .ok b
      ∧ s.unpack ((s.child a).pack b) = .ok (a ++ b)
      ∧ (∀ key : Bytes, key ∈ (s.child a).range → key ∈ s.range)
      ∧ ((s.child a).pack b ∈ (s.child a).range ↔ b ≠ []) := by
  have hdepth : Tuple.depth (a ++ b) ≤ maxDepth := by
    rw [Tuple.depth_append]
    exact Nat.max_le.2 ⟨ha, hb⟩
  refine ⟨pack_child a b, unpack_own_pack hb, ?_, fun key => mem_range_of_mem_range_child,
    pack_mem_own_range_iff⟩
  rw [pack_child]
  exact unpack_own_pack hdepth

/-- A base that ends in the code of a text, and an element that ends with it. -/
theorem child_pack_unpack_range_raw :
    ((⟨[0xFF, 0x02]⟩ : Subspace).child [.null]).pack [.atom (.string "a")]
        = [0xFF, 0x02, 0x00, 0x02, 0x61, 0x00]
      ∧ ((⟨[0xFF, 0x02]⟩ : Subspace).child [.null]).unpack [0xFF, 0x02, 0x00, 0x02, 0x61, 0x00]
        = .ok [.atom (.string "a")]
      ∧ (⟨[0xFF, 0x02]⟩ : Subspace).unpack [0xFF, 0x02, 0x00, 0x02, 0x61, 0x00]
        = .ok [.null, .atom (.string "a")]
      ∧ [0xFF, 0x02, 0x00, 0x02, 0x61, 0x00] ∈ (⟨[0xFF, 0x02]⟩ : Subspace).range := by
  obtain ⟨hkey, hinside, haround, hrange, hmem⟩ := child_pack_unpack_range ⟨[0xFF, 0x02]⟩
    (a := [.null]) (b := [.atom (.string "a")]) (by decide) (by decide)
  exact ⟨hkey, hinside, haround, hrange _ (hmem.2 (List.cons_ne_nil _ _))⟩

end OrderedKey.Subspace
