import OrderedKey.Proofs.Overrun
import OrderedKey.Proofs.Ranges
import OrderedKey.Subspace

/-!
# Subspaces apart

A subspace is described by a tuple and decides by bytes, and the two do not
quite agree: the key of `("a")` is the beginning of that of `("a\0")`, though
neither tuple begins with the other. Three things can be asked of subspaces
that stand side by side, and the answers differ.

A *range* keeps them apart for good. It leaves out what goes on with the mark,
and a key that is the beginning of another without its tuple being so does go
on with the mark. So the ranges of two such subspaces have no byte string in
common, not even one that is no key
(`Subspace.pack_mem_range_ofTuple_iff_and_disjoint`).

*Membership* is the bare question whether a key begins with the base. A
subspace holds the keys of one beside it exactly if the tuple of that one
overruns its own (`Subspace.contains_pack_sibling`).

*Reading* is safe all the same. What is behind the base then begins with the
mark, which is the code of nothing, so a key is never read as a tuple that was
not written behind the base (`Subspace.unpack_ofTuple_pack_iff`).
-/

namespace OrderedKey

/-! ## Two keys with a common beginning -/

namespace Tuple

/-- **Bytes that begin with two keys** and go on with the mark behind neither
are those of tuples of which one begins with the other. -/
theorem prefix_or_prefix_of_pack_append {p q : Tuple} {x y : Bytes}
    (h : pack p ++ x = pack q ++ y) (hx : x.head? ≠ some escapeMark)
    (hy : y.head? ≠ some escapeMark) : p <+: q ∨ q <+: p := by
  rcases List.append_eq_append_iff.1 h with ⟨z, hq, rfl⟩ | ⟨z, hp, rfl⟩
  · obtain ⟨t, rfl, -⟩ := exists_append_of_pack_eq hq (head?_ne_of_append hx)
    exact Or.inl (List.prefix_append p t)
  · obtain ⟨t, rfl, -⟩ := exists_append_of_pack_eq hp (head?_ne_of_append hy)
    exact Or.inr (List.prefix_append q t)

/-- A key that is the beginning of two keys side by side is the beginning of
the first, or its tuple goes on where the first tuple ends. -/
theorem pack_prefix_of_append {p q k : Tuple} (hqp : ¬ q <+: p)
    (h : pack p <+: pack (q ++ k)) : pack p <+: pack q := by
  rw [pack_append] at h
  rcases List.prefix_or_prefix_of_prefix h (List.prefix_append (pack q) (pack k)) with
    hpq | ⟨z, hz⟩
  · exact hpq
  · obtain ⟨w, hw⟩ := h
    rw [← hz, List.append_assoc] at hw
    have hzw : (z ++ w).head? ≠ some escapeMark := by
      rw [List.append_cancel_left hw]
      exact head?_pack_ne k
    obtain ⟨t, rfl, -⟩ := exists_append_of_pack_eq hz.symm (head?_ne_of_append hzw)
    exact absurd (List.prefix_append q t) hqp

end Tuple

namespace Subspace

/-! ## Ranges -/

/-- The range of a subspace holds what goes on behind the base, and not with
the mark. -/
theorem mem_range_iff {s : Subspace} {key : Bytes} :
    key ∈ s.range ↔ ∃ rest, key = s.base ++ rest ∧ rest ≠ [] ∧ rest.head? ≠ some escapeMark := by
  have hrange : s.range = ⟨s.base ++ [terminator], s.base ++ [escapeMark]⟩ := rfl
  rw [hrange, KeyRange.mem_append_iff]
  exact exists_congr fun rest => and_congr_right fun _ => KeyRange.mem_terminator_mark_iff

/-- Of the keys of a subspace its range holds all but the bare base. -/
theorem pack_mem_own_range_iff {s : Subspace} {t : Tuple} : s.pack t ∈ s.range ↔ t ≠ [] := by
  have hnil := (Tuple.spelling_pack t).eq_nil_iff
  rw [mem_range_iff]
  constructor
  · rintro ⟨rest, hkey, hne, -⟩ ht
    exact hne ((List.append_cancel_left hkey).symm.trans (hnil.2 ht))
  · intro ht
    exact ⟨Tuple.pack t, rfl, fun hpack => ht (hnil.1 hpack), Tuple.head?_pack_ne t⟩

/-- The range of the subspace of a tuple holds the keys of the tuples that begin
with its elements and have more. -/
theorem pack_mem_range_ofTuple {p k : Tuple} :
    Tuple.pack k ∈ (ofTuple p).range ↔ p <+: k ∧ p ≠ k := by
  rw [mem_range_iff]
  constructor
  · rintro ⟨rest, hkey, hne, hrest⟩
    obtain ⟨t, rfl, rfl⟩ := Tuple.exists_append_of_pack_eq hkey hrest
    refine ⟨List.prefix_append p t, fun heq => hne ?_⟩
    rw [List.self_eq_append_right.1 heq, Tuple.pack_nil]
  · rintro ⟨⟨t, rfl⟩, hne⟩
    refine ⟨Tuple.pack t, Tuple.pack_append p t, fun hnil => hne ?_, Tuple.head?_pack_ne t⟩
    rw [(Tuple.spelling_pack t).eq_nil_iff.1 hnil, List.append_nil]

/-- **Subspaces can be scanned on their own.** The range of the subspace of a
tuple holds, of all keys, those of the tuples that begin with its elements and
have more; and where neither of two tuples begins with the other, no byte
string whatever is in the ranges of both. -/
theorem pack_mem_range_ofTuple_iff_and_disjoint :
    (∀ p k : Tuple, k.pack ∈ (ofTuple p).range ↔ p <+: k ∧ p ≠ k)
      ∧ ∀ p q : Tuple, ¬ p <+: q → ¬ q <+: p →
        ∀ key : Bytes, ¬ (key ∈ (ofTuple p).range ∧ key ∈ (ofTuple q).range) := by
  refine ⟨fun p k => pack_mem_range_ofTuple, fun p q hpq hqp key hkey => ?_⟩
  obtain ⟨x, hx, -, hxmark⟩ := mem_range_iff.1 hkey.1
  obtain ⟨y, hy, -, hymark⟩ := mem_range_iff.1 hkey.2
  rcases Tuple.prefix_or_prefix_of_pack_append (hx.symm.trans hy) hxmark hymark with h | h
  · exact hpq h
  · exact hqp h

/-- The key of `("a")` is the beginning of that of `("a\0")`, and of every key
in the range of its subspace. -/
theorem pack_mem_range_ofTuple_iff_and_disjoint_text :
    ¬ [Element.atom (.string "a")] <+: [.atom (.string "a\x00")]
      ∧ ¬ [Element.atom (.string "a\x00")] <+: [.atom (.string "a")]
      ∧ Tuple.pack [.atom (.string "a")] <+: Tuple.pack [.atom (.string "a\x00"), .null]
      ∧ Tuple.pack [.atom (.string "a\x00"), .null] ∈ (ofTuple [.atom (.string "a\x00")]).range
      ∧ Tuple.pack [.atom (.string "a\x00"), .null] ∉ (ofTuple [.atom (.string "a")]).range := by
  have hpq : ¬ [Element.atom (.string "a")] <+: [.atom (.string "a\x00")] := by decide
  have hqp : ¬ [Element.atom (.string "a\x00")] <+: [.atom (.string "a")] := by decide
  have hmem := (pack_mem_range_ofTuple_iff_and_disjoint.1 [.atom (.string "a\x00")]
    [.atom (.string "a\x00"), .null]).2 (by decide)
  exact ⟨hpq, hqp, by decide, hmem,
    fun h => pack_mem_range_ofTuple_iff_and_disjoint.2 _ _ hpq hqp _ ⟨h, hmem⟩⟩

/-! ## Reading -/

/-- **What a subspace reads** is spelled behind the base by a tuple that is not
too deep. -/
theorem unpack_eq_ok_iff_spelling {s : Subspace} {key : Bytes} {t : Tuple} :
    s.unpack key = .ok t
      ↔ ∃ rest, key = s.base ++ rest ∧ Tuple.Spelling t rest ∧ Tuple.depth t ≤ maxDepth := by
  constructor
  · intro h
    by_cases hcontains : s.contains key = true
    · obtain ⟨rest, rfl⟩ := contains_iff.1 hcontains
      rw [unpack_base_append] at h
      refine ⟨rest, rfl, ?_⟩
      by_cases hrest : rest = []
      · rw [if_pos hrest] at h
        cases h
        rw [hrest]
        exact ⟨.nil, Nat.zero_le _⟩
      · rw [if_neg hrest] at h
        exact (Tuple.spelling_of_unpack h).2
    · rw [unpack, if_neg hcontains] at h
      cases h
  · rintro ⟨rest, rfl, hspelling, hdepth⟩
    rw [unpack_base_append]
    by_cases hrest : rest = []
    · rw [if_pos hrest, hspelling.eq_nil_iff.1 hrest]
    · rw [if_neg hrest, hspelling.unpack_eq_ok hrest hdepth]

/-- **A subspace reads back what it writes**, the tuple without elements too. -/
theorem unpack_own_pack {s : Subspace} {t : Tuple} (h : Tuple.depth t ≤ maxDepth) :
    s.unpack (s.pack t) = .ok t :=
  unpack_eq_ok_iff_spelling.2 ⟨Tuple.pack t, rfl, Tuple.spelling_pack t, h⟩

/-- **A key whose tuple does not begin with that of the subspace is refused**,
for its first byte behind the base where it has the base, since that byte is
the mark. -/
theorem unpack_ofTuple_eq_error {p k : Tuple} (h : ¬ p <+: k) :
    (ofTuple p).unpack k.pack
      = .error (if p.pack <+: k.pack then .unknownCode escapeMark 0
        else .outsideSubspace p.pack.length) := by
  by_cases hbytes : p.pack <+: k.pack
  · obtain ⟨x, hx⟩ := hbytes
    obtain ⟨rest, rfl⟩ := Tuple.exists_mark_of_pack_eq h hx.symm
    have hread : (ofTuple p).unpack (p.pack ++ escapeMark :: rest)
        = Tuple.unpack (escapeMark :: rest) := unpack_base_append (escapeMark :: rest)
    rw [if_pos ⟨_, hx⟩, ← hx, hread, Tuple.unpack_mark]
  · have hcontains : ¬ (ofTuple p).contains k.pack = true := fun hp => hbytes (contains_iff.1 hp)
    rw [if_neg hbytes, unpack, if_neg hcontains]
    rfl

/-- **A subspace never takes a key for another tuple's.** It reads the key of a
tuple that is not too deep as what the tuple has behind the elements of the
base, and if the tuple does not begin with these it refuses the key, also where
the bytes of the base are the beginning of the key. -/
theorem unpack_ofTuple_pack_iff (p : Tuple) {k : Tuple} (hdepth : k.depth ≤ maxDepth) :
    (∀ t, (ofTuple p).unpack k.pack = .ok t ↔ k = p ++ t)
      ∧ (¬ p <+: k → (ofTuple p).unpack k.pack
        = .error (if p.pack <+: k.pack then .unknownCode escapeMark 0
          else .outsideSubspace p.pack.length)) := by
  refine ⟨fun t => ?_, unpack_ofTuple_eq_error⟩
  rw [unpack_eq_ok_iff_spelling]
  constructor
  · rintro ⟨rest, hkey, hspelling, -⟩
    obtain ⟨u, rfl, rfl⟩ := Tuple.exists_append_of_pack_eq hkey hspelling.head?_ne
    rw [hspelling.unique u.spelling_pack]
  · rintro rfl
    rw [Tuple.depth_append] at hdepth
    exact ⟨t.pack, Tuple.pack_append p t, t.spelling_pack,
      Nat.le_trans (Nat.le_max_right _ _) hdepth⟩

/-- A key of the subspace of `("a")`, and one that only begins with its bytes. -/
theorem unpack_ofTuple_pack_iff_text :
    (ofTuple [.atom (.string "a")]).unpack (Tuple.pack [.atom (.string "a"), .atom (.int 7)])
        = .ok [.atom (.int 7)]
      ∧ ¬ [Element.atom (.string "a")] <+: [.atom (.string "a\x00"), .null]
      ∧ Tuple.pack [.atom (.string "a")] <+: Tuple.pack [.atom (.string "a\x00"), .null]
      ∧ (ofTuple [.atom (.string "a")]).unpack (Tuple.pack [.atom (.string "a\x00"), .null])
        = .error (.unknownCode escapeMark 0) := by
  have hnot : ¬ [Element.atom (.string "a")] <+: [.atom (.string "a\x00"), .null] := by decide
  have hbytes : Tuple.pack [.atom (.string "a")]
      <+: Tuple.pack [.atom (.string "a\x00"), .null] := by decide
  have hrefused := (unpack_ofTuple_pack_iff [.atom (.string "a")] (by decide)).2 hnot
  rw [if_pos hbytes] at hrefused
  exact ⟨((unpack_ofTuple_pack_iff _ (by decide)).1 _).2 rfl, hnot, hbytes, hrefused⟩

/-! ## Membership -/

/-- **A subspace holds the keys of one beside it exactly if it is overrun.**
Where neither of two tuples begins with the other, the subspace of the first
holds none of the keys of that of the second, and refuses them as outside,
unless the second tuple overruns the first. Then it holds them all, and refuses
them for the mark behind its base. -/
theorem contains_pack_sibling {p q : Tuple} (hpq : ¬ p <+: q) (hqp : ¬ q <+: p) (k : Tuple) :
    (ofTuple p).contains ((ofTuple q).pack k) = q.overruns p
      ∧ (ofTuple p).unpack ((ofTuple q).pack k)
        = .error (if q.overruns p then .unknownCode escapeMark 0
          else .outsideSubspace p.pack.length) := by
  have hkey : (ofTuple q).pack k = Tuple.pack (q ++ k) := (Tuple.pack_append q k).symm
  have hnot : ¬ p <+: q ++ k := fun h =>
    (List.prefix_or_prefix_of_prefix h (List.prefix_append q k)).elim hpq hqp
  have hbytes : p.pack <+: Tuple.pack (q ++ k) ↔ q.overruns p = true := by
    rw [Tuple.overruns_iff hpq]
    refine ⟨Tuple.pack_prefix_of_append hqp, fun h => h.trans ?_⟩
    rw [Tuple.pack_append]
    exact List.prefix_append _ _
  rw [hkey]
  refine ⟨Bool.eq_iff_iff.2 (contains_iff.trans hbytes), ?_⟩
  rw [unpack_ofTuple_eq_error hnot]
  simp only [hbytes]

/-- `((null))` overruns `(())`. -/
theorem contains_pack_sibling_nested :
    ¬ [Element.tuple []] <+: [.tuple [.null]]
      ∧ ¬ [Element.tuple [.null]] <+: [.tuple []]
      ∧ (ofTuple [.tuple []]).contains ((ofTuple [.tuple [.null]]).pack [.atom (.int 7)]) = true
      ∧ (ofTuple [.tuple []]).unpack ((ofTuple [.tuple [.null]]).pack [.atom (.int 7)])
        = .error (.unknownCode 0xFF 0) := by
  have hpq : ¬ [Element.tuple []] <+: [.tuple [.null]] := by decide
  have hqp : ¬ [Element.tuple [.null]] <+: [.tuple []] := by decide
  have hsibling := contains_pack_sibling hpq hqp [.atom (.int 7)]
  exact ⟨hpq, hqp, hsibling.1, hsibling.2⟩

/-- **Subspaces of which neither is inside the other may share keys**: that of
the byte string `61` holds the keys of that of `61 00`, and cannot read them. -/
theorem contains_pack_overrunning_sibling :
    ¬ [Element.atom (.bytes [0x61])] <+: [.atom (.bytes [0x61, 0x00])]
      ∧ ¬ [Element.atom (.bytes [0x61, 0x00])] <+: [.atom (.bytes [0x61])]
      ∧ (ofTuple [.atom (.bytes [0x61])]).contains
        ((ofTuple [.atom (.bytes [0x61, 0x00])]).pack [.atom (.bool true)]) = true
      ∧ (ofTuple [.atom (.bytes [0x61])]).unpack
        ((ofTuple [.atom (.bytes [0x61, 0x00])]).pack [.atom (.bool true)])
        = .error (.unknownCode 0xFF 0) := by
  refine ⟨by decide, by decide, by decide, ?_⟩
  show (ofTuple _).unpack ((ofTuple [.atom (.bytes [0x61])]).base ++ [escapeMark, 0x00, 0x27]) = _
  rw [unpack_base_append, if_neg (by decide), Tuple.unpack_mark]

end Subspace

end OrderedKey
