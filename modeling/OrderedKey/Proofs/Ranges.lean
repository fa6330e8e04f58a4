import OrderedKey.Proofs.UniqueSpelling

/-!
# What the ranges hold

The range of a tuple is given by two byte strings, its key and its key with
`0xFF` behind it. Between them are the byte strings that begin with the key
and do not go on with `0xFF` (`Tuple.mem_range_iff`). That excludes more than
it seems to. A byte string that begins with the key of a tuple need not be
the key of a tuple that begins with its elements: the key of `("a")` is the
beginning of that of `("a\0")`, and the key of `(())` of that of
`((null))`. But in all these cases a terminator is taken for a marked
`0x00`, so what goes on behind it is the mark, and the mark is `0xFF`.

So among keys the range of a tuple is exact (`Tuple.pack_mem_range_iff`). It
holds the keys of the tuples that begin with its elements and no other.
-/

namespace OrderedKey

/-- What is below the mark does not begin with it. -/
theorem KeyRange.mem_below_mark_iff {rest : Bytes} :
    rest ∈ (⟨[], [escapeMark]⟩ : KeyRange) ↔ rest.head? ≠ some escapeMark := by
  rw [mem_iff, and_iff_right (List.nil_le rest)]
  cases rest with
  | nil => exact iff_of_true (List.nil_lt_cons _ _) (by simp)
  | cons b rest =>
    have hlt : b < escapeMark ↔ b ≠ escapeMark := by
      have hb := b.toNat_lt
      rw [UInt8.lt_iff_toNat_lt, Ne, ← UInt8.toNat_inj]
      show b.toNat < 255 ↔ ¬ b.toNat = 255
      omega
    rw [List.cons_lt_cons_iff, hlt, List.head?_cons, Ne, Ne, Option.some_inj]
    exact or_iff_left fun h => List.not_lt_nil _ h.2

/-- From the terminator on and below the mark there is what goes on, and not
with the mark. -/
theorem KeyRange.mem_terminator_mark_iff {rest : Bytes} :
    rest ∈ (⟨[terminator], [escapeMark]⟩ : KeyRange)
      ↔ rest ≠ [] ∧ rest.head? ≠ some escapeMark := by
  have hstart : [terminator] ≤ rest ↔ rest ≠ [] := by
    cases rest with
    | nil => exact iff_of_false (fun h => by cases List.le_nil.1 h) (fun h => h rfl)
    | cons b rest =>
      have hb : terminator < b ∨ terminator = b := by
        rw [UInt8.lt_iff_toNat_lt, ← UInt8.toNat_inj]
        show 0 < b.toNat ∨ 0 = b.toNat
        omega
      refine iff_of_true (List.cons_le_cons_iff.2 ?_) (List.cons_ne_nil b rest)
      exact hb.imp_right fun heq => ⟨heq, List.nil_le rest⟩
  rw [← mem_below_mark_iff, mem_iff, mem_iff, hstart]
  exact and_congr_right fun _ => (and_iff_right (List.nil_le rest)).symm

namespace Tuple

/-- The range of a tuple holds what begins with its key and does not go on with
the mark. -/
theorem mem_range_iff {p : Tuple} {key : Bytes} :
    key ∈ range p ↔ ∃ rest, key = pack p ++ rest ∧ rest.head? ≠ some escapeMark := by
  have hrange : range p = ⟨pack p ++ [], pack p ++ [escapeMark]⟩ := by
    rw [List.append_nil]
    rfl
  rw [hrange, KeyRange.mem_append_iff]
  exact exists_congr fun rest => and_congr_right fun _ => KeyRange.mem_below_mark_iff

/-- **The range of a tuple is exact**: it holds the keys of the tuples that
begin with its elements, itself included, and no other key. -/
theorem pack_mem_range_iff (p k : Tuple) : pack k ∈ range p ↔ p <+: k := by
  rw [mem_range_iff]
  constructor
  · rintro ⟨rest, hkey, hrest⟩
    obtain ⟨t, rfl, -⟩ := (spelling_pack p).split (hkey ▸ spelling_pack k) hrest
    exact List.prefix_append p t
  · rintro ⟨t, rfl⟩
    exact ⟨pack t, pack_append p t, head?_pack_ne t⟩

/-- The key of `((null))` begins with that of `(())` and is not in its range. -/
example : pack [.tuple []] <+: pack [.tuple [.null]]
    ∧ pack [.tuple [.null]] ∉ range [.tuple []] := by
  decide

end Tuple

end OrderedKey
