import OrderedKey.Proofs.Reading

/-!
# Where the extensions of a stem end

The byte strings that begin with a stem lie side by side, and a store that
deletes or scans all of them needs to know where they end: a string above
each of them, and no higher than it has to be, or keys would be hit that do
not begin with the stem. Raising the last byte gives such a string. A `0xFF`
cannot be raised, and dropping it loses nothing, since below the string so
raised there is nothing that goes on differently from the stem.

Leastness compares one string with all others, those with other bytes and
those with other lengths. It is not proved on the end of the stem, where the
bytes are dropped and raised, but on its front. What is above a stem has a
first byte that is above that of the stem, or the same first byte, and then
it is the rest of it that is above the rest of the stem
(`Bytes.above_cons_iff`). The least string above a stem comes apart in the same
way (`Bytes.leastAbove?_cons`): the first byte is raised only where the rest of
the stem has no end.

No key of a tuple with elements is all `0xFF`, since no element begins so.
-/

namespace OrderedKey

namespace Bytes

/-- Every string that begins with `stem` is below `bound`. -/
def Above (stem bound : Bytes) : Prop := ∀ key : Bytes, stem <+: key → key < bound

/-- Nothing is above everything. -/
theorem not_above_nil (bound : Bytes) : ¬ Above [] bound :=
  fun h => List.lt_irrefl bound (h bound List.nil_prefix)

/-- **What is above a stem** has a greater first byte, or the same, and is above
the rest behind it. -/
theorem above_cons_iff {b : UInt8} {stem bound : Bytes} :
    Above (b :: stem) bound ↔ ∃ c rest, bound = c :: rest ∧ (b < c ∨ b = c ∧ Above stem rest) := by
  constructor
  · intro h
    cases bound with
    | nil => exact absurd (h (b :: stem) (List.prefix_refl _)) (List.not_lt_nil _)
    | cons c rest =>
      refine ⟨c, rest, rfl, ?_⟩
      rcases List.cons_lt_cons_iff.1 (h (b :: stem) (List.prefix_refl _)) with hlt | ⟨rfl, -⟩
      · exact Or.inl hlt
      · refine Or.inr ⟨rfl, fun key hkey => ?_⟩
        simpa using h (b :: key) (List.cons_prefix_cons.2 ⟨rfl, hkey⟩)
  · rintro ⟨c, rest, rfl, hc⟩ key hkey
    obtain ⟨tail, rfl, htail⟩ := List.cons_prefix_iff.1 hkey
    exact List.cons_lt_cons_iff.2 (hc.imp_right fun h => ⟨h.1, h.2 tail htail⟩)

/-- Raising goes on in front where nothing can be raised behind. -/
theorem raise?_append_singleton (bytes : Bytes) (b : UInt8) :
    raise? (bytes ++ [b])
      = match raise? bytes with
        | some raised => some (raised ++ [b])
        | none => if b = 0xFF then none else some [b + 1] := by
  induction bytes with
  | nil => rfl
  | cons c bytes ih =>
    rw [List.cons_append, raise?, raise?, ih]
    by_cases hc : c = 0xFF
    · rw [if_pos hc, if_pos hc]
    · rw [if_neg hc, if_neg hc]
      rfl

/-- **The least string above a stem, from the front**: the first byte stays if
the rest has an end, and is raised if not. -/
theorem leastAbove?_cons (b : UInt8) (stem : Bytes) :
    leastAbove? (b :: stem)
      = match leastAbove? stem with
        | some s => some (b :: s)
        | none => if b = 0xFF then none else some [b + 1] := by
  rw [leastAbove?, leastAbove?, List.reverse_cons, raise?_append_singleton]
  cases raise? stem.reverse with
  | none =>
    show Option.map List.reverse (if b = 0xFF then none else some [b + 1])
      = if b = 0xFF then none else some [b + 1]
    split <;> rfl
  | some raised => simp

/-- A byte that is no `0xFF` has a next one. -/
theorem lt_iff_add_one {b c : UInt8} (hb : b ≠ 0xFF) :
    b < c ↔ b + 1 < c ∨ b + 1 = c := by
  have hne : b.toNat ≠ 255 := fun h => hb (UInt8.toNat.inj h)
  have hlt := b.toNat_lt
  have hnext : (b + 1).toNat = b.toNat + 1 := by
    rw [UInt8.toNat_add]
    exact Nat.mod_eq_of_lt (by simp; omega)
  rw [UInt8.lt_iff_toNat_lt, UInt8.lt_iff_toNat_lt, ← UInt8.toNat_inj, hnext]
  omega

/-- **The least string above a stem is that**, and where there is none, none is
above it. -/
theorem leastAbove?_spec (stem : Bytes) :
    match leastAbove? stem with
    | some s => Above stem s ∧ ∀ bound, Above stem bound → s ≤ bound
    | none => ∀ bound, ¬ Above stem bound := by
  induction stem with
  | nil => exact not_above_nil
  | cons b stem ih =>
    rw [leastAbove?_cons]
    cases hstem : leastAbove? stem with
    | some s =>
      rw [hstem] at ih
      refine ⟨above_cons_iff.2 ⟨b, s, rfl, Or.inr ⟨rfl, ih.1⟩⟩, fun bound hbound => ?_⟩
      obtain ⟨c, rest, rfl, hc⟩ := above_cons_iff.1 hbound
      exact List.cons_le_cons_iff.2 (hc.imp_right fun h => ⟨h.1, ih.2 rest h.2⟩)
    | none =>
      rw [hstem] at ih
      dsimp only
      -- with nothing above the rest, it is the first byte that has to be greater
      have hfirst : ∀ {bound}, Above (b :: stem) bound ↔ ∃ c rest, bound = c :: rest ∧ b < c := by
        intro bound
        rw [above_cons_iff]
        refine exists_congr fun c => exists_congr fun rest => and_congr_right fun _ => ?_
        exact or_iff_left fun h => ih rest h.2
      by_cases hb : b = 0xFF
      · rw [if_pos hb]
        intro bound hbound
        obtain ⟨c, rest, -, hc⟩ := hfirst.1 hbound
        rw [hb, UInt8.lt_iff_toNat_lt] at hc
        exact absurd hc (Nat.not_lt.2 (Nat.le_of_lt_succ c.toNat_lt))
      · rw [if_neg hb]
        refine ⟨hfirst.2 ⟨b + 1, [], rfl, (lt_iff_add_one hb).2 (Or.inr rfl)⟩, ?_⟩
        intro bound hbound
        obtain ⟨c, rest, rfl, hc⟩ := hfirst.1 hbound
        have hnext := ((lt_iff_add_one hb).1 hc).imp_right fun h => And.intro h (List.nil_le rest)
        exact List.cons_le_cons_iff.2 hnext

/-- A string is the least above a stem exactly if it is above it and no higher
than any other that is. -/
theorem leastAbove?_eq_some_iff {stem s : Bytes} :
    leastAbove? stem = some s ↔ Above stem s ∧ ∀ bound, Above stem bound → s ≤ bound := by
  have hspec := leastAbove?_spec stem
  cases hstem : leastAbove? stem with
  | none =>
    rw [hstem] at hspec
    exact iff_of_false (by simp) fun h => hspec s h.1
  | some r =>
    rw [hstem] at hspec
    rw [Option.some.injEq]
    constructor
    · rintro rfl
      exact hspec
    · intro h
      exact List.le_antisymm (hspec.2 s h.1) (h.2 r hspec.1)

/-- A stem has no least string above it exactly if nothing is above it. -/
theorem leastAbove?_eq_none_iff_not_above {stem : Bytes} :
    leastAbove? stem = none ↔ ¬ ∃ bound, Above stem bound := by
  have hspec := leastAbove?_spec stem
  rw [not_exists]
  cases hstem : leastAbove? stem with
  | none =>
    rw [hstem] at hspec
    exact iff_of_true rfl hspec
  | some s =>
    rw [hstem] at hspec
    exact iff_of_false (by simp) fun h => h s hspec.1

end Bytes

namespace Tuple

/-- Only the tuple without elements has a key that is all `0xFF`. -/
theorem forall_mem_pack_eq_mark_iff {t : Tuple} : (∀ b ∈ pack t, b = escapeMark) ↔ t = [] := by
  constructor
  · intro h
    refine (spelling_pack t).eq_nil_iff.1 ?_
    cases hpack : pack t with
    | nil => rfl
    | cons b rest =>
      have hhead := head?_pack_ne t
      rw [hpack] at h hhead
      exact absurd (congrArg some (h b List.mem_cons_self)) hhead
  · rintro rfl b hb
    cases hb

/-- **The end of the extensions of a stem is the least there is.** A stem has an
end unless all its bytes are `0xFF`, that is exactly if there is some string above
every string that begins with it; and then the end is above all these, and no
higher than any other that is. Of the keys of tuples, only that of the tuple
without elements has no end. -/
theorem leastAbove?_isLeast :
    (∀ stem : Bytes,
      (Bytes.leastAbove? stem = none ↔ ∀ b ∈ stem, b = 0xFF)
        ∧ (Bytes.leastAbove? stem = none ↔ ¬ ∃ bound, Bytes.Above stem bound)
        ∧ ∀ s, Bytes.leastAbove? stem = some s
          ↔ Bytes.Above stem s ∧ ∀ bound, Bytes.Above stem bound → s ≤ bound)
      ∧ ∀ t : Tuple, leastAbove? t = none ↔ t = [] := by
  refine ⟨fun stem => ⟨Bytes.leastAbove?_eq_none_iff, Bytes.leastAbove?_eq_none_iff_not_above,
    fun s => Bytes.leastAbove?_eq_some_iff⟩, fun t => ?_⟩
  rw [leastAbove?, Bytes.leastAbove?_eq_none_iff]
  exact forall_mem_pack_eq_mark_iff

/-- Two bytes are dropped, and the one in front of them is raised. -/
example : Bytes.leastAbove? [0x61, 0x01, 0xFF, 0xFF] = some [0x61, 0x02] := by decide

end Tuple

end OrderedKey
