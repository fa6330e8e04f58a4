import OrderedKey.Bytes

/-!
# Ranges of keys

A store is scanned one range at a time. A `KeyRange` is half-open: it
holds the keys from `start` on that are below `stop`, so ranges that meet
end to end neither overlap nor leave a key out.

The keys that begin with a given string form such a range too, and its
end is `leastAbove?`: drop the trailing `0xFF` bytes, which nothing can
follow in the order, and raise the last byte that is left. A string of
nothing but `0xFF` has no such end – its extensions go on for ever.
-/

namespace OrderedKey

/-- The keys from `start` on that are below `stop`. -/
structure KeyRange where
  /-- The least key of the range, if it holds any. -/
  start : Bytes
  /-- The first key that is beyond the range. -/
  stop : Bytes
deriving DecidableEq

namespace KeyRange

instance : Membership Bytes KeyRange where
  mem range key := range.start ≤ key ∧ key < range.stop

theorem mem_iff {range : KeyRange} {key : Bytes} :
    key ∈ range ↔ range.start ≤ key ∧ key < range.stop := Iff.rfl

instance (key : Bytes) (range : KeyRange) : Decidable (key ∈ range) :=
  inferInstanceAs (Decidable (range.start ≤ key ∧ key < range.stop))

/-- Between two keys that begin alike there are only keys that begin so. -/
theorem mem_cons_iff {b : UInt8} {start stop key : Bytes} :
    key ∈ (⟨b :: start, b :: stop⟩ : KeyRange)
      ↔ ∃ rest, key = b :: rest ∧ rest ∈ (⟨start, stop⟩ : KeyRange) := by
  constructor
  · rintro ⟨hstart, hstop⟩
    dsimp only at hstart hstop
    cases key with
    | nil => cases List.le_nil.1 hstart
    | cons c rest =>
      rw [List.cons_le_cons_iff] at hstart
      rw [List.cons_lt_cons_iff] at hstop
      rcases hstart with hlt | ⟨rfl, hstart⟩
      · rcases hstop with hgt | ⟨rfl, -⟩
        · exact (UInt8.lt_asymm hlt hgt).elim
        · exact (UInt8.lt_irrefl _ hlt).elim
      · rcases hstop with hgt | ⟨-, hstop⟩
        · exact (UInt8.lt_irrefl _ hgt).elim
        · exact ⟨rest, rfl, hstart, hstop⟩
  · rintro ⟨rest, rfl, hstart, hstop⟩
    exact ⟨List.cons_le_cons_iff.2 (Or.inr ⟨rfl, hstart⟩),
      List.cons_lt_cons_iff.2 (Or.inr ⟨rfl, hstop⟩)⟩

/-- **A range with a common base is a range behind the base**: what it holds
begins with the base, and goes on with what the range of the rests holds. -/
theorem mem_append_iff {base x y key : Bytes} :
    key ∈ (⟨base ++ x, base ++ y⟩ : KeyRange)
      ↔ ∃ rest, key = base ++ rest ∧ rest ∈ (⟨x, y⟩ : KeyRange) := by
  induction base generalizing key with
  | nil => exact ⟨fun h => ⟨key, rfl, h⟩, fun ⟨rest, hkey, h⟩ => hkey ▸ h⟩
  | cons b base ih =>
    rw [List.cons_append, List.cons_append, mem_cons_iff]
    constructor
    · rintro ⟨tail, rfl, h⟩
      obtain ⟨rest, rfl, hrest⟩ := ih.1 h
      exact ⟨rest, rfl, hrest⟩
    · rintro ⟨rest, rfl, h⟩
      exact ⟨base ++ rest, rfl, ih.2 ⟨rest, rfl, h⟩⟩

end KeyRange

namespace Bytes

/-- Raises the first byte that can be raised, where the bytes are given last
one first. -/
def raise? : Bytes → Option Bytes
  | [] => none
  | b :: rest => if b = 0xFF then raise? rest else some ((b + 1) :: rest)

/-- The least string above every string that begins with `stem`, when there
is one. -/
def leastAbove? (stem : Bytes) : Option Bytes := (raise? stem.reverse).map List.reverse

/-- **Which strings have an end to their extensions**: those that are not
all `0xFF`. -/
theorem leastAbove?_eq_none_iff {stem : Bytes} :
    leastAbove? stem = none ↔ ∀ b ∈ stem, b = 0xFF := by
  have hraise : ∀ bytes : Bytes, raise? bytes = none ↔ ∀ b ∈ bytes, b = 0xFF := by
    intro bytes
    induction bytes with
    | nil => exact ⟨fun _ b hb => (List.not_mem_nil hb).elim, fun _ => rfl⟩
    | cons b bytes ih =>
      rw [raise?, List.forall_mem_cons]
      by_cases hb : b = 0xFF
      · rw [if_pos hb, ih]
        exact (and_iff_right hb).symm
      · rw [if_neg hb]
        exact ⟨fun h => (by cases h), fun h => (hb h.1).elim⟩
  rw [leastAbove?, Option.map_eq_none_iff, hraise]
  exact ⟨fun h b hb => h b (List.mem_reverse.2 hb), fun h b hb => h b (List.mem_reverse.1 hb)⟩

end Bytes

end OrderedKey
