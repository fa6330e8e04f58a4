import OrderedKey.Proofs.LayoutSurvey

/-!
# What is written is read back

A tuple that is not too deep is read back from its key as it was, to the
last bit of its floats: writing picks one of the spellings of the tuple,
and every spelling is read. The tuple without elements is the exception,
since no bytes at all are refused as no key.

A tuple that is too deep can be written all the same. Reading it back fails
at the first nested tuple that is inside `maxDepth` others, and the error
says where that is. The reader does not look ahead, so this needs more than
that there *is* such a nested tuple. It is what the survey is good for: it
ends where the reader does, and on a written tuple where the layout says.
-/

namespace OrderedKey.Tuple

/-- Only the tuple without elements has no bytes. -/
theorem pack_eq_nil_iff {t : Tuple} : pack t = [] ↔ t = [] :=
  (spelling_pack t).eq_nil_iff

/-- A tuple that is not too deep is read back. -/
theorem unpackFrom_pack {t : Tuple} (h : depth t ≤ maxDepth) :
    unpackFrom 0 [] (pack t) = .ok t := by
  rw [(spelling_pack t).unpackFrom_eq_ok h]
  rfl

/-- A tuple that is too deep is read up to the first nested tuple at
fault. -/
theorem unpackFrom_pack_eq_error {t : Tuple} {offset : Nat}
    (h : (tooDeep maxDepth t).head? = some offset) :
    unpackFrom 0 [] (pack t) = .error (.nestingTooDeep offset maxDepth) := by
  have hending := (Placeholder.goes_unpackFrom (pack t)).ending
  -- both sides end alike, and of the survey the end is known
  rw [Placeholder.ending_surveyFrom_pack, h] at hending
  cases hread : unpackFrom 0 [] (pack t) with
  | error e =>
    rw [hread] at hending
    cases hending
    rfl
  | ok row =>
    rw [hread] at hending
    cases hending

/-- **What is written is read back**, unless it is nothing or too deep; and
too deep is refused at the first nested tuple inside `maxDepth` others. -/
theorem unpack_pack (t : Tuple) :
    ((tooDeep maxDepth t).head? = none ↔ depth t ≤ maxDepth)
      ∧ unpack (pack t)
        = if t = [] then .error .emptyInput
          else match (tooDeep maxDepth t).head? with
            | none => .ok t
            | some offset => .error (.nestingTooDeep offset maxDepth) := by
  have hdepth : (tooDeep maxDepth t).head? = none ↔ depth t ≤ maxDepth := by
    rw [List.head?_eq_none_iff, tooDeep_eq_nil_iff]
  refine ⟨hdepth, ?_⟩
  rw [unpack]
  by_cases hne : t = []
  · rw [if_pos (pack_eq_nil_iff.2 hne), if_pos hne]
  · rw [if_neg (fun h => hne (pack_eq_nil_iff.1 h)), if_neg hne]
    cases hhead : (tooDeep maxDepth t).head? with
    | none => exact unpackFrom_pack (hdepth.1 hhead)
    | some offset => exact unpackFrom_pack_eq_error hhead

end OrderedKey.Tuple
