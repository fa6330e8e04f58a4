import OrderedKey.Proofs.Survey
import OrderedKey.Tuple.Layout

/-!
# A survey of what was written

A survey of a written tuple meets the marks of its layout one after the
other: it finds the placeholders at their offsets until a nested tuple is
too deep, which is then the error. `Survey.ofMarks` is that walk over the
marks alone, and `Placeholder.surveyFrom_pack` says that the walk over the
bytes is no other.

The induction is over the elements, each with any bytes behind it that do
not begin with the mark. The depth of an element and the levels a survey
may still go down add up to `maxDepth`, so the tuples that the layout lists
as too deep are the ones that the survey refuses.
-/

namespace OrderedKey.Placeholder

/-! ## A walk over marks -/

namespace Survey

/-- A walk over marks that takes `used` bytes: it notes the placeholders, and
ends at the first nested tuple that is too deep. -/
def ofMarks (used : Nat) : List Mark → Survey
  | [] => ⟨[], .ok used⟩
  | .placeholder offset :: marks =>
    ⟨offset :: (ofMarks used marks).found, (ofMarks used marks).ending⟩
  | .nested offset depth :: marks =>
    if depth = maxDepth then ⟨[], .error (.nestingTooDeep offset maxDepth)⟩ else ofMarks used marks

/-- The survey of a walk that had found some placeholders before. -/
def after (found : List Nat) (s : Survey) : Survey := ⟨found ++ s.found, s.ending⟩

/-- The survey of two walks, one behind the other. -/
def andThen (s next : Survey) : Survey :=
  match s.ending with
  | .error _ => s
  | .ok _ => next.after s.found

theorem after_nil (s : Survey) : s.after [] = s := rfl

theorem after_after (found more : List Nat) (s : Survey) :
    (s.after more).after found = s.after (found ++ more) := by
  rw [after, after, after, List.append_assoc]

/-- A walk over marks goes on behind them as it would have begun there. -/
theorem ofMarks_append (size used : Nat) (marks more : List Mark) :
    ofMarks used (marks ++ more) = (ofMarks size marks).andThen (ofMarks used more) := by
  induction marks with
  | nil => rfl
  | cons mark marks ih =>
    cases mark with
    | placeholder offset =>
      rw [List.cons_append, ofMarks, ih, ofMarks, andThen, andThen]
      rcases ofMarks size marks with ⟨found, e | n⟩ <;> rfl
    | nested offset depth =>
      rw [List.cons_append, ofMarks, ofMarks]
      split
      · rfl
      · exact ih

/-- A walk over marks ends at the first nested tuple that is too deep. -/
theorem ending_ofMarks (used : Nat) (marks : List Mark) :
    (ofMarks used marks).ending
      = match (marks.filterMap (Mark.tooDeep? maxDepth)).head? with
        | none => .ok used
        | some offset => .error (.nestingTooDeep offset maxDepth) := by
  induction marks with
  | nil => rfl
  | cons mark marks ih =>
    cases mark with
    | placeholder offset => exact ih
    | nested offset depth =>
      rw [ofMarks, List.filterMap_cons, Mark.tooDeep?]
      split
      · rfl
      · exact ih

/-- A walk over marks that does not end early takes the bytes it is given. -/
theorem eq_of_ending_ofMarks {used n : Nat} {marks : List Mark}
    (h : (ofMarks used marks).ending = .ok n) : n = used := by
  rw [ending_ofMarks] at h
  split at h
  · cases h
    rfl
  · cases h

/-- A walk over marks has found the placeholders in front of the first nested
tuple that is too deep. -/
theorem found_ofMarks (used : Nat) (marks : List Mark) :
    (ofMarks used marks).found = Mark.placeholdersWithin maxDepth marks := by
  induction marks with
  | nil => rfl
  | cons mark marks ih =>
    cases mark with
    | placeholder offset => exact congrArg (offset :: ·) ih
    | nested offset depth =>
      rw [ofMarks, Mark.placeholdersWithin, List.takeWhile_cons, Mark.tooDeep?]
      split
      · rfl
      · exact ih

end Survey

/-! ## The survey of a written element -/

mutual

/-- **A survey of a written element meets its marks**, whatever stands behind
it that does not begin with the mark. -/
theorem survey_pack : (e : Element) → {levels depth : Nat} → levels + depth = maxDepth →
    ∃ code body, e.pack = code :: body ∧ ∀ offset rest, rest.head? ≠ some escapeMark →
      survey levels offset code (body ++ rest)
        = Survey.ofMarks body.length (e.layout depth offset)
  | .atom a, levels, depth, _ => by
    refine ⟨a.code.toByte, a.payload, rfl, fun offset rest hrest => ?_⟩
    rw [survey_atom a levels offset hrest, Element.layout]
    split <;> rfl
  | .tuple elements, 0, depth, hlevels => by
    -- no level is left, which is to say that the tuple is inside `maxDepth` others
    refine ⟨nestedCode, _, rfl, fun offset rest _ => ?_⟩
    rw [survey_nested_zero, Element.layout, Survey.ofMarks, if_pos (by omega)]
  | .tuple elements, levels + 1, depth, hlevels => by
    refine ⟨nestedCode, _, rfl, fun offset rest hrest => ?_⟩
    have hbelow : levels + (depth + 1) = maxDepth := by omega
    have hrow := surveyChildren_packNested elements hbelow offset 0 [] hrest
    rw [survey_nested_succ, Element.layout, Survey.ofMarks, if_neg (by omega), List.append_assoc,
      List.singleton_append, hrow, Survey.after_nil, List.length_append, Nat.zero_add]
    rfl

/-- And so does a survey of a row inside a nested tuple, up to the
terminator. -/
theorem surveyChildren_packNested : (row : List Element) → {levels depth : Nat} →
    levels + depth = maxDepth → ∀ (start size : Nat) (found : List Nat) {rest : Bytes},
      rest.head? ≠ some escapeMark →
        surveyChildren (survey levels) start size found
            (Element.packNested row ++ terminator :: rest)
          = (Survey.ofMarks (size + (Element.packNested row).length + 1)
              (Element.layoutNested depth (start + 1 + size) row)).after found
  | [], levels, depth, _, start, size, found, rest, hrest => by
    rw [Element.packNested, List.nil_append, surveyChildren_ended hrest, Element.layoutNested,
      Survey.ofMarks, Survey.after, List.append_nil]
    rfl
  | e :: row, levels, depth, hlevels, start, size, found, rest, hrest => by
    by_cases hnull : e = Element.null
    · -- marked with two bytes and without a code, it has no marks
      subst hnull
      have htail := surveyChildren_packNested row hlevels start (size + 2) found hrest
      have hlength : size + 2 + (Element.packNested row).length + 1
          = size + (Element.packNested (Element.null :: row)).length + 1 := by
        rw [Element.packNested_cons_null, List.length_cons, List.length_cons]
        omega
      rw [hlength] at htail
      exact (surveyChildren_marked _).trans htail
    · obtain ⟨code, body, hpack, hsurvey⟩ := survey_pack e hlevels
      have hcode := (hpack ▸ e.spelling_pack).code_ne_terminator hnull
      have hmember := hsurvey (start + 1 + size) _ (Element.head?_packNested_append_ne row rest)
      have hlayout : Element.layoutNested depth (start + 1 + size) (e :: row)
          = e.layout depth (start + 1 + size)
            ++ Element.layoutNested depth (start + 1 + (size + 1 + body.length)) row := by
        have hoffset : start + 1 + size + (Element.packNested [e]).length
            = start + 1 + (size + 1 + body.length) := by
          rw [Element.packNested_cons_of_ne hnull, hpack, Element.packNested, List.append_nil,
            List.length_cons]
          omega
        rw [Element.layoutNested, hoffset]
      have hlength : size + (code :: body ++ Element.packNested row).length + 1
          = size + 1 + body.length + (Element.packNested row).length + 1 := by
        rw [List.length_append, List.length_cons]
        omega
      rw [Element.packNested_cons_of_ne hnull, hpack, hlength, hlayout, List.append_assoc,
        List.cons_append, Survey.ofMarks_append body.length]
      -- a member with a nested tuple too deep ends the walk
      rcases hmarks : Survey.ofMarks body.length (e.layout depth (start + 1 + size)) with
        ⟨more, fault | used⟩
      · rw [hmarks] at hmember
        exact surveyChildren_member_error hcode hmember
      · rw [hmarks] at hmember
        obtain rfl := Survey.eq_of_ending_ofMarks (congrArg Survey.ending hmarks)
        rw [surveyChildren_member_ok hcode hmember, List.drop_left,
          surveyChildren_packNested row hlevels start (size + 1 + body.length) (found ++ more)
            hrest]
        exact (Survey.after_after found more _).symm

end

/-! ## The survey of a written tuple -/

/-- The survey of a written tuple meets its marks, wherever it begins. -/
theorem surveyFrom_layoutFrom (t : Tuple) (offset : Nat) (found : List Nat) :
    surveyFrom offset found (Tuple.pack t)
      = (Survey.ofMarks (offset + (Tuple.pack t).length)
          (Tuple.layoutFrom offset t)).after found := by
  induction t generalizing offset found with
  | nil =>
    rw [Tuple.pack_nil, surveyFrom_nil, Tuple.layoutFrom, Survey.ofMarks, Survey.after,
      List.append_nil]
    rfl
  | cons e t ih =>
    obtain ⟨code, body, hpack, hsurvey⟩ := survey_pack e (Nat.add_zero maxDepth)
    have helement := hsurvey offset (Tuple.pack t) (Tuple.head?_pack_ne t)
    have hlength : offset + (code :: body ++ Tuple.pack t).length
        = offset + 1 + body.length + (Tuple.pack t).length := by
      rw [List.length_append, List.length_cons]
      omega
    have hoffset : offset + (code :: body).length = offset + 1 + body.length := by
      rw [List.length_cons]
      omega
    rw [Tuple.pack_cons, Tuple.layoutFrom, hpack, hlength, hoffset, List.cons_append,
      Survey.ofMarks_append body.length]
    rcases hmarks : Survey.ofMarks body.length (e.layout 0 offset) with ⟨more, fault | used⟩
    · rw [hmarks] at helement
      exact surveyFrom_error helement
    · rw [hmarks] at helement
      obtain rfl := Survey.eq_of_ending_ofMarks (congrArg Survey.ending hmarks)
      rw [surveyFrom_ok helement, List.drop_left, ih]
      exact (Survey.after_after found more _).symm

/-- **A survey of a written tuple meets the marks of its layout**, to the
first nested tuple that is too deep. -/
theorem surveyFrom_pack (t : Tuple) :
    surveyFrom 0 [] (Tuple.pack t)
      = Survey.ofMarks (Tuple.pack t).length (Tuple.layout t) := by
  rw [surveyFrom_layoutFrom, Nat.zero_add, Survey.after_nil]
  rfl

/-- Where it ends says whether the tuple is too deep, and where. -/
theorem ending_surveyFrom_pack (t : Tuple) :
    (surveyFrom 0 [] (Tuple.pack t)).ending
      = match (Tuple.tooDeep maxDepth t).head? with
        | none => .ok (Tuple.pack t).length
        | some offset => .error (.nestingTooDeep offset maxDepth) := by
  rw [surveyFrom_pack]
  exact Survey.ending_ofMarks _ _

/-- It finds the placeholders in front of where the tuple is too deep. -/
theorem found_surveyFrom_pack (t : Tuple) :
    (surveyFrom 0 [] (Tuple.pack t)).found = Tuple.placeholdersWithin maxDepth t := by
  rw [surveyFrom_pack]
  exact Survey.found_ofMarks _ _

/-- So the layout says all of it. -/
theorem surveyFrom_pack_eq (t : Tuple) :
    surveyFrom 0 [] (Tuple.pack t)
      = ⟨Tuple.placeholdersWithin maxDepth t,
        match (Tuple.tooDeep maxDepth t).head? with
        | none => .ok (Tuple.pack t).length
        | some offset => .error (.nestingTooDeep offset maxDepth)⟩ := by
  rw [← ending_surveyFrom_pack, ← found_surveyFrom_pack]

end OrderedKey.Placeholder
