import OrderedKey.Proofs.FirstPlaceholder

/-!
# What a survey has found

A survey may find a placeholder and fail behind it, at a byte that is no
code or at an end that comes too soon. The placeholder was there all the
same: the bytes up to it are the front of a key, and to make it a whole key
one has but to end the nested tuples that are open. That is what a cut
says (`Cut`). Its terminators are the only bytes that are made up, and none
of them is among the bytes of the placeholder.

So what is true of a placeholder in a key holds for whatever has been found
in any bytes at all.
-/

namespace OrderedKey

/-- Some element with its first placeholder at `o` is spelled so, and goes
no deeper than the levels. -/
def Element.Holds (levels : Nat) (s : Bytes) (o : Nat) : Prop :=
  ∃ e, Element.Placed e s o ∧ e.depth ≤ levels

/-- Some row of elements inside a nested tuple is. -/
def Element.RowHolds (levels : Nat) (s : Bytes) (o : Nat) : Prop :=
  ∃ row, Element.RowPlaced row s o ∧ Element.depthList row ≤ levels

/-- Some tuple is. -/
def Tuple.Holds (levels : Nat) (s : Bytes) (o : Nat) : Prop :=
  ∃ t, Tuple.Placed t s o ∧ Tuple.depth t ≤ levels

namespace Placeholder

/-- The data begins with bytes that contain those of a placeholder at `o`,
and that some terminators complete to what is asked for. -/
def Cut (Whole : Bytes → Nat → Prop) (data : Bytes) (o : Nat) : Prop :=
  ∃ front back closers, data = front ++ back
    ∧ Whole (front ++ List.replicate closers terminator) o
    ∧ o + (Versionstamp.commitSize + Versionstamp.batchSize) ≤ front.length

namespace Cut

variable {Part Whole : Bytes → Nat → Prop} {data : Bytes} {o : Nat}

/-- What is complete is a cut of whatever it begins. -/
theorem of_whole {s : Bytes} (h : Whole s o) (hstands : Stands s o) (back : Bytes) :
    Cut Whole (s ++ back) o := by
  refine ⟨s, back, 0, rfl, ?_, ?_⟩
  · rw [List.replicate_zero, List.append_nil]
    exact h
  · obtain ⟨front, hasUser, rest, rfl, rfl⟩ := hstands
    rw [List.length_append, List.length_cons, List.length_append, List.length_replicate]
    omega

theorem mono (h : Cut Part data o) (hwhole : ∀ s, Part s o → Whole s o) : Cut Whole data o := by
  obtain ⟨front, back, closers, hdata, hpart, hroom⟩ := h
  exact ⟨front, back, closers, hdata, hwhole _ hpart, hroom⟩

/-- A part is completed with what stands in front of it. -/
theorem append_left (front : Bytes) (h : Cut Part data o)
    (hwhole : ∀ s, Part s o → Whole (front ++ s) (front.length + o)) :
    Cut Whole (front ++ data) (front.length + o) := by
  obtain ⟨front', back, closers, rfl, hpart, hroom⟩ := h
  refine ⟨front ++ front', back, closers, (List.append_assoc _ _ _).symm, ?_, ?_⟩
  · rw [List.append_assoc]
    exact hwhole _ hpart
  · rw [List.length_append]
    omega

end Cut

open Element

/-! ## In a nested tuple -/

section Row

variable {levels o : Nat} {data : Bytes}

/-- A cut in the first member is one in the row. -/
theorem cut_row_here (h : Cut (Element.Holds levels) data o) : Cut (RowHolds levels) data o := by
  refine h.mono fun s ⟨e, hplaced, hdepth⟩ => ⟨[e], ?_, Nat.max_le.2 ⟨hdepth, Nat.zero_le _⟩⟩
  have hrow := RowPlaced.here hplaced .nil
  rw [List.append_nil] at hrow
  exact hrow

/-- And so is one behind a member without value. -/
theorem cut_row_null (h : Cut (RowHolds levels) data o) :
    Cut (RowHolds levels) (nestedNull ++ data) (nestedNull.length + o) :=
  h.append_left nestedNull fun _ ⟨row, hplaced, hdepth⟩ =>
    ⟨null :: row, .null hplaced, Nat.max_le.2 ⟨Nat.zero_le _, hdepth⟩⟩

/-- And one behind any other member, if there is no placeholder in it. -/
theorem cut_row_later {e : Element} {s : Bytes} (hne : e ≠ null) (head : Spelling e s)
    (hnone : e.hasPlaceholder = false) (hlevels : e.depth ≤ levels)
    (h : Cut (RowHolds levels) data o) : Cut (RowHolds levels) (s ++ data) (s.length + o) :=
  h.append_left s fun _ ⟨row, hplaced, hdepth⟩ =>
    ⟨e :: row, .later hne head hnone hplaced, Nat.max_le.2 ⟨hlevels, hdepth⟩⟩

/-- A cut in the row is one in the nested tuple, with one more terminator. -/
theorem cut_tuple (h : Cut (RowHolds levels) data o) :
    Cut (Element.Holds (levels + 1)) (nestedCode :: data) (o + 1) := by
  obtain ⟨front, back, closers, rfl, ⟨row, hplaced, hdepth⟩, hroom⟩ := h
  refine ⟨nestedCode :: front, back, closers + 1, rfl,
    ⟨.tuple row, ?_, Nat.succ_le_succ hdepth⟩, ?_⟩
  · rw [List.replicate_succ', List.cons_append, ← List.append_assoc]
    exact .tuple hplaced
  · rw [List.length_cons]
    omega

end Row

/-- Whatever the members of a nested tuple are found to hold is in the bytes
up to there, and so is what the row is found to hold. -/
theorem cut_of_surveyChildren {levels : Nat}
    (hmember : ∀ {offset first code data},
      (survey levels offset code data).found.head? = some first →
        ∃ o, first = offset + o ∧ Cut (Element.Holds levels) (code :: data) o)
    {start size first : Nat} {found : List Nat} {body : Bytes} (hfound : found = [])
    (h : (surveyChildren (survey levels) start size found body).found.head? = some first) :
    ∃ o, first = start + 1 + size + o ∧ Cut (RowHolds levels) body o := by
  fun_induction surveyChildren (survey levels) start size found body with
  | case1 size found =>
    subst hfound
    cases h
  | case2 size found rest hmark ih =>
    obtain ⟨tail, rfl⟩ := List.head?_eq_some_iff.1 hmark
    obtain ⟨o, rfl, hcut⟩ := ih hfound h
    refine ⟨nestedNull.length + o, ?_, cut_row_null hcut⟩
    show _ = start + 1 + size + (2 + o)
    omega
  | case3 size found rest hmark =>
    subst hfound
    cases h
  | case4 size found b rest hb more e hsurvey =>
    subst hfound
    obtain ⟨o, rfl, hcut⟩ := hmember ((congrArg (·.found.head?) hsurvey).trans h)
    exact ⟨o, rfl, cut_row_here hcut⟩
  | case5 size found b rest hb more used hsurvey ih =>
    subst hfound
    cases more with
    | cons first' more =>
      have hhead : (surveyChildren (survey levels) start (size + 1 + used) (first' :: more)
          (rest.drop used)).found.head? = some first' := head?_found_surveyChildren rfl
      cases hhead.symm.trans h
      obtain ⟨o, rfl, hcut⟩ := hmember (congrArg (·.found.head?) hsurvey)
      exact ⟨o, rfl, cut_row_here hcut⟩
    | nil =>
      -- nothing has been found in the member, so it has been read to its end
      have hgoes := goes_survey levels (start + 1 + size) b rest
      rw [hsurvey] at hgoes
      obtain ⟨e, hread, hnone⟩ := hgoes.exists_ok
      obtain ⟨s, behind, rfl, rfl, hspelling, hlevels⟩ := spelling_of_read hread
      obtain ⟨o, rfl, hcut⟩ := ih rfl h
      rw [List.drop_left] at hcut
      refine ⟨(b :: s).length + o, ?_,
        cut_row_later (hspelling.ne_null_of_ne hb) hspelling (hnone.1 rfl) hlevels hcut⟩
      rw [List.length_cons]
      omega

/-- What is found in an atom is in the atom. -/
theorem cut_of_survey_of_ne {levels offset first : Nat} {code : UInt8} {data : Bytes}
    (hne : code ≠ nestedCode) (h : (survey levels offset code data).found.head? = some first) :
    ∃ o, first = offset + o ∧ Cut (Element.Holds levels) (code :: data) o := by
  cases hkind : AtomCode.ofByte? code with
  | none =>
    rw [survey_of_ofByte?_eq_none hne hkind] at h
    cases h
  | some kind =>
    cases hread : Atom.read kind offset data with
    | error e =>
      rw [survey_of_read_eq_error hne hkind hread] at h
      cases h
    | ok r =>
      have helement : Element.read levels offset code data = .ok (.atom r.1, r.2) := by
        rw [read_of_ofByte? hne hkind, hread]
        rfl
      obtain ⟨s, behind, rfl, -, hspelling, hlevels⟩ := spelling_of_read helement
      rw [survey_of_read_eq_ok hne hkind hread] at h
      cases hvalue : r.1.isPlaceholder with
      | false =>
        rw [hvalue] at h
        cases h
      | true =>
        rw [hvalue] at h
        cases h
        obtain ⟨o, hplaced⟩ := hspelling.exists_placed hvalue
        obtain rfl := hplaced.eq_one_of_atom
        exact ⟨1, rfl, .of_whole ⟨_, hplaced, hlevels⟩ hplaced.stands behind⟩

/-- **What is found in an element is in the bytes up to there.** -/
theorem cut_of_survey {levels offset first : Nat} {code : UInt8} {data : Bytes}
    (h : (survey levels offset code data).found.head? = some first) :
    ∃ o, first = offset + o ∧ Cut (Element.Holds levels) (code :: data) o := by
  induction levels generalizing offset first code data with
  | zero =>
    by_cases hcode : code = nestedCode
    · rw [hcode, survey_nested_zero] at h
      cases h
    · exact cut_of_survey_of_ne hcode h
  | succ levels ih =>
    by_cases hcode : code = nestedCode
    · subst hcode
      rw [survey_nested_succ] at h
      obtain ⟨o, rfl, hcut⟩ := cut_of_surveyChildren ih rfl h
      exact ⟨o + 1, by omega, cut_tuple hcut⟩
    · exact cut_of_survey_of_ne hcode h

/-! ## In a whole byte string -/

/-- A cut in the first element is one in the tuple. -/
theorem cut_tuple_here {data : Bytes} {o : Nat} (h : Cut (Element.Holds maxDepth) data o) :
    Cut (Tuple.Holds maxDepth) data o := by
  refine h.mono fun s ⟨e, hplaced, hdepth⟩ => ⟨[e], ?_, Nat.max_le.2 ⟨hdepth, Nat.zero_le _⟩⟩
  have htuple := Tuple.Placed.here hplaced .nil
  rw [List.append_nil] at htuple
  exact htuple

/-- And so is one behind an element without placeholder. -/
theorem cut_tuple_later {data : Bytes} {o : Nat} {e : Element} {s : Bytes} (head : Spelling e s)
    (hnone : e.hasPlaceholder = false) (hlevels : e.depth ≤ maxDepth)
    (h : Cut (Tuple.Holds maxDepth) data o) :
    Cut (Tuple.Holds maxDepth) (s ++ data) (s.length + o) :=
  h.append_left s fun _ ⟨t, hplaced, hdepth⟩ =>
    ⟨e :: t, .later head hnone hplaced, Nat.max_le.2 ⟨hlevels, hdepth⟩⟩

/-- **What is found first in any bytes is the first placeholder of a key that
begins like them.** -/
theorem cut_of_surveyFrom {offset first : Nat} {found : List Nat} {data : Bytes}
    (hfound : found = [])
    (h : (surveyFrom offset found data).found.head? = some first) :
    ∃ o, first = offset + o ∧ Cut (Tuple.Holds maxDepth) data o := by
  fun_induction surveyFrom offset found data with
  | case1 offset found =>
    subst hfound
    cases h
  | case2 offset found code rest more e hsurvey =>
    subst hfound
    obtain ⟨o, rfl, hcut⟩ := cut_of_survey ((congrArg (·.found.head?) hsurvey).trans h)
    exact ⟨o, rfl, cut_tuple_here hcut⟩
  | case3 offset found code rest more used hsurvey ih =>
    subst hfound
    cases more with
    | cons first' more =>
      have hhead : (surveyFrom (offset + 1 + used) (first' :: more)
          (rest.drop used)).found.head? = some first' := head?_found_surveyFrom rfl
      cases hhead.symm.trans h
      obtain ⟨o, rfl, hcut⟩ := cut_of_survey (congrArg (·.found.head?) hsurvey)
      exact ⟨o, rfl, cut_tuple_here hcut⟩
    | nil =>
      -- the element has been passed, so it has been read and has no placeholder
      have hgoes := goes_survey maxDepth offset code rest
      rw [hsurvey] at hgoes
      obtain ⟨e, hread, hnone⟩ := hgoes.exists_ok
      obtain ⟨s, behind, rfl, rfl, hspelling, hlevels⟩ := spelling_of_read hread
      obtain ⟨o, rfl, hcut⟩ := ih rfl h
      rw [List.drop_left] at hcut
      refine ⟨(code :: s).length + o, ?_, cut_tuple_later hspelling (hnone.1 rfl) hlevels hcut⟩
      rw [List.length_cons]
      omega

end Placeholder

end OrderedKey
