import OrderedKey.Proofs.Reading
import OrderedKey.Tuple.Placeholder

/-!
# What a survey meets

A survey walks over bytes as the reader does, builds nothing, and notes the
placeholders. Unlike a scan it is not looking for a number of them, and
goes on to the end or to the first fault. It is not run; it is what a scan
is measured by, and the one walk that the reader is compared with.

It goes with the reader on *any* bytes (`Placeholder.Goes`): it ends where
the reader ends, or with the reader's error, and where the reader has a
value the survey has found a placeholder exactly if the value has one. The
two are separate programs, so this is an induction over both loops side by
side.
-/

namespace OrderedKey.Placeholder

/-- What surveys an element: like a `Reader`, it is given the offset of a
type code, the code and what stands behind it. -/
abbrev Surveyor : Type := Nat → UInt8 → Bytes → Survey

/-- Surveys on in the nested tuple whose code is at `start`, behind `size`
bytes of it and the placeholders found so far. -/
def surveyChildren (surveyor : Surveyor) (start size : Nat) (found : List Nat) :
    Bytes → Survey
  | [] => ⟨found, .error (.outOfBounds start (start + 1 + size))⟩
  | b :: rest =>
    if b = terminator then
      if rest.head? = some escapeMark then
        surveyChildren surveyor start (size + 2) found rest.tail
      else ⟨found, .ok (size + 1)⟩
    else
      match surveyor (start + 1 + size) b rest with
      | ⟨more, .error e⟩ => ⟨found ++ more, .error e⟩
      | ⟨more, .ok used⟩ =>
        surveyChildren surveyor start (size + 1 + used) (found ++ more) (rest.drop used)
termination_by body => body.length
decreasing_by
  · rw [List.length_tail, List.length_cons]; omega
  · rw [List.length_drop, List.length_cons]; omega

/-- Surveys the element behind a code, following nested tuples `levels`
deep. -/
def survey : (levels : Nat) → Surveyor
  | levels, offset, code, data =>
    if code = nestedCode then
      match levels with
      | 0 => ⟨[], .error (.nestingTooDeep offset maxDepth)⟩
      | levels + 1 => surveyChildren (survey levels) offset 0 [] data
    else
      match AtomCode.ofByte? code with
      | none => ⟨[], .error (.unknownCode code offset)⟩
      | some kind =>
        match Atom.read kind offset data with
        | .error e => ⟨[], .error e⟩
        | .ok (value, used) => ⟨if value.isPlaceholder then [offset + 1] else [], .ok used⟩

/-- Surveys on in a tuple from `offset`, behind the placeholders found so
far. -/
def surveyFrom (offset : Nat) (found : List Nat) : Bytes → Survey
  | [] => ⟨found, .ok offset⟩
  | code :: rest =>
    match survey maxDepth offset code rest with
    | ⟨more, .error e⟩ => ⟨found ++ more, .error e⟩
    | ⟨more, .ok used⟩ => surveyFrom (offset + 1 + used) (found ++ more) (rest.drop used)
termination_by data => data.length
decreasing_by rw [List.length_drop, List.length_cons]; omega

/-! ## The survey, code by code -/

theorem survey_nested_zero (offset : Nat) (data : Bytes) :
    survey 0 offset nestedCode data = ⟨[], .error (.nestingTooDeep offset maxDepth)⟩ := by
  rw [survey, if_pos rfl]

theorem survey_nested_succ (levels offset : Nat) (data : Bytes) :
    survey (levels + 1) offset nestedCode data
      = surveyChildren (survey levels) offset 0 [] data := by
  rw [survey, if_pos rfl]

theorem survey_of_ofByte?_eq_none {code : UInt8} (hne : code ≠ nestedCode)
    (h : AtomCode.ofByte? code = none) (levels offset : Nat) (data : Bytes) :
    survey levels offset code data = ⟨[], .error (.unknownCode code offset)⟩ := by
  unfold survey
  rw [if_neg hne, h]

theorem survey_of_read_eq_error {code : UInt8} {kind : AtomCode} {offset : Nat} {data : Bytes}
    {e : KeyError} (hne : code ≠ nestedCode) (h : AtomCode.ofByte? code = some kind)
    (hread : Atom.read kind offset data = .error e) (levels : Nat) :
    survey levels offset code data = ⟨[], .error e⟩ := by
  unfold survey
  rw [if_neg hne, h]
  dsimp only
  rw [hread]

theorem survey_of_read_eq_ok {code : UInt8} {kind : AtomCode} {offset used : Nat} {data : Bytes}
    {value : Atom} (hne : code ≠ nestedCode) (h : AtomCode.ofByte? code = some kind)
    (hread : Atom.read kind offset data = .ok (value, used)) (levels : Nat) :
    survey levels offset code data
      = ⟨if value.isPlaceholder then [offset + 1] else [], .ok used⟩ := by
  unfold survey
  rw [if_neg hne, h]
  dsimp only
  rw [hread]

/-- The code in front of an atom is surveyed to the end of the payload. -/
theorem survey_atom (a : Atom) (levels offset : Nat) {rest : Bytes}
    (hrest : rest.head? ≠ some escapeMark) :
    survey levels offset a.code.toByte (a.payload ++ rest)
      = ⟨if a.isPlaceholder then [offset + 1] else [], .ok a.payload.length⟩ :=
  survey_of_read_eq_ok (AtomCode.toByte_ne_nestedCode a.code_mem_all)
    (AtomCode.ofByte?_toByte a.code_mem_all) (a.read_payload offset hrest) levels

section Row

variable {surveyor : Surveyor} {start size : Nat} {found : List Nat}

theorem surveyChildren_nil :
    surveyChildren surveyor start size found []
      = ⟨found, .error (.outOfBounds start (start + 1 + size))⟩ := by
  rw [surveyChildren]

theorem surveyChildren_marked (rest : Bytes) :
    surveyChildren surveyor start size found (terminator :: escapeMark :: rest)
      = surveyChildren surveyor start (size + 2) found rest := by
  rw [surveyChildren, if_pos rfl, if_pos List.head?_cons]
  rfl

theorem surveyChildren_ended {rest : Bytes} (h : rest.head? ≠ some escapeMark) :
    surveyChildren surveyor start size found (terminator :: rest) = ⟨found, .ok (size + 1)⟩ := by
  rw [surveyChildren, if_pos rfl, if_neg h]

theorem surveyChildren_member_error {b : UInt8} {rest : Bytes} {more : List Nat} {e : KeyError}
    (hb : b ≠ terminator) (h : surveyor (start + 1 + size) b rest = ⟨more, .error e⟩) :
    surveyChildren surveyor start size found (b :: rest) = ⟨found ++ more, .error e⟩ := by
  rw [surveyChildren, if_neg hb, h]

theorem surveyChildren_member_ok {b : UInt8} {rest : Bytes} {more : List Nat} {used : Nat}
    (hb : b ≠ terminator) (h : surveyor (start + 1 + size) b rest = ⟨more, .ok used⟩) :
    surveyChildren surveyor start size found (b :: rest)
      = surveyChildren surveyor start (size + 1 + used) (found ++ more) (rest.drop used) := by
  rw [surveyChildren, if_neg hb, h]

/-- What has been found stays found. -/
theorem prefix_found_surveyChildren (body : Bytes) :
    found <+: (surveyChildren surveyor start size found body).found := by
  fun_induction surveyChildren surveyor start size found body with
  | case1 => exact List.prefix_refl _
  | case2 _ _ _ _ ih => exact ih
  | case3 => exact List.prefix_refl _
  | case4 => exact List.prefix_append _ _
  | case5 _ _ _ _ _ _ _ _ ih => exact (List.prefix_append _ _).trans ih

/-- What has been found first stays the first. -/
theorem head?_found_surveyChildren {first : Nat} {body : Bytes} (h : found.head? = some first) :
    (surveyChildren surveyor start size found body).found.head? = some first :=
  List.singleton_prefix_iff_head?_eq_some.1
    ((List.singleton_prefix_iff_head?_eq_some.2 h).trans (prefix_found_surveyChildren body))

/-- What is found in a member is the first, when there was none before. -/
theorem head?_found_surveyChildren_member {b : UInt8} {rest : Bytes} {first : Nat}
    (hb : b ≠ terminator) (h : (surveyor (start + 1 + size) b rest).found.head? = some first) :
    (surveyChildren surveyor start size [] (b :: rest)).found.head? = some first := by
  rcases hsurvey : surveyor (start + 1 + size) b rest with ⟨more, e | used⟩
  · rw [hsurvey] at h
    rw [surveyChildren_member_error hb hsurvey]
    exact h
  · rw [hsurvey] at h
    rw [surveyChildren_member_ok hb hsurvey]
    exact head?_found_surveyChildren h

end Row

section Top

variable {offset : Nat} {found : List Nat}

theorem surveyFrom_nil : surveyFrom offset found [] = ⟨found, .ok offset⟩ := by
  rw [surveyFrom]

theorem surveyFrom_error {code : UInt8} {rest : Bytes} {more : List Nat} {e : KeyError}
    (h : survey maxDepth offset code rest = ⟨more, .error e⟩) :
    surveyFrom offset found (code :: rest) = ⟨found ++ more, .error e⟩ := by
  rw [surveyFrom, h]

theorem surveyFrom_ok {code : UInt8} {rest : Bytes} {more : List Nat} {used : Nat}
    (h : survey maxDepth offset code rest = ⟨more, .ok used⟩) :
    surveyFrom offset found (code :: rest)
      = surveyFrom (offset + 1 + used) (found ++ more) (rest.drop used) := by
  rw [surveyFrom, h]

/-- What has been found stays found. -/
theorem prefix_found_surveyFrom (data : Bytes) :
    found <+: (surveyFrom offset found data).found := by
  fun_induction surveyFrom offset found data with
  | case1 => exact List.prefix_refl _
  | case2 => exact List.prefix_append _ _
  | case3 _ _ _ _ _ _ _ ih => exact (List.prefix_append _ _).trans ih

/-- What has been found first stays the first. -/
theorem head?_found_surveyFrom {first : Nat} {data : Bytes} (h : found.head? = some first) :
    (surveyFrom offset found data).found.head? = some first :=
  List.singleton_prefix_iff_head?_eq_some.1
    ((List.singleton_prefix_iff_head?_eq_some.2 h).trans (prefix_found_surveyFrom data))

/-- What is found in an element is the first, when there was none before. -/
theorem head?_found_surveyFrom_cons {code : UInt8} {rest : Bytes} {first : Nat}
    (h : (survey maxDepth offset code rest).found.head? = some first) :
    (surveyFrom offset [] (code :: rest)).found.head? = some first := by
  rcases hsurvey : survey maxDepth offset code rest with ⟨more, e | used⟩
  · rw [hsurvey] at h
    rw [surveyFrom_error hsurvey]
    exact h
  · rw [hsurvey] at h
    rw [surveyFrom_ok hsurvey]
    exact head?_found_surveyFrom h

end Top

/-! ## The survey and the reader -/

/-- **A survey goes with a reading**: both end alike, and where there is a
value the survey has found a placeholder exactly if the value has one. -/
structure Goes {α : Type} (has : α → Bool) (survey : Survey) (reading : Except KeyError (α × Nat)) :
    Prop where
  /-- They end in the same place, or with the same error. -/
  ending : survey.ending = reading.map Prod.snd
  /-- They agree on whether there is a placeholder. -/
  found_eq_nil_iff : ∀ r, reading = .ok r → (survey.found = [] ↔ has r.1 = false)

section Goes

variable {α : Type} {has : α → Bool} {found : Survey} {reading : Except KeyError (α × Nat)}

/-- The error of a reading is the error of the survey. -/
theorem Goes.of_error {e : KeyError} (h : Goes has found (.error e)) :
    ∃ more, found = ⟨more, .error e⟩ := by
  obtain ⟨more, ending⟩ := found
  exact ⟨more, congrArg (Survey.mk more) h.ending⟩

/-- The value of a reading says whether the survey has found something. -/
theorem Goes.of_ok {value : α} {used : Nat} (h : Goes has found (.ok (value, used))) :
    ∃ more, found = ⟨more, .ok used⟩ ∧ (more = [] ↔ has value = false) := by
  have hfound := h.found_eq_nil_iff _ rfl
  obtain ⟨more, ending⟩ := found
  exact ⟨more, congrArg (Survey.mk more) h.ending, hfound⟩

/-- Where a survey does not fail, there is a value. -/
theorem Goes.exists_ok {more : List Nat} {used : Nat} (h : Goes has ⟨more, .ok used⟩ reading) :
    ∃ value, reading = .ok (value, used) ∧ (more = [] ↔ has value = false) := by
  have hending := h.ending
  cases reading with
  | error e => cases hending
  | ok r =>
    cases hending
    exact ⟨r.1, rfl, h.found_eq_nil_iff r rfl⟩

end Goes

theorem hasPlaceholder_reverse (elements : List Element) :
    Tuple.hasPlaceholder elements.reverse = Tuple.hasPlaceholder elements :=
  List.any_reverse

/-- What has been found in a row and in one more member. -/
theorem append_eq_nil_iff_hasPlaceholder {found more : List Nat} {children : List Element}
    {child : Element} (hfound : found = [] ↔ Tuple.hasPlaceholder children = false)
    (hmore : more = [] ↔ child.hasPlaceholder = false) :
    found ++ more = [] ↔ Tuple.hasPlaceholder (child :: children) = false := by
  show _ ↔ (child.hasPlaceholder || Tuple.hasPlaceholder children) = false
  rw [List.append_eq_nil_iff, hfound, hmore, Bool.or_eq_false_iff, and_comm]

/-- A walk over a nested tuple goes with the reading of its row, if the walks
over its members do. -/
theorem goes_surveyChildren {surveyor : Surveyor} {reader : Reader Element}
    (hmember : ∀ offset code data,
      Goes Element.hasPlaceholder (surveyor offset code data) (reader offset code data))
    (start size : Nat) (children : List Element) (body : Bytes) {found : List Nat}
    (hfound : found = [] ↔ Tuple.hasPlaceholder children = false) :
    Goes Tuple.hasPlaceholder (surveyChildren surveyor start size found body)
      (Element.readChildren reader start size children body) := by
  fun_induction Element.readChildren reader start size children body generalizing found with
  | case1 size children =>
    rw [surveyChildren_nil]
    exact ⟨rfl, fun r h => by cases h⟩
  | case2 size children rest hmark ih =>
    obtain ⟨tail, rfl⟩ := List.head?_eq_some_iff.1 hmark
    rw [surveyChildren_marked]
    exact ih hfound
  | case3 size children rest hmark =>
    rw [surveyChildren_ended hmark]
    refine ⟨rfl, fun r h => ?_⟩
    cases h
    rw [hfound, hasPlaceholder_reverse]
  | case4 size children b rest hb e he =>
    have hgoes := hmember (start + 1 + size) b rest
    rw [he] at hgoes
    obtain ⟨more, hsurvey⟩ := hgoes.of_error
    rw [surveyChildren_member_error hb hsurvey]
    exact ⟨rfl, fun r h => by cases h⟩
  | case5 size children b rest hb child used hchild ih =>
    have hgoes := hmember (start + 1 + size) b rest
    rw [hchild] at hgoes
    obtain ⟨more, hsurvey, hmore⟩ := hgoes.of_ok
    rw [surveyChildren_member_ok hb hsurvey]
    exact ih (append_eq_nil_iff_hasPlaceholder hfound hmore)

/-- What is no nested tuple is surveyed by reading it. -/
theorem goes_survey_of_ne {code : UInt8} (hne : code ≠ nestedCode) (levels offset : Nat)
    (data : Bytes) :
    Goes Element.hasPlaceholder (survey levels offset code data)
      (Element.read levels offset code data) := by
  cases hkind : AtomCode.ofByte? code with
  | none =>
    rw [survey_of_ofByte?_eq_none hne hkind, Element.read_of_ofByte?_eq_none hne hkind]
    exact ⟨rfl, fun r h => by cases h⟩
  | some kind =>
    rw [Element.read_of_ofByte? hne hkind]
    cases hread : Atom.read kind offset data with
    | error e =>
      rw [survey_of_read_eq_error hne hkind hread]
      exact ⟨rfl, fun r h => by cases h⟩
    | ok r =>
      rw [survey_of_read_eq_ok hne hkind hread]
      refine ⟨rfl, fun r h => ?_⟩
      cases h
      show (if r.1.isPlaceholder then [offset + 1] else []) = [] ↔ r.1.isPlaceholder = false
      cases r.1.isPlaceholder <;> simp

/-- **A survey goes with the reading** of an element, on any bytes and to any
depth. -/
theorem goes_survey (levels offset : Nat) (code : UInt8) (data : Bytes) :
    Goes Element.hasPlaceholder (survey levels offset code data)
      (Element.read levels offset code data) := by
  induction levels generalizing offset code data with
  | zero =>
    by_cases hcode : code = nestedCode
    · rw [hcode, survey_nested_zero, Element.read_nested_zero]
      exact ⟨rfl, fun r h => by cases h⟩
    · exact goes_survey_of_ne hcode 0 offset data
  | succ levels ih =>
    by_cases hcode : code = nestedCode
    · have hnone : ([] : List Nat) = [] ↔ Tuple.hasPlaceholder [] = false :=
        ⟨fun _ => rfl, fun _ => rfl⟩
      have hrow := goes_surveyChildren (fun offset code data => ih offset code data) offset 0 []
        data hnone
      rw [hcode, survey_nested_succ, Element.read_nested_succ]
      cases hread : Element.readChildren (Element.read levels) offset 0 [] data with
      | error e =>
        rw [hread] at hrow
        exact ⟨hrow.ending, fun r h => by cases h⟩
      | ok r =>
        rw [hread] at hrow
        refine ⟨hrow.ending, fun r' h => ?_⟩
        cases h
        show _ ↔ Element.hasPlaceholderList r.1 = false
        rw [Element.hasPlaceholderList_eq]
        exact hrow.found_eq_nil_iff r rfl
    · exact goes_survey_of_ne hcode (levels + 1) offset data

/-- A survey goes on in a byte string as the reading does. -/
theorem goes_surveyFrom (offset : Nat) (elements : List Element) (data : Bytes) {found : List Nat}
    (hfound : found = [] ↔ Tuple.hasPlaceholder elements = false) :
    Goes Tuple.hasPlaceholder (surveyFrom offset found data)
      ((Tuple.unpackFrom offset elements data).map fun t => (t, offset + data.length)) := by
  fun_induction Tuple.unpackFrom offset elements data generalizing found with
  | case1 offset elements =>
    rw [surveyFrom_nil]
    refine ⟨rfl, fun r h => ?_⟩
    cases h
    rw [hfound, hasPlaceholder_reverse]
  | case2 offset elements code rest e he =>
    have hgoes := goes_survey maxDepth offset code rest
    rw [he] at hgoes
    obtain ⟨more, hsurvey⟩ := hgoes.of_error
    rw [surveyFrom_error hsurvey]
    exact ⟨rfl, fun r h => by cases h⟩
  | case3 offset elements code rest e used hread ih =>
    have hgoes := goes_survey maxDepth offset code rest
    rw [hread] at hgoes
    obtain ⟨more, hsurvey, hmore⟩ := hgoes.of_ok
    obtain ⟨s, behind, rfl, rfl, -, -⟩ := Element.spelling_of_read hread
    have hlength : offset + 1 + s.length + ((s ++ behind).drop s.length).length
        = offset + (code :: (s ++ behind)).length := by
      rw [List.drop_left, List.length_cons, List.length_append]
      omega
    rw [surveyFrom_ok hsurvey, ← hlength]
    exact ih (append_eq_nil_iff_hasPlaceholder hfound hmore)

/-- **A survey of a whole byte string goes with the reading of it.** -/
theorem goes_unpackFrom (data : Bytes) :
    Goes Tuple.hasPlaceholder (surveyFrom 0 [] data)
      ((Tuple.unpackFrom 0 [] data).map fun t => (t, 0 + data.length)) :=
  goes_surveyFrom 0 [] data ⟨fun _ => rfl, fun _ => rfl⟩

end OrderedKey.Placeholder
