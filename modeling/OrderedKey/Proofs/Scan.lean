import OrderedKey.Proofs.Survey

/-!
# A scan is a survey that stops

What runs is a scan, which stops in the middle of the bytes when it has the
placeholders it was asked for, at whatever depth it is then. A survey knows
of no limit. The two agree up to there (`Stopped`): if the survey finds
fewer than the limit, the scan is no different from it, and else the scan
has the first of what the survey finds, and no fault, whatever the survey
meets behind them.

With a limit of one or two that is all that `locate` and `locateOnly` ask
of the survey, so from here on they are taken as questions to the survey
(`locate_eq`, `locateOnly_eq`).
-/

namespace OrderedKey.Placeholder

/-- The scan is the survey, stopped at so many placeholders. -/
structure Stopped (limit : Nat) (scan full : Survey) : Prop where
  /-- Below the limit it is no different. -/
  of_lt : full.found.length < limit → scan = full
  /-- From the limit on it has the first ones, and no fault. -/
  of_le : limit ≤ full.found.length →
    scan.found = full.found.take limit ∧ ∃ used, scan.ending = .ok used

namespace Stopped

variable {limit : Nat} {found : List Nat} {full : Survey}

/-- What does not reach the limit is not stopped. -/
theorem of_eq (h : full.found.length < limit) : Stopped limit full full :=
  ⟨fun _ => rfl, fun hle => absurd hle (Nat.not_le_of_lt h)⟩

/-- What has been found up to the limit is all there is to be found. -/
theorem of_enough (h : found.length = limit) (hbegins : found <+: full.found) (used : Nat) :
    Stopped limit ⟨found, .ok used⟩ full := by
  have hle := hbegins.length_le
  refine ⟨fun hlt => absurd hlt (by omega), fun _ => ⟨?_, used, rfl⟩⟩
  rw [← h]
  exact List.prefix_iff_eq_take.1 hbegins

/-- A part in which the limit is reached is all there is to be found. -/
theorem of_part {more : List Nat} (h : found.length ≤ limit)
    (hmore : limit - found.length ≤ more.length) (hbegins : found ++ more <+: full.found)
    (used : Nat) :
    Stopped limit ⟨found ++ more.take (limit - found.length), .ok used⟩ full := by
  refine of_enough ?_ (.trans ?_ hbegins) used
  · rw [List.length_append, List.length_take, Nat.min_eq_left hmore]
    omega
  · exact (List.prefix_append_right_inj found).2 (List.take_prefix _ more)

/-- A scan in which the limit is reached has no fault. -/
theorem eq_of_le {scan : Survey} (h : Stopped limit scan full)
    (hle : limit ≤ full.found.length) :
    ∃ used, scan = ⟨full.found.take limit, .ok used⟩ := by
  obtain ⟨found, ending⟩ := scan
  obtain ⟨rfl, used, rfl⟩ := h.of_le hle
  exact ⟨used, rfl⟩

end Stopped

/-! ## The scan, code by code -/

theorem scan_nested_zero (limit offset : Nat) (data : Bytes) :
    scan 0 limit offset nestedCode data = survey 0 offset nestedCode data := by
  rw [scan, if_pos rfl, survey_nested_zero]

theorem scan_nested_succ (levels limit offset : Nat) (data : Bytes) :
    scan (levels + 1) limit offset nestedCode data
      = scanChildren (scan levels) limit offset 0 [] data := by
  rw [scan, if_pos rfl]

/-- There is nothing to stop at inside an atom. -/
theorem scan_of_ne {code : UInt8} (hne : code ≠ nestedCode) (levels limit offset : Nat)
    (data : Bytes) : scan levels limit offset code data = survey levels offset code data := by
  unfold scan survey
  exact (if_neg hne).trans (if_neg hne).symm

section Row

variable {scanner : Scanner} {limit start size : Nat} {found : List Nat}

theorem scanChildren_enough (h : limit ≤ found.length) (body : Bytes) :
    scanChildren scanner limit start size found body = ⟨found, .ok size⟩ := by
  cases body with
  | nil => rw [scanChildren, if_pos h]
  | cons b rest => rw [scanChildren, if_pos h]

variable (h : ¬ limit ≤ found.length)
include h

theorem scanChildren_nil :
    scanChildren scanner limit start size found []
      = ⟨found, .error (.outOfBounds start (start + 1 + size))⟩ := by
  rw [scanChildren, if_neg h]

theorem scanChildren_marked (rest : Bytes) :
    scanChildren scanner limit start size found (terminator :: escapeMark :: rest)
      = scanChildren scanner limit start (size + 2) found rest := by
  rw [scanChildren, if_neg h, if_pos rfl, if_pos List.head?_cons]
  rfl

theorem scanChildren_ended {rest : Bytes} (hmark : rest.head? ≠ some escapeMark) :
    scanChildren scanner limit start size found (terminator :: rest)
      = ⟨found, .ok (size + 1)⟩ := by
  rw [scanChildren, if_neg h, if_pos rfl, if_neg hmark]

theorem scanChildren_member_error {b : UInt8} {rest : Bytes} {more : List Nat} {e : KeyError}
    (hb : b ≠ terminator)
    (hscan : scanner (limit - found.length) (start + 1 + size) b rest = ⟨more, .error e⟩) :
    scanChildren scanner limit start size found (b :: rest) = ⟨found ++ more, .error e⟩ := by
  rw [scanChildren, if_neg h, if_neg hb, hscan]

theorem scanChildren_member_ok {b : UInt8} {rest : Bytes} {more : List Nat} {used : Nat}
    (hb : b ≠ terminator)
    (hscan : scanner (limit - found.length) (start + 1 + size) b rest = ⟨more, .ok used⟩) :
    scanChildren scanner limit start size found (b :: rest)
      = scanChildren scanner limit start (size + 1 + used) (found ++ more) (rest.drop used) := by
  rw [scanChildren, if_neg h, if_neg hb, hscan]

end Row

section Top

variable {limit offset : Nat} {found : List Nat}

theorem scanFrom_enough (h : limit ≤ found.length) (data : Bytes) :
    scanFrom limit offset found data = ⟨found, .ok offset⟩ := by
  cases data with
  | nil => rw [scanFrom]
  | cons code rest => rw [scanFrom, if_pos h]

variable (h : ¬ limit ≤ found.length)
include h

theorem scanFrom_error {code : UInt8} {rest : Bytes} {more : List Nat} {e : KeyError}
    (hscan : scan maxDepth (limit - found.length) offset code rest = ⟨more, .error e⟩) :
    scanFrom limit offset found (code :: rest) = ⟨found ++ more, .error e⟩ := by
  rw [scanFrom, if_neg h, hscan]

theorem scanFrom_ok {code : UInt8} {rest : Bytes} {more : List Nat} {used : Nat}
    (hscan : scan maxDepth (limit - found.length) offset code rest = ⟨more, .ok used⟩) :
    scanFrom limit offset found (code :: rest)
      = scanFrom limit (offset + 1 + used) (found ++ more) (rest.drop used) := by
  rw [scanFrom, if_neg h, hscan]

end Top

/-! ## A scan stops a survey -/

/-- There is at most one placeholder in an atom, and then no fault. -/
theorem stopped_survey_of_ne {code : UInt8} (hne : code ≠ nestedCode) (levels offset : Nat)
    (data : Bytes) {limit : Nat} (hlimit : 0 < limit) :
    Stopped limit (survey levels offset code data) (survey levels offset code data) := by
  cases hkind : AtomCode.ofByte? code with
  | none =>
    rw [survey_of_ofByte?_eq_none hne hkind]
    exact .of_eq hlimit
  | some kind =>
    cases hread : Atom.read kind offset data with
    | error e =>
      rw [survey_of_read_eq_error hne hkind hread]
      exact .of_eq hlimit
    | ok r =>
      rw [survey_of_read_eq_ok hne hkind hread]
      cases r.1.isPlaceholder with
      | false => exact .of_eq hlimit
      | true =>
        rcases Nat.lt_or_eq_of_le hlimit with hlt | rfl
        · exact .of_eq hlt
        · have hbegins : [offset + 1] <+: (Survey.mk [offset + 1] (.ok r.2)).found :=
            List.prefix_refl _
          exact .of_enough rfl hbegins r.2

section Row

variable {scanner : Scanner} {surveyor : Surveyor} {limit start size : Nat} {found : List Nat}

/-- A scan that has enough is done, and else it goes one step along with the
survey. -/
theorem stopped_scanChildren_of_step {body : Bytes} {full : Survey}
    (hfound : found.length ≤ limit) (hbegins : found <+: full.found)
    (hstep : ¬ limit ≤ found.length →
      Stopped limit (scanChildren scanner limit start size found body) full) :
    Stopped limit (scanChildren scanner limit start size found body) full := by
  by_cases henough : limit ≤ found.length
  · rw [scanChildren_enough henough]
    exact .of_enough (Nat.le_antisymm hfound henough) hbegins size
  · exact hstep henough

/-- A scan in which a member reaches the limit is done. -/
theorem stopped_scanChildren_of_member {b : UInt8} {rest : Bytes} {full member : Survey}
    (h : ¬ limit ≤ found.length) (hb : b ≠ terminator)
    (hmember : Stopped (limit - found.length)
      (scanner (limit - found.length) (start + 1 + size) b rest) member)
    (hmore : limit - found.length ≤ member.found.length)
    (hbegins : found ++ member.found <+: full.found) :
    Stopped limit (scanChildren scanner limit start size found (b :: rest)) full := by
  -- the member stops with no fault, and the loop around it then stops too
  obtain ⟨used, hscan⟩ := hmember.eq_of_le hmore
  have henough : limit ≤ (found ++ member.found.take (limit - found.length)).length := by
    rw [List.length_append, List.length_take, Nat.min_eq_left hmore]
    omega
  rw [scanChildren_member_ok h hb hscan, scanChildren_enough henough]
  exact .of_part (by omega) hmore hbegins _

/-- A scan of a nested tuple stops the survey of it, if the scans of its
members do. -/
theorem stopped_scanChildren
    (hmember : ∀ {limit} offset code data, 0 < limit →
      Stopped limit (scanner limit offset code data) (surveyor offset code data))
    (hfound : found.length ≤ limit) (body : Bytes) :
    Stopped limit (scanChildren scanner limit start size found body)
      (surveyChildren surveyor start size found body) := by
  fun_induction surveyChildren surveyor start size found body with
  | case1 size found =>
    refine stopped_scanChildren_of_step hfound (List.prefix_refl _) fun h => ?_
    rw [scanChildren_nil h]
    exact .of_eq (Nat.lt_of_not_le h)
  | case2 size found rest hmark ih =>
    refine stopped_scanChildren_of_step hfound (prefix_found_surveyChildren _) fun h => ?_
    obtain ⟨tail, rfl⟩ := List.head?_eq_some_iff.1 hmark
    rw [scanChildren_marked h]
    exact ih hfound
  | case3 size found rest hmark =>
    refine stopped_scanChildren_of_step hfound (List.prefix_refl _) fun h => ?_
    rw [scanChildren_ended h hmark]
    exact .of_eq (Nat.lt_of_not_le h)
  | case4 size found b rest hb more e hsurvey =>
    refine stopped_scanChildren_of_step hfound (List.prefix_append _ _) fun h => ?_
    have hstopped := hmember (start + 1 + size) b rest (Nat.sub_pos_of_lt (Nat.lt_of_not_le h))
    rw [hsurvey] at hstopped
    rcases Nat.lt_or_ge more.length (limit - found.length) with hlt | hge
    · rw [scanChildren_member_error h hb (hstopped.of_lt hlt)]
      refine .of_eq ?_
      rw [List.length_append]
      omega
    · exact stopped_scanChildren_of_member h hb hstopped hge (List.prefix_refl _)
  | case5 size found b rest hb more used hsurvey ih =>
    have hbegins : found ++ more <+: (surveyChildren surveyor start (size + 1 + used)
        (found ++ more) (rest.drop used)).found := prefix_found_surveyChildren _
    refine stopped_scanChildren_of_step hfound ((List.prefix_append _ _).trans hbegins) fun h => ?_
    have hstopped := hmember (start + 1 + size) b rest (Nat.sub_pos_of_lt (Nat.lt_of_not_le h))
    rw [hsurvey] at hstopped
    rcases Nat.lt_or_ge more.length (limit - found.length) with hlt | hge
    · rw [scanChildren_member_ok h hb (hstopped.of_lt hlt)]
      refine ih ?_
      rw [List.length_append]
      omega
    · exact stopped_scanChildren_of_member h hb hstopped hge hbegins

end Row

/-- **A scan of an element stops the survey of it.** -/
theorem stopped_scan (levels : Nat) {limit : Nat} (offset : Nat) (code : UInt8) (data : Bytes)
    (hlimit : 0 < limit) :
    Stopped limit (scan levels limit offset code data) (survey levels offset code data) := by
  induction levels generalizing limit offset code data with
  | zero =>
    by_cases hcode : code = nestedCode
    · rw [hcode, scan_nested_zero, survey_nested_zero]
      exact .of_eq hlimit
    · rw [scan_of_ne hcode]
      exact stopped_survey_of_ne hcode 0 offset data hlimit
  | succ levels ih =>
    by_cases hcode : code = nestedCode
    · rw [hcode, scan_nested_succ, survey_nested_succ]
      exact stopped_scanChildren ih (Nat.zero_le limit) data
    · rw [scan_of_ne hcode]
      exact stopped_survey_of_ne hcode (levels + 1) offset data hlimit

section Top

variable {limit offset : Nat} {found : List Nat}

/-- A scan that has enough is done, and else it goes one step along with the
survey. -/
theorem stopped_scanFrom_of_step {data : Bytes} {full : Survey} (hfound : found.length ≤ limit)
    (hbegins : found <+: full.found)
    (hstep : ¬ limit ≤ found.length → Stopped limit (scanFrom limit offset found data) full) :
    Stopped limit (scanFrom limit offset found data) full := by
  by_cases henough : limit ≤ found.length
  · rw [scanFrom_enough henough]
    exact .of_enough (Nat.le_antisymm hfound henough) hbegins offset
  · exact hstep henough

/-- A scan in which an element reaches the limit is done. -/
theorem stopped_scanFrom_of_element {code : UInt8} {rest : Bytes} {full element : Survey}
    (h : ¬ limit ≤ found.length)
    (helement : Stopped (limit - found.length)
      (scan maxDepth (limit - found.length) offset code rest) element)
    (hmore : limit - found.length ≤ element.found.length)
    (hbegins : found ++ element.found <+: full.found) :
    Stopped limit (scanFrom limit offset found (code :: rest)) full := by
  obtain ⟨used, hscan⟩ := helement.eq_of_le hmore
  have henough : limit ≤ (found ++ element.found.take (limit - found.length)).length := by
    rw [List.length_append, List.length_take, Nat.min_eq_left hmore]
    omega
  rw [scanFrom_ok h hscan, scanFrom_enough henough]
  exact .of_part (by omega) hmore hbegins _

/-- **A scan of a whole byte string stops the survey of it.** -/
theorem stopped_scanFrom (hfound : found.length ≤ limit) (data : Bytes) :
    Stopped limit (scanFrom limit offset found data) (surveyFrom offset found data) := by
  fun_induction surveyFrom offset found data with
  | case1 offset found =>
    refine stopped_scanFrom_of_step hfound (List.prefix_refl _) fun h => ?_
    rw [scanFrom]
    exact .of_eq (Nat.lt_of_not_le h)
  | case2 offset found code rest more e hsurvey =>
    refine stopped_scanFrom_of_step hfound (List.prefix_append _ _) fun h => ?_
    have hstopped :=
      stopped_scan maxDepth offset code rest (Nat.sub_pos_of_lt (Nat.lt_of_not_le h))
    rw [hsurvey] at hstopped
    rcases Nat.lt_or_ge more.length (limit - found.length) with hlt | hge
    · rw [scanFrom_error h (hstopped.of_lt hlt)]
      refine .of_eq ?_
      rw [List.length_append]
      omega
    · exact stopped_scanFrom_of_element h hstopped hge (List.prefix_refl _)
  | case3 offset found code rest more used hsurvey ih =>
    have hbegins : found ++ more <+: (surveyFrom (offset + 1 + used) (found ++ more)
        (rest.drop used)).found := prefix_found_surveyFrom _
    refine stopped_scanFrom_of_step hfound ((List.prefix_append _ _).trans hbegins) fun h => ?_
    have hstopped :=
      stopped_scan maxDepth offset code rest (Nat.sub_pos_of_lt (Nat.lt_of_not_le h))
    rw [hsurvey] at hstopped
    rcases Nat.lt_or_ge more.length (limit - found.length) with hlt | hge
    · rw [scanFrom_ok h (hstopped.of_lt hlt)]
      refine ih ?_
      rw [List.length_append]
      omega
    · exact stopped_scanFrom_of_element h hstopped hge hbegins

end Top

/-! ## The two questions -/

/-- **The first placeholder** is the first that a survey finds. -/
theorem locate_eq (data : Bytes) :
    locate data = match surveyFrom 0 [] data with
      | ⟨first :: _, _⟩ => .ok first
      | ⟨[], .error e⟩ => .error e
      | ⟨[], .ok _⟩ => .error .missingPlaceholder := by
  have hstopped : Stopped 1 (scanFrom 1 0 [] data) (surveyFrom 0 [] data) :=
    stopped_scanFrom (Nat.zero_le 1) data
  unfold locate
  rcases hsurvey : surveyFrom 0 [] data with ⟨_ | ⟨first, more⟩, ending⟩
  · rw [hsurvey] at hstopped
    rw [hstopped.of_lt Nat.zero_lt_one]
    cases ending <;> rfl
  · rw [hsurvey] at hstopped
    obtain ⟨used, hscan⟩ := hstopped.eq_of_le (Nat.succ_le_succ (Nat.zero_le _))
    rw [hscan]
    rfl

/-- It is located exactly if one is found. -/
theorem locate_eq_ok_iff {data : Bytes} {o : Nat} :
    locate data = .ok o ↔ (surveyFrom 0 [] data).found.head? = some o := by
  rw [locate_eq]
  rcases surveyFrom 0 [] data with ⟨_ | ⟨first, more⟩, e | used⟩
  · exact iff_of_false nofun nofun
  · exact iff_of_false nofun nofun
  · rw [List.head?_cons, Except.ok.injEq, Option.some_inj]
  · rw [List.head?_cons, Except.ok.injEq, Option.some_inj]

/-- If none is found, what counts is how the survey ends. -/
theorem locate_of_found_eq_nil {data : Bytes} (h : (surveyFrom 0 [] data).found = []) :
    locate data = match (surveyFrom 0 [] data).ending with
      | .error e => .error e
      | .ok _ => .error .missingPlaceholder := by
  rw [locate_eq]
  rcases hsurvey : surveyFrom 0 [] data with ⟨found, ending⟩
  rw [hsurvey] at h
  cases h
  cases ending <;> rfl

/-- **The only placeholder** is the only one that a survey finds. -/
theorem locateOnly_eq (baseLength : Nat) (packed : Bytes) :
    locateOnly baseLength packed = match surveyFrom 0 [] packed with
      | ⟨first :: second :: _, _⟩ =>
        .error (.severalPlaceholders (baseLength + first) (baseLength + second))
      | ⟨_, .error e⟩ => .error e
      | ⟨[], .ok _⟩ => .error .missingPlaceholder
      | ⟨[only], .ok _⟩ =>
        if baseLength + only < capacity offsetSize then .ok (baseLength + only)
        else .error (.outOfBounds (baseLength + only) (baseLength + packed.length)) := by
  have hstopped : Stopped 2 (scanFrom 2 0 [] packed) (surveyFrom 0 [] packed) :=
    stopped_scanFrom (Nat.zero_le 2) packed
  unfold locateOnly
  rcases hsurvey : surveyFrom 0 [] packed with ⟨_ | ⟨first, _ | ⟨second, more⟩⟩, ending⟩
  · rw [hsurvey] at hstopped
    rw [hstopped.of_lt Nat.zero_lt_two]
    cases ending <;> rfl
  · rw [hsurvey] at hstopped
    rw [hstopped.of_lt Nat.one_lt_two]
    cases ending <;> rfl
  · rw [hsurvey] at hstopped
    obtain ⟨used, hscan⟩ :=
      hstopped.eq_of_le (Nat.succ_le_succ (Nat.succ_le_succ (Nat.zero_le _)))
    rw [hscan]
    rfl

/-- One is the only one if the survey finds no other to its end. -/
theorem survey_of_locateOnly_eq_ok {baseLength n : Nat} {packed : Bytes}
    (h : locateOnly baseLength packed = .ok n) :
    ∃ o used, surveyFrom 0 [] packed = ⟨[o], .ok used⟩ ∧ n = baseLength + o
      ∧ n < capacity offsetSize := by
  rw [locateOnly_eq] at h
  rcases hsurvey : surveyFrom 0 [] packed with ⟨_ | ⟨first, _ | ⟨second, more⟩⟩, e | used⟩ <;>
    rw [hsurvey] at h
  case cons.nil.ok =>
    dsimp only at h
    split at h
    · rename_i hcapacity
      cases h
      exact ⟨first, used, rfl, rfl, hcapacity⟩
    · cases h
  all_goals cases h

end OrderedKey.Placeholder
