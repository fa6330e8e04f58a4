import OrderedKey.Proofs.Survey
import OrderedKey.Tuple.Commit
import OrderedKey.Tuple.Layout

/-!
# Where the first placeholder is

`Placed e s o` says that `s` spells `e` and that the bytes of the first
placeholder of `e` begin at `o`. Like a spelling it is built up with the
element, with no word about how one would look for a placeholder: what
stands in front of the first one has none, and what stands behind it is of
no interest.

All there is to say of a placeholder follows by going through the ways in
which one can be placed. It is spelled like the rest, and its bytes look as
they should (`Stands`). The store's ten bytes written over it give a
spelling of the element with the placeholder filled in, since nothing else
is touched. And a survey comes across it before any other.

Every spelling with a placeholder has a first one, so this is about every
key that can be read.
-/

namespace OrderedKey

namespace Element

mutual

/-- `Placed e s o`: the bytes `s` spell the element `e`, and its first
placeholder has its bytes at `o`. -/
inductive Placed : Element → Bytes → Nat → Prop where
  /-- A placeholder has them right behind its code. -/
  | atom {v : Versionstamp} (h : v.isPlaceholder = true) :
      Placed (.atom (.versionstamp v)) (Atom.versionstamp v).pack 1
  /-- In a nested tuple, the code stands in front. -/
  | tuple {row : List Element} {s : Bytes} {o : Nat} (h : RowPlaced row s o) :
      Placed (.tuple row) (nestedCode :: (s ++ [terminator])) (o + 1)

/-- The same of a row of elements inside a nested tuple. -/
inductive RowPlaced : List Element → Bytes → Nat → Prop where
  /-- It is in the first member. -/
  | here {e : Element} {rest : List Element} {s t : Bytes} {o : Nat} (head : Placed e s o)
      (tail : RowSpelling rest t) : RowPlaced (e :: rest) (s ++ t) o
  /-- It is behind a member without value. -/
  | null {rest : List Element} {t : Bytes} {o : Nat} (tail : RowPlaced rest t o) :
      RowPlaced (null :: rest) (nestedNull ++ t) (nestedNull.length + o)
  /-- It is behind any other member that has none. -/
  | later {e : Element} {rest : List Element} {s t : Bytes} {o : Nat} (hne : e ≠ null)
      (head : Spelling e s) (hnone : e.hasPlaceholder = false) (tail : RowPlaced rest t o) :
      RowPlaced (e :: rest) (s ++ t) (s.length + o)

end

end Element

/-- The same of a tuple. -/
inductive Tuple.Placed : Tuple → Bytes → Nat → Prop where
  /-- It is in the first element. -/
  | here {e : Element} {rest : Tuple} {s t : Bytes} {o : Nat} (head : Element.Placed e s o)
      (tail : Tuple.Spelling rest t) : Placed (e :: rest) (s ++ t) o
  /-- It is behind an element that has none. -/
  | later {e : Element} {rest : Tuple} {s t : Bytes} {o : Nat} (head : Element.Spelling e s)
      (hnone : e.hasPlaceholder = false) (tail : Placed rest t o) :
      Placed (e :: rest) (s ++ t) (s.length + o)

/-! ## It is spelled -/

namespace Element

theorem Placed.ne_null {e : Element} {s : Bytes} {o : Nat} (h : Placed e s o) : e ≠ null := by
  rintro rfl
  cases h

theorem Placed.eq_one_of_atom {a : Atom} {s : Bytes} {o : Nat} (h : Placed (.atom a) s o) :
    o = 1 := by
  cases h
  rfl

mutual

/-- What is placed is spelled. -/
theorem Placed.spelling : {e : Element} → {s : Bytes} → {o : Nat} → Placed e s o → Spelling e s
  | _, _, _, .atom _ => .atom (.written fun _ h => by cases h)
  | _, _, _, .tuple h => .tuple (RowPlaced.rowSpelling h)

theorem RowPlaced.rowSpelling : {row : List Element} → {s : Bytes} → {o : Nat} →
    RowPlaced row s o → RowSpelling row s
  | _, _, _, .here head tail => .cons head.ne_null (Placed.spelling head) tail
  | _, _, _, .null tail => .null (RowPlaced.rowSpelling tail)
  | _, _, _, .later hne head _ tail => .cons hne head (RowPlaced.rowSpelling tail)

end

mutual

/-- **Every spelling of an element with a placeholder places its first
one.** -/
theorem Spelling.exists_placed : {e : Element} → {s : Bytes} → Spelling e s →
    e.hasPlaceholder = true → ∃ o, Placed e s o
  | .atom a, _, .atom h, hplaceholder => by
    cases h with
    | written =>
      cases a with
      | versionstamp v => exact ⟨1, .atom hplaceholder⟩
      | _ => cases hplaceholder
    | nonnegative => cases hplaceholder
    | negative => cases hplaceholder
  | _, _, .tuple h, hplaceholder => by
    obtain ⟨o, hplaced⟩ := RowSpelling.exists_rowPlaced h hplaceholder
    exact ⟨o + 1, .tuple hplaced⟩

theorem RowSpelling.exists_rowPlaced : {row : List Element} → {s : Bytes} → RowSpelling row s →
    hasPlaceholderList row = true → ∃ o, RowPlaced row s o
  | _, _, .nil, hplaceholder => by cases hplaceholder
  | _, _, .null tail, hplaceholder => by
    obtain ⟨o, hplaced⟩ := RowSpelling.exists_rowPlaced tail hplaceholder
    exact ⟨_, .null hplaced⟩
  | _, _, .cons (e := e) hne head tail, hplaceholder => by
    rw [hasPlaceholderList, Bool.or_eq_true] at hplaceholder
    -- the first member with a placeholder has the first one
    cases he : e.hasPlaceholder with
    | true =>
      obtain ⟨o, hplaced⟩ := Spelling.exists_placed head he
      exact ⟨o, .here hplaced tail⟩
    | false =>
      rw [he] at hplaceholder
      obtain ⟨o, hplaced⟩ := RowSpelling.exists_rowPlaced tail (hplaceholder.resolve_left nofun)
      exact ⟨_, .later hne head he hplaced⟩

end

end Element

namespace Tuple

theorem Placed.spelling {t : Tuple} {s : Bytes} {o : Nat} (h : Placed t s o) : Spelling t s := by
  induction h with
  | here head tail => exact .cons head.spelling tail
  | later head _ _ ih => exact .cons head ih

theorem Spelling.exists_placed {t : Tuple} {s : Bytes} (h : Spelling t s)
    (hplaceholder : hasPlaceholder t = true) : ∃ o, Placed t s o := by
  induction h with
  | nil => cases hplaceholder
  | @cons e rest s t head tail ih =>
    rw [hasPlaceholder, List.any_cons, Bool.or_eq_true] at hplaceholder
    cases he : e.hasPlaceholder with
    | true =>
      obtain ⟨o, hplaced⟩ := head.exists_placed he
      exact ⟨o, .here hplaced tail⟩
    | false =>
      rw [he] at hplaceholder
      obtain ⟨o, hplaced⟩ := ih (hplaceholder.resolve_left nofun)
      exact ⟨_, .later head he hplaced⟩

end Tuple

/-! ## Its bytes are there -/

namespace Element

mutual

theorem Placed.stands : {e : Element} → {s : Bytes} → {o : Nat} → Placed e s o → Stands s o
  | _, _, _, .atom h => .pack_versionstamp h
  | _, _, _, .tuple h => by
    rw [Nat.add_comm]
    exact ((RowPlaced.stands h).append_right [terminator]).append_left [nestedCode]

theorem RowPlaced.stands : {row : List Element} → {s : Bytes} → {o : Nat} → RowPlaced row s o →
    Stands s o
  | _, _, _, .here head _ => (Placed.stands head).append_right _
  | _, _, _, .null tail => (RowPlaced.stands tail).append_left nestedNull
  | _, _, _, .later _ _ _ tail => (RowPlaced.stands tail).append_left _

end

end Element

/-- **The bytes of a placeholder are where it is placed.** -/
theorem Tuple.Placed.stands {t : Tuple} {s : Bytes} {o : Nat} (h : Tuple.Placed t s o) :
    Stands s o := by
  induction h with
  | here head _ => exact head.stands.append_right _
  | later _ _ _ ih => exact ih.append_left _

/-! ## A commit fills it in -/

namespace Element

mutual

/-- The bytes of a commit written over it spell the element that the commit
leaves. -/
theorem Placed.commit? (stamp : Versionstamp.TransactionBytes) : {e : Element} → {s : Bytes} →
    {o : Nat} → Placed e s o →
      ∃ filled, e.commit? stamp = some filled ∧ Spelling filled (overwrite s o stamp)
  | _, _, _, .atom (v := v) h => by
    refine ⟨.atom (.versionstamp (v.commit stamp)), if_pos h, ?_⟩
    rw [← Atom.pack_versionstamp_commit]
    exact .atom (.written fun n hn => by cases hn)
  | _, _, _, .tuple (s := s) (o := o) h => by
    obtain ⟨filled, hfilled, hspelling⟩ := RowPlaced.commitList? stamp h
    refine ⟨.tuple filled, ?_, ?_⟩
    · rw [Element.commit?, hfilled]
      rfl
    · have hcode : overwrite (nestedCode :: (s ++ [terminator])) (1 + o) stamp
          = nestedCode :: overwrite (s ++ [terminator]) o stamp :=
        overwrite_append_right stamp [nestedCode] (s ++ [terminator])
      rw [overwrite_append_left stamp (h.stands.add_length_le stamp)] at hcode
      rw [Nat.add_comm]
      exact hcode ▸ .tuple hspelling

theorem RowPlaced.commitList? (stamp : Versionstamp.TransactionBytes) : {row : List Element} →
    {s : Bytes} → {o : Nat} → RowPlaced row s o →
      ∃ filled, Element.commitList? stamp row = some filled
        ∧ RowSpelling filled (overwrite s o stamp)
  | _ :: rest, _, _, .here head tail => by
    obtain ⟨filled, hfilled, hspelling⟩ := Placed.commit? stamp head
    refine ⟨filled :: rest, ?_, ?_⟩
    · rw [Element.commitList?, hfilled]
    · rw [overwrite_append_left stamp (head.stands.add_length_le stamp)]
      refine .cons ?_ hspelling tail
      rintro rfl
      exact head.ne_null (isNull_iff.1 (sameShape_of_commit? hfilled).isNull.symm)
  | _, _, _, .null tail => by
    obtain ⟨filled, hfilled, hspelling⟩ := RowPlaced.commitList? stamp tail
    refine ⟨null :: filled, ?_, ?_⟩
    · rw [Element.commitList?, hfilled]
      rfl
    · rw [overwrite_append_right]
      exact .null hspelling
  | _, _, _, .later (e := e) hne head hnone tail => by
    obtain ⟨filled, hfilled, hspelling⟩ := RowPlaced.commitList? stamp tail
    -- a commit passes over the member as the bytes of the commit do
    refine ⟨e :: filled, ?_, ?_⟩
    · rw [Element.commitList?, (commit?_eq_none_iff e).2 hnone, hfilled]
      rfl
    · rw [overwrite_append_right]
      exact .cons hne head hspelling

end

end Element

/-- **The store does to the key what a commit does to the tuple**: with the
bytes of the commit written over the first placeholder, the key spells the
tuple with that placeholder filled in. -/
theorem Tuple.Placed.spelling_commit {t : Tuple} {s : Bytes} {o : Nat} (h : Tuple.Placed t s o)
    (stamp : Versionstamp.TransactionBytes) :
    Tuple.Spelling (Tuple.commit t stamp) (overwrite s o stamp) := by
  suffices hfilled : ∃ filled, Element.commitList? stamp t = some filled
      ∧ Tuple.Spelling filled (overwrite s o stamp) by
    obtain ⟨filled, hfilled, hspelling⟩ := hfilled
    rw [Tuple.commit, hfilled]
    exact hspelling
  induction h with
  | @here e rest s t o head tail =>
    obtain ⟨filled, hfilled, hspelling⟩ := head.commit? stamp
    refine ⟨filled :: rest, ?_, ?_⟩
    · rw [Element.commitList?, hfilled]
    · rw [overwrite_append_left stamp (head.stands.add_length_le stamp)]
      exact .cons hspelling tail
  | @later e rest s t o head hnone tail ih =>
    obtain ⟨filled, hfilled, hspelling⟩ := ih
    refine ⟨e :: filled, ?_, ?_⟩
    · rw [Element.commitList?, (Element.commit?_eq_none_iff e).2 hnone, hfilled]
      rfl
    · rw [overwrite_append_right]
      exact .cons head hspelling

/-! ## A survey comes across it first -/

namespace Placeholder

open Element

/-- A member without placeholder is passed. -/
theorem survey_spelling {e : Element} {s : Bytes} (h : Spelling e s)
    (hnone : e.hasPlaceholder = false) {levels : Nat} (hdepth : e.depth ≤ levels) :
    ∃ code body, s = code :: body ∧ ∀ offset rest, rest.head? ≠ some escapeMark →
      survey levels offset code (body ++ rest) = ⟨[], .ok body.length⟩ := by
  obtain ⟨code, body, hs, hread⟩ := h.read_eq_ok hdepth
  refine ⟨code, body, hs, fun offset rest hrest => ?_⟩
  have hgoes := goes_survey levels offset code (body ++ rest)
  rw [hread offset rest hrest] at hgoes
  obtain ⟨more, hsurvey, hmore⟩ := hgoes.of_ok
  rw [hsurvey, hmore.2 hnone]

mutual

theorem first_survey : {e : Element} → {s : Bytes} → {o : Nat} → Placed e s o → {levels : Nat} →
    e.depth ≤ levels → ∃ code body, s = code :: body ∧ ∀ offset rest,
      rest.head? ≠ some escapeMark →
        (survey levels offset code (body ++ rest)).found.head? = some (offset + o)
  | _, _, _, .atom (v := v) h, levels, _ => by
    refine ⟨(Atom.versionstamp v).code.toByte, (Atom.versionstamp v).payload, rfl,
      fun offset rest hrest => ?_⟩
    rw [survey_atom (Atom.versionstamp v) levels offset hrest]
    show (if v.isPlaceholder then [offset + 1] else []).head? = some (offset + 1)
    rw [if_pos h]
    rfl
  | _, _, _, .tuple h, 0, hdepth => by
    rw [depth] at hdepth
    cases hdepth
  | _, _, _, .tuple (s := s) (o := o) h, levels + 1, hdepth => by
    rw [depth] at hdepth
    refine ⟨nestedCode, s ++ [terminator], rfl, fun offset rest hrest => ?_⟩
    have hrow := first_surveyChildren h (Nat.le_of_succ_le_succ hdepth) offset 0 hrest
    rw [survey_nested_succ, List.append_assoc, List.singleton_append, hrow]
    exact congrArg some (by omega)

theorem first_surveyChildren : {row : List Element} → {s : Bytes} → {o : Nat} →
    RowPlaced row s o → {levels : Nat} → depthList row ≤ levels → ∀ (start size : Nat)
      {rest : Bytes}, rest.head? ≠ some escapeMark →
        (surveyChildren (survey levels) start size [] (s ++ terminator :: rest)).found.head?
          = some (start + 1 + size + o)
  | _, _, _, .here head tail, levels, hdepth, start, size, rest, hrest => by
    obtain ⟨code, body, hs, hfirst⟩ := first_survey head (Nat.le_trans (Nat.le_max_left _ _) hdepth)
    subst hs
    rw [List.append_assoc]
    exact head?_found_surveyChildren_member (head.spelling.code_ne_terminator head.ne_null)
      (hfirst (start + 1 + size) _ (tail.head?_append_ne (head?_terminator_ne rest)))
  | _, _, _, .null (t := t) (o := o) tail, levels, hdepth, start, size, rest, hrest => by
    have hfirst := first_surveyChildren tail (Nat.le_trans (Nat.le_max_right _ _) hdepth) start
      (size + 2) hrest
    have hoffset : start + 1 + (size + 2) + o = start + 1 + size + (nestedNull.length + o) := by
      show _ = start + 1 + size + (2 + o)
      omega
    rw [hoffset] at hfirst
    exact (congrArg (·.found.head?) (surveyChildren_marked _)).trans hfirst
  | _, _, _, .later (o := o) hne head hnone tail, levels, hdepth, start, size, rest, hrest => by
    have hfirst := first_surveyChildren tail (Nat.le_trans (Nat.le_max_right _ _) hdepth) start
    obtain ⟨code, body, hs, hsurvey⟩ :=
      survey_spelling head hnone (Nat.le_trans (Nat.le_max_left _ _) hdepth)
    subst hs
    have hmember := hsurvey (start + 1 + size) _
      (tail.rowSpelling.head?_append_ne (head?_terminator_ne rest))
    rw [List.append_assoc, List.cons_append,
      surveyChildren_member_ok (head.code_ne_terminator hne) hmember, List.drop_left,
      List.append_nil, hfirst (size + 1 + body.length) hrest, List.length_cons]
    exact congrArg some (by omega)

end

/-- **A survey comes across the first placeholder first.** -/
theorem first_surveyFrom {t : Tuple} {s : Bytes} {o : Nat} (h : Tuple.Placed t s o)
    (hdepth : Tuple.depth t ≤ maxDepth) (offset : Nat) :
    (surveyFrom offset [] s).found.head? = some (offset + o) := by
  induction h generalizing offset with
  | here head tail =>
    obtain ⟨code, body, rfl, hfirst⟩ :=
      first_survey head (Nat.le_trans (Nat.le_max_left _ _) hdepth)
    exact head?_found_surveyFrom_cons (hfirst offset _ tail.head?_ne)
  | @later e rest s t o head hnone tail ih =>
    obtain ⟨code, body, rfl, hsurvey⟩ :=
      survey_spelling head hnone (Nat.le_trans (Nat.le_max_left _ _) hdepth)
    have helement := hsurvey offset _ tail.spelling.head?_ne
    rw [List.cons_append, surveyFrom_ok helement, List.drop_left, List.append_nil,
      ih (Nat.le_trans (Nat.le_max_right _ _) hdepth), List.length_cons]
    exact congrArg some (by omega)

end Placeholder

end OrderedKey
