import OrderedKey.Proofs.AtomReading
import OrderedKey.Tuple.Unpack

/-!
# What tuples are read from

Reading takes the spellings of a tuple that is not too deep, and nothing
else: `Tuple.spelling_of_unpackFrom` and `Tuple.Spelling.unpackFrom_eq_ok`.
So what the reader does with bytes, whoever wrote them, can be argued over
the shape of the tuple that they spell, and the reader itself is opened
here and nowhere else.

An element is read from the front of longer data, and how much of it is the
element's own is found out on the way. For that the data behind it must not
begin with the escape mark, or a last terminator would be taken for a
marked `0x00`. Nothing that is spelled begins with the mark
(`Element.Spelling.exists_eq_cons`), so one element behind the other is
always read apart.

A reader that may follow nested tuples for some levels reads exactly what
is spelled with no more tuples one inside the other.
-/

namespace OrderedKey

/-! ## The first byte of a spelling -/

/-- **No spelling begins with the mark**, and only that of the element
without value begins with the terminator. -/
theorem Element.Spelling.exists_eq_cons {e : Element} {s : Bytes} (h : Element.Spelling e s) :
    ∃ code body, s = code :: body ∧ code ≠ escapeMark ∧ (code = terminator → e = Element.null) := by
  cases h with
  | @atom a s h =>
    obtain ⟨code, hcode, payload, rfl, hread⟩ := h.read_eq_ok
    refine ⟨code.toByte, payload, rfl, AtomCode.toByte_ne_escapeMark hcode, fun hbyte => ?_⟩
    have hnull := hread 0 [] (by simp)
    rw [AtomCode.eq_null_of_toByte_eq hcode hbyte] at hnull
    have ha : Atom.null = a := congrArg Prod.fst (Except.ok.inj hnull)
    rw [← ha]
    rfl
  | tuple h => exact ⟨nestedCode, _, rfl, by decide, fun heq => by cases heq⟩

theorem Element.Spelling.code_ne_terminator {e : Element} {code : UInt8} {body : Bytes}
    (h : Element.Spelling e (code :: body)) (hne : e ≠ Element.null) : code ≠ terminator := by
  obtain ⟨_, _, hcons, -, hnull⟩ := h.exists_eq_cons
  cases hcons
  exact fun hterminator => hne (hnull hterminator)

theorem Element.Spelling.ne_null_of_ne {e : Element} {code : UInt8} {body : Bytes}
    (h : Element.Spelling e (code :: body)) (hcode : code ≠ terminator) : e ≠ Element.null := by
  rintro rfl
  cases h with
  | atom h =>
    cases h with
    | written => exact hcode rfl

theorem Element.Spelling.head?_append_ne {e : Element} {s : Bytes} (h : Element.Spelling e s)
    (rest : Bytes) : (s ++ rest).head? ≠ some escapeMark := by
  obtain ⟨code, body, rfl, hcode, -⟩ := h.exists_eq_cons
  simpa using hcode

/-- A row does not begin with the mark unless what follows it does. -/
theorem Element.RowSpelling.head?_append_ne {row : List Element} {s rest : Bytes}
    (h : Element.RowSpelling row s) (hrest : rest.head? ≠ some escapeMark) :
    (s ++ rest).head? ≠ some escapeMark := by
  cases h with
  | nil => exact hrest
  | null tail => exact head?_terminator_ne _
  | cons hne head tail =>
    rw [List.append_assoc]
    exact head.head?_append_ne _

/-- Nothing spells the tuple without elements and no other. -/
theorem Tuple.Spelling.eq_nil_iff {t : Tuple} {s : Bytes} (h : Tuple.Spelling t s) :
    s = [] ↔ t = [] := by
  cases h with
  | nil => exact ⟨fun _ => rfl, fun _ => rfl⟩
  | cons head tail =>
    obtain ⟨code, body, rfl, -, -⟩ := head.exists_eq_cons
    exact iff_of_false (List.cons_ne_nil _ _) (List.cons_ne_nil _ _)

/-- A tuple does not begin with the mark unless what follows it does. -/
theorem Tuple.Spelling.head?_append_ne {t : Tuple} {s rest : Bytes} (h : Tuple.Spelling t s)
    (hrest : rest.head? ≠ some escapeMark) : (s ++ rest).head? ≠ some escapeMark := by
  cases h with
  | nil => exact hrest
  | cons head tail =>
    rw [List.append_assoc]
    exact head.head?_append_ne _

theorem Tuple.Spelling.head?_ne {t : Tuple} {s : Bytes} (h : Tuple.Spelling t s) :
    s.head? ≠ some escapeMark := by
  have happend := @Tuple.Spelling.head?_append_ne t s [] h (by simp)
  rwa [List.append_nil] at happend

namespace Element

/-! ## The reader, code by code -/

theorem read_nested_zero (offset : Nat) (data : Bytes) :
    read 0 offset nestedCode data = .error (.nestingTooDeep offset maxDepth) := by
  rw [read, if_pos rfl]

theorem read_nested_succ (levels offset : Nat) (data : Bytes) :
    read (levels + 1) offset nestedCode data
      = (readChildren (read levels) offset 0 [] data).map fun r => (.tuple r.1, r.2) := by
  rw [read, if_pos rfl]
  cases readChildren (read levels) offset 0 [] data <;> rfl

theorem read_of_ofByte?_eq_none {code : UInt8} (hne : code ≠ nestedCode)
    (h : AtomCode.ofByte? code = none) (levels offset : Nat) (data : Bytes) :
    read levels offset code data = .error (.unknownCode code offset) := by
  unfold read
  rw [if_neg hne, h]

theorem read_of_ofByte? {code : UInt8} {kind : AtomCode} (hne : code ≠ nestedCode)
    (h : AtomCode.ofByte? code = some kind) (levels offset : Nat) (data : Bytes) :
    read levels offset code data = (Atom.read kind offset data).map fun r => (.atom r.1, r.2) := by
  unfold read
  rw [if_neg hne, h]
  dsimp only
  cases Atom.read kind offset data <;> rfl

/-- An atom is read alike however deep the reader may go. -/
theorem read_toByte {kind : AtomCode} (h : kind ∈ AtomCode.all) (levels offset : Nat)
    (data : Bytes) :
    read levels offset kind.toByte data
      = (Atom.read kind offset data).map fun r => (.atom r.1, r.2) :=
  read_of_ofByte? (AtomCode.toByte_ne_nestedCode h) (AtomCode.ofByte?_toByte h) levels offset data

/-! ## All that is read was spelled -/

/-- What is read off the front of the data is a spelling of the element, with
no more tuples one inside the other than the levels. -/
def ReadFrom (levels : Nat) (code : UInt8) (data : Bytes) (e : Element) (used : Nat) : Prop :=
  ∃ s rest, data = s ++ rest ∧ used = s.length ∧ Spelling e (code :: s) ∧ e.depth ≤ levels

/-- An atom is read from its spelling. -/
theorem readFrom_of_ne {levels offset used : Nat} {code : UInt8} {data : Bytes} {e : Element}
    (hne : code ≠ nestedCode) (h : read levels offset code data = .ok (e, used)) :
    ReadFrom levels code data e used := by
  cases hkind : AtomCode.ofByte? code with
  | none =>
    rw [read_of_ofByte?_eq_none hne hkind] at h
    cases h
  | some kind =>
    rw [read_of_ofByte? hne hkind] at h
    cases hread : Atom.read kind offset data with
    | error e => rw [hread] at h; cases h
    | ok r =>
      rw [hread] at h
      cases h
      obtain ⟨hmem, rfl⟩ := AtomCode.toByte_of_ofByte? hkind
      obtain ⟨payload, rest, hdata, hused, hspelling⟩ := Atom.spelling_of_read hmem hread
      exact ⟨payload, rest, hdata, hused, .atom hspelling, Nat.zero_le _⟩

/-- What is read of a nested tuple, up to its terminator, is a spelling of its
row, if its members are read so. -/
theorem rowSpelling_of_readChildren {reader : Reader Element} {levels : Nat}
    (hreader : ∀ {offset code data e used},
      reader offset code data = .ok (e, used) → ReadFrom levels code data e used)
    {start size used : Nat} {children elements : List Element} {body : Bytes}
    (h : readChildren reader start size children body = .ok (elements, used)) :
    ∃ row s rest, elements = children.reverse ++ row ∧ body = s ++ terminator :: rest
      ∧ used = size + s.length + 1 ∧ RowSpelling row s ∧ depthList row ≤ levels := by
  fun_induction readChildren reader start size children body with
  | case1 => cases h
  | case2 size children rest hmark ih =>
    obtain ⟨tail, rfl⟩ := List.head?_eq_some_iff.1 hmark
    obtain ⟨row, s, behind, rfl, rfl, rfl, hrow, hdepth⟩ := ih h
    refine ⟨null :: row, terminator :: escapeMark :: s, behind, ?_, ?_, ?_, .null hrow, ?_⟩
    · rw [List.reverse_cons, List.append_assoc]
      rfl
    · rfl
    · rw [List.length_cons, List.length_cons]
      omega
    · rw [depthList]
      exact Nat.max_le.2 ⟨Nat.zero_le _, hdepth⟩
  | case3 size children rest hmark =>
    cases h
    exact ⟨[], [], rest, (List.append_nil _).symm, rfl, rfl, .nil, Nat.zero_le _⟩
  | case4 => cases h
  | case5 size children b rest hb child used' hchild ih =>
    obtain ⟨row, s, behind, rfl, htail, rfl, hrow, hdepth⟩ := ih h
    obtain ⟨front, back, rfl, rfl, hspelling, hlevels⟩ := hreader hchild
    rw [List.drop_left] at htail
    -- a member that is not marked is not the element without value
    have hnull := hspelling.ne_null_of_ne hb
    refine ⟨child :: row, b :: front ++ s, behind, ?_, ?_, ?_, .cons hnull hspelling hrow, ?_⟩
    · rw [List.reverse_cons, List.append_assoc]
      rfl
    · rw [htail]
      simp
    · rw [List.length_append, List.length_cons]
      omega
    · rw [depthList]
      exact Nat.max_le.2 ⟨hlevels, hdepth⟩

/-- **All that is read was spelled**: the reader of an element takes nothing
but a spelling of it, with no more tuples one inside the other than it may
follow. -/
theorem spelling_of_read {levels offset used : Nat} {code : UInt8} {data : Bytes} {e : Element}
    (h : read levels offset code data = .ok (e, used)) : ReadFrom levels code data e used := by
  induction levels generalizing offset code data e used with
  | zero =>
    by_cases hcode : code = nestedCode
    · rw [hcode, read_nested_zero] at h
      cases h
    · exact readFrom_of_ne hcode h
  | succ levels ih =>
    by_cases hcode : code = nestedCode
    · subst hcode
      rw [read_nested_succ] at h
      cases hrow : readChildren (read levels) offset 0 [] data with
      | error e => rw [hrow] at h; cases h
      | ok r =>
        rw [hrow] at h
        cases h
        obtain ⟨row, s, rest, hr, rfl, hused, hspelling, hdepth⟩ :=
          rowSpelling_of_readChildren (fun hread => ih hread) hrow
        refine ⟨s ++ [terminator], rest, by simp, ?_, ?_, ?_⟩
        · rw [hused]
          simp
        · rw [hr]
          exact .tuple hspelling
        · rw [hr]
          exact Nat.succ_le_succ hdepth
    · exact readFrom_of_ne hcode h

/-! ## Spellings are read -/

section Row

variable {reader : Reader Element} {start size : Nat} {children : List Element}

theorem readChildren_nil :
    readChildren reader start size children [] = .error (.outOfBounds start (start + 1 + size)) := by
  rw [readChildren]

theorem readChildren_marked (rest : Bytes) :
    readChildren reader start size children (terminator :: escapeMark :: rest)
      = readChildren reader start (size + 2) (null :: children) rest := by
  rw [readChildren, if_pos rfl, if_pos List.head?_cons]
  rfl

theorem readChildren_ended {rest : Bytes} (h : rest.head? ≠ some escapeMark) :
    readChildren reader start size children (terminator :: rest)
      = .ok (children.reverse, size + 1) := by
  rw [readChildren, if_pos rfl, if_neg h]

theorem readChildren_member {b : UInt8} {rest : Bytes} {child : Element} {used : Nat}
    (hb : b ≠ terminator) (h : reader (start + 1 + size) b rest = .ok (child, used)) :
    readChildren reader start size children (b :: rest)
      = readChildren reader start (size + 1 + used) (child :: children) (rest.drop used) := by
  rw [readChildren, if_neg hb, h]

theorem readChildren_member_error {b : UInt8} {rest : Bytes} {e : KeyError}
    (hb : b ≠ terminator) (h : reader (start + 1 + size) b rest = .error e) :
    readChildren reader start size children (b :: rest) = .error e := by
  rw [readChildren, if_neg hb, h]

end Row

mutual

/-- **A spelling is read** by a reader that may go as deep as the element
does, whatever stands behind it that does not begin with the mark. -/
theorem Spelling.read_eq_ok : {e : Element} → {s : Bytes} → Spelling e s → {levels : Nat} →
    e.depth ≤ levels → ∃ code body, s = code :: body ∧ ∀ offset rest,
      rest.head? ≠ some escapeMark →
        read levels offset code (body ++ rest) = .ok (e, body.length)
  | _, _, .atom h, levels, _ => by
    obtain ⟨kind, hkind, payload, rfl, hread⟩ := h.read_eq_ok
    refine ⟨kind.toByte, payload, rfl, fun offset rest hrest => ?_⟩
    rw [read_toByte hkind, hread offset rest hrest]
    rfl
  | _, _, .tuple h, 0, hdepth => by
    rw [depth] at hdepth
    cases hdepth
  | _, _, .tuple (s := s) h, levels + 1, hdepth => by
    rw [depth] at hdepth
    have hrow := RowSpelling.readChildren_append h (Nat.le_of_succ_le_succ hdepth)
    refine ⟨nestedCode, s ++ [terminator], rfl, fun offset rest hrest => ?_⟩
    rw [read_nested_succ, List.append_assoc, List.singleton_append,
      hrow offset 0 [] (head?_terminator_ne rest), readChildren_ended hrest, List.append_nil,
      List.reverse_reverse, List.length_append, Nat.zero_add]
    rfl

/-- **The spelling of a row is read** in front of anything that does not begin
with the mark, and reading goes on where it ends. -/
theorem RowSpelling.readChildren_append : {row : List Element} → {s : Bytes} →
    RowSpelling row s → {levels : Nat} → depthList row ≤ levels →
      ∀ (start size : Nat) (children : List Element) {rest : Bytes},
        rest.head? ≠ some escapeMark →
          readChildren (read levels) start size children (s ++ rest)
            = readChildren (read levels) start (size + s.length) (row.reverse ++ children) rest
  | _, _, .nil, levels, _, start, size, children, rest, _ => rfl
  | _, _, .null (s := s) tail, levels, hdepth, start, size, children, rest, hrest => by
    have htail := RowSpelling.readChildren_append tail (Nat.le_trans (Nat.le_max_right _ _) hdepth)
      start (size + 2) (null :: children) hrest
    have hlength : size + 2 + s.length = size + (nestedNull ++ s).length := by
      show _ = size + (s.length + 2)
      omega
    show readChildren _ start size children (terminator :: escapeMark :: (s ++ rest)) = _
    rw [readChildren_marked, htail, hlength, List.reverse_cons, List.append_assoc]
    rfl
  | _, _, .cons (e := e) (t := t) hne head tail, levels, hdepth, start, size, children, rest,
      hrest => by
    have htail := RowSpelling.readChildren_append tail (Nat.le_trans (Nat.le_max_right _ _) hdepth)
      start
    obtain ⟨code, body, hcons, hread⟩ :=
      Spelling.read_eq_ok head (Nat.le_trans (Nat.le_max_left _ _) hdepth)
    subst hcons
    have hcode := head.code_ne_terminator hne
    have hlength : size + 1 + body.length + t.length = size + (code :: body ++ t).length := by
      rw [List.length_append, List.length_cons]
      omega
    -- what follows the member is the rest of the row or what follows that
    rw [List.append_assoc, List.cons_append, readChildren_member hcode
      (hread (start + 1 + size) _ (tail.head?_append_ne hrest)), List.drop_left,
      htail (size + 1 + body.length) (e :: children) hrest, hlength, List.reverse_cons,
      List.append_assoc]
    rfl

end

end Element

namespace Tuple

/-- Data that is read to its end was spelled. -/
theorem spelling_of_unpackFrom {offset : Nat} {elements t : List Element} {data : Bytes}
    (h : unpackFrom offset elements data = .ok t) :
    ∃ row, t = elements.reverse ++ row ∧ Spelling row data ∧ depth row ≤ maxDepth := by
  fun_induction unpackFrom offset elements data with
  | case1 offset elements =>
    cases h
    exact ⟨[], (List.append_nil _).symm, .nil, Nat.zero_le _⟩
  | case2 => cases h
  | case3 offset elements code rest e used hread ih =>
    obtain ⟨row, rfl, hrow, hdepth⟩ := ih h
    obtain ⟨s, behind, rfl, rfl, hspelling, hlevels⟩ := Element.spelling_of_read hread
    rw [List.drop_left] at hrow
    refine ⟨e :: row, ?_, .cons hspelling hrow, Nat.max_le.2 ⟨hlevels, hdepth⟩⟩
    rw [List.reverse_cons, List.append_assoc]
    rfl

/-- **A spelling is read in front of anything** that does not begin with the
mark, and reading goes on where it ends. -/
theorem Spelling.unpackFrom_append {row : Tuple} {s rest : Bytes} (h : Spelling row s)
    (hdepth : depth row ≤ maxDepth) (hrest : rest.head? ≠ some escapeMark) (offset : Nat)
    (elements : List Element) :
    unpackFrom offset elements (s ++ rest)
      = unpackFrom (offset + s.length) (row.reverse ++ elements) rest := by
  induction h generalizing offset elements with
  | nil => rfl
  | @cons e row s t head tail ih =>
    have htail := ih (Nat.le_trans (Nat.le_max_right _ _) hdepth)
    obtain ⟨code, body, rfl, hread⟩ :=
      head.read_eq_ok (Nat.le_trans (Nat.le_max_left _ _) hdepth)
    -- what follows the element is the rest of the row or what follows that
    have hbehind := tail.head?_append_ne hrest
    have hlength : offset + 1 + body.length + t.length
        = offset + (code :: body ++ t).length := by
      rw [List.length_append, List.length_cons]
      omega
    rw [List.append_assoc, List.cons_append, unpackFrom, hread offset _ hbehind]
    dsimp only
    rw [List.drop_left, htail, hlength, List.reverse_cons, List.append_assoc]
    rfl

/-- **A spelling is read to its end.** -/
theorem Spelling.unpackFrom_eq_ok {row : Tuple} {s : Bytes} (h : Spelling row s)
    (hdepth : depth row ≤ maxDepth) (offset : Nat) (elements : List Element) :
    unpackFrom offset elements s = .ok (elements.reverse ++ row) := by
  have hread := @Spelling.unpackFrom_append row s [] h hdepth (by simp) offset elements
  rw [List.append_nil] at hread
  rw [hread, unpackFrom, List.reverse_append, List.reverse_reverse]

/-- The mark is the code of nothing. -/
theorem unpack_mark (rest : Bytes) :
    unpack (escapeMark :: rest) = .error (.unknownCode escapeMark 0) := by
  rw [unpack, if_neg (List.cons_ne_nil _ _), unpackFrom,
    Element.read_of_ofByte?_eq_none (by decide) (by decide)]

/-- What is read as a tuple is not empty. -/
theorem unpackFrom_of_unpack {data : Bytes} {t : Tuple} (h : unpack data = .ok t) :
    data ≠ [] ∧ unpackFrom 0 [] data = .ok t := by
  unfold unpack at h
  split at h
  · cases h
  · rename_i hne
    exact ⟨hne, h⟩

/-- What is read as a tuple was spelled, and is not too deep. -/
theorem spelling_of_unpack {data : Bytes} {t : Tuple} (h : unpack data = .ok t) :
    data ≠ [] ∧ Spelling t data ∧ depth t ≤ maxDepth := by
  obtain ⟨hne, hread⟩ := unpackFrom_of_unpack h
  obtain ⟨row, rfl, hspelling, hdepth⟩ := spelling_of_unpackFrom hread
  exact ⟨hne, hspelling, hdepth⟩

/-- A spelling of a tuple that is not too deep is read as that tuple. -/
theorem Spelling.unpack_eq_ok {t : Tuple} {s : Bytes} (h : Spelling t s) (hne : s ≠ [])
    (hdepth : depth t ≤ maxDepth) : unpack s = .ok t := by
  rw [unpack, if_neg hne, h.unpackFrom_eq_ok hdepth]
  rfl

end Tuple

end OrderedKey
