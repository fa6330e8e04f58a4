import OrderedKey.Bytes.Range
import OrderedKey.Element

/-!
# Writing elements and tuples

A tuple is written as its elements one behind the other, with nothing in
between: every element knows its own end. A nested tuple has to mark its
end, and the terminator does that too; but the terminator is also the code
of the atom without value, so inside a nested tuple that atom is written
`0x00 0xFF`, as a `0x00` is inside a byte string. On the top level it
stays the single byte `0x00`, and a tuple reads to the end of its bytes.

Since a nested tuple differs from a top-level one in that atom alone, the
two are ordered alike, and a tuple sorts before every tuple that goes on
where it stops.

## The order

Values are ordered as their keys are: byte by byte. Writing is what gives
the order its shape, and there is no second rule to keep in step with it.

## The keys behind a tuple

The tuples that begin with the elements of `t` have keys that begin with
the key of `t`, and every one of them goes on with a type code, which is
below `0xFF`. So they are caught between the key of `t` and that key with
`0xFF` behind it (`Tuple.range`). `Tuple.leastAbove?` is the wider bound,
over *all* byte strings that begin with the key.
-/

namespace OrderedKey

namespace Element

/-- How the element without value is written inside a nested tuple. -/
def nestedNull : Bytes := [terminator, escapeMark]

mutual

/-- An element as bytes, on the top level. -/
def pack : Element → Bytes
  | .atom value => value.pack
  | .tuple elements => nestedCode :: (packNested elements ++ [terminator])

/-- A row of elements as bytes, inside a nested tuple. -/
def packNested : List Element → Bytes
  | [] => []
  | e :: rest => (if e.isNull then nestedNull else pack e) ++ packNested rest

end

/-- Only one element is the one without value. -/
theorem isNull_iff {e : Element} : e.isNull = true ↔ e = null := by
  constructor
  · intro h
    unfold isNull at h
    split at h
    · rfl
    · cases h
  · rintro rfl
    rfl

theorem packNested_cons_null (rest : List Element) :
    packNested (null :: rest) = terminator :: escapeMark :: packNested rest := rfl

theorem packNested_cons_of_ne {e : Element} (h : e ≠ null) (rest : List Element) :
    packNested (e :: rest) = e.pack ++ packNested rest := by
  rw [packNested, if_neg (fun hnull => h (isNull_iff.1 hnull))]

/-- Rows are written side by side as one. -/
theorem packNested_append (s t : List Element) :
    packNested (s ++ t) = packNested s ++ packNested t := by
  induction s with
  | nil => rfl
  | cons e s ih => rw [List.cons_append, packNested, packNested, ih, List.append_assoc]

/-- **No element begins with the mark**, and only the one without value
begins with the terminator. -/
theorem exists_pack_eq_cons (e : Element) :
    ∃ code body, e.pack = code :: body ∧ code ≠ escapeMark ∧ (code = terminator → e = null) := by
  cases e with
  | atom a =>
    have hmem := a.code_mem_all
    refine ⟨a.code.toByte, a.payload, rfl, AtomCode.toByte_ne_escapeMark hmem, fun h => ?_⟩
    rw [a.eq_null_of_code_eq (AtomCode.eq_null_of_toByte_eq hmem h)]
    rfl
  | tuple elements =>
    exact ⟨nestedCode, packNested elements ++ [terminator], rfl, by decide, fun h => by cases h⟩

theorem head?_pack_append_ne (e : Element) (rest : Bytes) :
    (e.pack ++ rest).head? ≠ some escapeMark := by
  obtain ⟨code, body, hpack, hcode, -⟩ := e.exists_pack_eq_cons
  rw [hpack]
  simpa using hcode

/-- What is left of a nested tuple never begins with the mark. -/
theorem head?_packNested_append_ne (elements : List Element) (rest : Bytes) :
    (packNested elements ++ terminator :: rest).head? ≠ some escapeMark := by
  cases elements with
  | nil => exact head?_terminator_ne rest
  | cons e elements =>
    by_cases h : e = null
    · rw [h, packNested_cons_null]
      exact head?_terminator_ne _
    · rw [packNested_cons_of_ne h, List.append_assoc]
      exact head?_pack_append_ne e _

/-- Elements are ordered as their written forms. -/
instance : Ord Element where
  compare a b := compare a.pack b.pack

end Element

namespace Tuple

/-- A tuple as bytes. -/
def pack (t : Tuple) : Bytes := t.flatMap Element.pack

@[simp] theorem pack_nil : pack [] = [] := rfl

theorem pack_cons (e : Element) (t : Tuple) : pack (e :: t) = e.pack ++ pack t := rfl

/-- No tuple begins with the mark. -/
theorem head?_pack_ne (t : Tuple) : (pack t).head? ≠ some escapeMark := by
  cases t with
  | nil => simp
  | cons e t => exact e.head?_pack_append_ne (pack t)

/-- A missing value is one byte on the top level and two inside a tuple. -/
example : pack [.null, .tuple [.null, .atom (.int (-1))]]
    = [0x00, 0x05, 0x00, 0xFF, 0x13, 0xFE, 0x00] := rfl

/-- **Tuples are written side by side as one.** -/
@[simp] theorem pack_append (s t : Tuple) : pack (s ++ t) = pack s ++ pack t :=
  List.flatMap_append

/-- The order of tuples is that of their keys. -/
def compare (s t : Tuple) : Ordering := Ord.compare s.pack t.pack

/-- The range of the tuples that begin with the elements of `t`, `t` itself
included. -/
def range (t : Tuple) : KeyRange := ⟨t.pack, t.pack ++ [0xFF]⟩

/-- The least byte string above every one that begins with the key of `t`. -/
def leastAbove? (t : Tuple) : Option Bytes := Bytes.leastAbove? t.pack

end Tuple

end OrderedKey
