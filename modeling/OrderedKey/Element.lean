import OrderedKey.Atom

/-!
# Elements and tuples

A tuple is a row of elements, and an element is an atom or a tuple again,
to any depth. That is all the structure a key has.

Equality is by structure, atom by atom. It is decided by walking the two
values side by side (`Element.beq`), never by writing them, so that "equal
values have equal keys" is a fact and no definition.
-/

namespace OrderedKey

/-- A member of a tuple: an atom, or a tuple inside. -/
inductive Element where
  /-- A value without parts. -/
  | atom (value : Atom)
  /-- A nested tuple. -/
  | tuple (elements : List Element)

/-- A row of elements. -/
abbrev Tuple : Type := List Element

namespace Element

mutual

/-- Whether two elements are the same: both atoms or both tuples, with the
same in them. -/
def beq : (a b : Element) → Bool
  | .atom a, .atom b => a.beq b
  | .tuple s, .tuple t => beqList s t
  | _, _ => false

/-- Whether two rows hold the same elements in the same places. -/
def beqList : (s t : List Element) → Bool
  | [], [] => true
  | a :: s, b :: t => beq a b && beqList s t
  | _, _ => false

end

mutual

/-- **The comparison side by side is equality.** -/
theorem beq_iff : (a b : Element) → (a.beq b = true ↔ a = b)
  | .atom a, .atom b => by rw [beq, Atom.beq_iff, atom.injEq]
  | .tuple s, .tuple t => by rw [beq, beqList_iff s t, tuple.injEq]
  | .atom _, .tuple _ => by simp [beq]
  | .tuple _, .atom _ => by simp [beq]

theorem beqList_iff : (s t : List Element) → (beqList s t = true ↔ s = t)
  | [], [] => by simp [beqList]
  | a :: s, b :: t => by
    rw [beqList, Bool.and_eq_true, beq_iff a b, beqList_iff s t, List.cons.injEq]
  | [], _ :: _ => by simp [beqList]
  | _ :: _, [] => by simp [beqList]

end

instance : BEq Element := ⟨beq⟩

instance : LawfulBEq Element where
  eq_of_beq := (beq_iff _ _).1
  rfl := (beq_iff _ _).2 rfl

instance : DecidableEq Element := fun a b => decidable_of_iff _ (beq_iff a b)

/-- The element that has no value. -/
def null : Element := .atom .null

/-- Whether the element is the one without value. -/
def isNull : Element → Bool
  | .atom .null => true
  | _ => false

/-- The byte string, if the element is one. -/
def asBytes? : Element → Option Bytes
  | .atom (.bytes value) => some value
  | _ => none

/-- The text, if the element is one. -/
def asString? : Element → Option String
  | .atom (.string text) => some text
  | _ => none

/-- The integer, if the element is one. -/
def asInt? : Element → Option Int64
  | .atom (.int value) => some value
  | _ => none

/-- The truth value, if the element is one. -/
def asBool? : Element → Option Bool
  | .atom (.bool value) => some value
  | _ => none

/-- The identifier, if the element is one. -/
def asUuid? : Element → Option Uuid
  | .atom (.uuid value) => some value
  | _ => none

/-- The versionstamp, if the element is one. -/
def asVersionstamp? : Element → Option Versionstamp
  | .atom (.versionstamp stamp) => some stamp
  | _ => none

/-- The nested tuple, if the element is one. -/
def asTuple? : Element → Option Tuple
  | .tuple elements => some elements
  | _ => none

mutual

/-- Whether a placeholder stands in the element, at any depth. -/
def hasPlaceholder : Element → Bool
  | .atom value => value.isPlaceholder
  | .tuple elements => hasPlaceholderList elements

/-- Whether a placeholder stands in a row of elements, at any depth. -/
def hasPlaceholderList : List Element → Bool
  | [] => false
  | e :: rest => hasPlaceholder e || hasPlaceholderList rest

end

mutual

/-- How many tuples stand one inside the other in the element. -/
def depth : Element → Nat
  | .atom _ => 0
  | .tuple elements => depthList elements + 1

/-- How many tuples stand one inside the other in a row of elements. -/
def depthList : List Element → Nat
  | [] => 0
  | e :: rest => max (depth e) (depthList rest)

end

end Element

namespace Tuple

/-- How many tuples stand one inside the other in the tuple, itself not
counted. -/
def depth (t : Tuple) : Nat := Element.depthList t

/-- Whether a placeholder stands in the tuple, at any depth. -/
def hasPlaceholder (t : Tuple) : Bool := t.any Element.hasPlaceholder

/-- The tuple as the one element of a tuple, so many times over. -/
def nest (t : Tuple) : (levels : Nat) → Tuple
  | 0 => t
  | levels + 1 => nest [.tuple t] levels

end Tuple

/-- The deeper of two tuples makes the depth of both in a row. -/
theorem Tuple.depth_append (s t : Tuple) : depth (s ++ t) = max (depth s) (depth t) := by
  induction s with
  | nil => exact (Nat.zero_max _).symm
  | cons e s ih =>
    show max e.depth (depth (s ++ t)) = max (max e.depth (depth s)) (depth t)
    rw [ih, Nat.max_assoc]

/-- A row inside an element is searched as a tuple is. -/
theorem Element.hasPlaceholderList_eq (elements : List Element) :
    hasPlaceholderList elements = Tuple.hasPlaceholder elements := by
  induction elements with
  | nil => rfl
  | cons e rest ih => rw [hasPlaceholderList, ih]; rfl

end OrderedKey
