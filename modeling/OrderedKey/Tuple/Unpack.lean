import OrderedKey.Element.Pack
import OrderedKey.Element.Read

/-!
# Reading tuples

`Tuple.unpack` reads a whole byte string as one tuple. `Element.unpackAt`
is the same one element at a time, from any position, for a caller that
keeps its own place; `Element.walk` is that caller's loop, which goes on
from one element to the next until the end of the bytes or an error.

A position may be anywhere, also inside an element: what stands there is
read as if an element began there, on the top level.
-/

namespace OrderedKey

namespace Tuple

/-- Reads on from `offset`, behind the elements that have been read, the
latest first. -/
def unpackFrom (offset : Nat) (elements : List Element) : Bytes → Except KeyError Tuple
  | [] => .ok elements.reverse
  | code :: rest =>
    match Element.read maxDepth offset code rest with
    | .error e => .error e
    | .ok (e, used) => unpackFrom (offset + 1 + used) (e :: elements) (rest.drop used)
termination_by data => data.length
decreasing_by rw [List.length_drop, List.length_cons]; omega

/-- The tuple that the bytes write, or the first error in them. -/
def unpack (data : Bytes) : Except KeyError Tuple :=
  if data = [] then .error .emptyInput else unpackFrom 0 [] data

end Tuple

namespace Element

/-- The element whose code is at `position`, and the position behind it. -/
def unpackAt (data : Bytes) (position : Nat) : Except KeyError (Element × Nat) :=
  if data = [] then .error .emptyInput
  else
    match data.drop position with
    | [] => .error (.outOfBounds position data.length)
    | code :: rest =>
      match read maxDepth position code rest with
      | .error e => .error e
      | .ok (e, used) => .ok (e, position + 1 + used)

/-- What is read at a position is read as what stands there. -/
theorem unpackAt_append (front : Bytes) (code : UInt8) (rest : Bytes) :
    unpackAt (front ++ code :: rest) front.length
      = (read maxDepth front.length code rest).map fun r => (r.1, front.length + 1 + r.2) := by
  have hne : front ++ code :: rest ≠ [] :=
    List.append_ne_nil_of_right_ne_nil _ (List.cons_ne_nil _ _)
  rw [unpackAt, if_neg hne, List.drop_left]
  dsimp only
  cases read maxDepth front.length code rest <;> rfl

/-- An element that is read at a position is read off what stands there. -/
theorem unpackAt_eq_ok {data : Bytes} {position next : Nat} {e : Element}
    (h : unpackAt data position = .ok (e, next)) :
    ∃ code rest used, data.drop position = code :: rest
      ∧ read maxDepth position code rest = .ok (e, used) ∧ next = position + 1 + used := by
  unfold unpackAt at h
  split at h
  · cases h
  · split at h
    · cases h
    · rename_i code rest hdrop
      split at h
      · cases h
      · rename_i e used hread
        cases h
        exact ⟨code, rest, used, hdrop, hread, rfl⟩

/-- An element takes at least its code. -/
theorem lt_of_unpackAt {data : Bytes} {position next : Nat} {e : Element}
    (h : unpackAt data position = .ok (e, next)) : position < next := by
  obtain ⟨code, rest, used, -, -, rfl⟩ := unpackAt_eq_ok h
  omega

/-- What a walk over the elements of a byte string meets. -/
structure Walk where
  /-- The elements in order, each with the position behind it. -/
  steps : List (Element × Nat)
  /-- The error that ended the walk, if it did not reach the end. -/
  fault : Option KeyError

/-- Reads one element after the other from `position` on. At least one is
tried, also from beyond the end. -/
def walk (data : Bytes) (position : Nat) : Walk :=
  match _h : unpackAt data position with
  | .error e => ⟨[], some e⟩
  | .ok (e, next) =>
    if next < data.length then
      let tail := walk data next
      ⟨(e, next) :: tail.steps, tail.fault⟩
    else ⟨[(e, next)], none⟩
termination_by data.length - position
decreasing_by
  have hnext := lt_of_unpackAt _h
  omega

end Element

end OrderedKey
