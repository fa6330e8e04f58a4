import OrderedKey.Proofs.Reading
import OrderedKey.Proofs.ShortestSpelling

/-!
# Reading one element at a time

A caller who keeps its own place asks for the element there, and then for the
one at the position it was given back. Nothing but the reader keeps such a loop
going the right way: a position that is not beyond the last one would make it
run for ever, and one beyond the end of the bytes would take it out of them.

Neither happens, on any bytes and from any position. An element was read from
a spelling of it, which has a byte at least and stands in the data, so the
position behind is further on and not beyond the end
(`Element.spelling_of_unpackAt`). It is at least as much further on as the
element has bytes when it is written, since no spelling is shorter. A walk
therefore is over after as many calls as there are bytes, and it is over where
the bytes are or where one of them is at fault.

What such a walk meets is what reading the whole meets. That is not by
definition, since the two loops are not the same: the one that reads the whole
drops what it has read and never looks at positions
(`Tuple.unpackFrom_drop`).
-/

namespace OrderedKey

namespace Element

/-! ## One call -/

/-- **An element that is read at a position was spelled there.** -/
theorem spelling_of_unpackAt {data : Bytes} {position next : Nat} {e : Element}
    (h : unpackAt data position = .ok (e, next)) :
    ∃ s rest, data.drop position = s ++ rest ∧ next = position + s.length ∧ Spelling e s := by
  obtain ⟨code, body, used, hdrop, hread, rfl⟩ := unpackAt_eq_ok h
  obtain ⟨s, rest, rfl, rfl, hspelling, -⟩ := spelling_of_read hread
  refine ⟨code :: s, rest, hdrop, ?_, hspelling⟩
  rw [List.length_cons]
  omega

/-- **A call makes progress**, stays in the data, and moves on by as many bytes
at least as the element is written in. -/
theorem progress_of_unpackAt {data : Bytes} {position next : Nat} {e : Element}
    (h : unpackAt data position = .ok (e, next)) :
    position < next ∧ next ≤ data.length ∧ e.pack.length ≤ next - position := by
  obtain ⟨s, rest, hdrop, rfl, hspelling⟩ := spelling_of_unpackAt h
  obtain ⟨code, body, rfl, -, -⟩ := hspelling.exists_eq_cons
  have hlength := congrArg List.length hdrop
  have hshortest := hspelling.shortest.length_le
  simp only [List.length_drop, List.length_append, List.length_cons] at hlength hshortest ⊢
  omega

/-! ## Call after call -/

namespace Walk

/-- How many elements were asked for. -/
def calls (w : Walk) : Nat := w.steps.length + if w.fault.isSome then 1 else 0

/-- What the walk has read as a whole: its elements, or the error that ended
it. -/
def reading (w : Walk) : Except KeyError Tuple :=
  match w.fault with
  | none => .ok (w.steps.map Prod.fst)
  | some e => .error e

end Walk

/-- **What comes of asking again and again**: the elements from `position` on,
each with the position behind it, at which the next is asked for, up to the end
of the data or to an error. -/
inductive Walks (data : Bytes) : Nat → Walk → Prop where
  /-- There is no element at the position. -/
  | fault {position : Nat} {e : KeyError} (call : unpackAt data position = .error e) :
      Walks data position ⟨[], some e⟩
  /-- There is an element, and the data ends behind it. -/
  | last {position : Nat} {e : Element} (call : unpackAt data position = .ok (e, data.length)) :
      Walks data position ⟨[(e, data.length)], none⟩
  /-- There is an element, and more behind it. -/
  | step {position next : Nat} {e : Element} {w : Walk}
      (call : unpackAt data position = .ok (e, next)) (more : next < data.length)
      (tail : Walks data next w) : Walks data position ⟨(e, next) :: w.steps, w.fault⟩

/-- **A walk ends at the end of the data**, or with an error, and has no step
that is not a call. -/
theorem walks_walk (data : Bytes) (position : Nat) : Walks data position (walk data position) := by
  fun_induction walk data position with
  | case1 position e call => exact .fault call
  | case2 position e next call more tail ih => exact .step call more ih
  | case3 position e next call hend =>
    have hnext := progress_of_unpackAt call
    obtain rfl : next = data.length := by omega
    exact .last call

namespace Walks

variable {data : Bytes} {position : Nat} {w : Walk}

/-- There are no more calls than bytes. -/
theorem calls_le (h : Walks data position w) (hposition : position < data.length) :
    w.calls ≤ data.length - position := by
  induction h with
  | fault => exact Nat.sub_pos_of_lt hposition
  | last call => exact Nat.sub_pos_of_lt hposition
  | @step position next e w call more tail ih =>
    have hnext := progress_of_unpackAt call
    have hcalls : Walk.calls ⟨(e, next) :: w.steps, w.fault⟩ = w.calls + 1 :=
      Nat.add_right_comm _ _ _
    have htail := ih more
    omega

end Walks

end Element

namespace Tuple

/-- Where there is data left, reading on is a call and reading on behind it. -/
theorem unpackFrom_drop {data : Bytes} {position : Nat} (h : position < data.length)
    (elements : List Element) :
    unpackFrom position elements (data.drop position)
      = match Element.unpackAt data position with
        | .error e => .error e
        | .ok (e, next) => unpackFrom next (e :: elements) (data.drop next) := by
  have hne : data ≠ [] := List.ne_nil_of_length_pos (Nat.lt_of_le_of_lt (Nat.zero_le _) h)
  rw [Element.unpackAt, if_neg hne]
  cases hdrop : data.drop position with
  | nil => exact absurd (List.drop_eq_nil_iff.1 hdrop) (Nat.not_le.2 h)
  | cons code rest =>
    rw [unpackFrom]
    dsimp only
    cases Element.read maxDepth position code rest with
    | error e => rfl
    | ok r =>
      have hrest : rest.drop r.2 = data.drop (position + 1 + r.2) := by
        rw [Nat.add_assoc, ← List.drop_drop, hdrop, Nat.add_comm 1, List.drop_succ_cons]
      dsimp only
      rw [hrest]

/-- **A walk reads what reading on reads**, behind the elements that have been
read. -/
theorem unpackFrom_of_walks {data : Bytes} {position : Nat} {w : Element.Walk}
    (h : Element.Walks data position w) (hposition : position < data.length)
    (elements : List Element) :
    unpackFrom position elements (data.drop position)
      = w.reading.map (elements.reverse ++ ·) := by
  induction h generalizing elements with
  | fault call =>
    rw [unpackFrom_drop hposition, call]
    rfl
  | last call =>
    rw [unpackFrom_drop hposition, call]
    dsimp only
    rw [List.drop_length, unpackFrom, List.reverse_cons]
    rfl
  | @step position next e w call more tail ih =>
    rw [unpackFrom_drop hposition, call]
    dsimp only
    rw [ih more, List.reverse_cons]
    unfold Element.Walk.reading
    cases w.fault with
    | some e => rfl
    | none => simp [Except.map]

/-- A walk over the whole data reads what reading the whole reads. -/
theorem unpack_eq_reading (data : Bytes) : unpack data = (Element.walk data 0).reading := by
  have hwalks := Element.walks_walk data 0
  rw [unpack]
  split
  · rename_i hempty
    subst hempty
    generalize Element.walk [] 0 = w at hwalks
    cases hwalks with
    | fault call => cases call; rfl
    | last call => cases call
    | step call => cases call
  · rename_i hne
    have hread := unpackFrom_of_walks hwalks (List.length_pos_iff.2 hne) []
    rw [List.drop_zero] at hread
    rw [hread]
    cases (Element.walk data 0).reading <;> rfl

end Tuple

namespace Element

/-- **Reading one element at a time always comes to an end, and to the right
one.** A call that gives an element moves on, not beyond the data, and by as many
bytes at least as the element is written in. So a walk from anywhere in the data
ends after as many calls at most as there are bytes, where the data ends or with
an error; and from the front it gives the elements that reading the whole
gives, or ends with the error of that. -/
theorem walk_progress_and_reading :
    (∀ (data : Bytes) (position next : Nat) (e : Element),
      unpackAt data position = .ok (e, next) →
        position < next ∧ next ≤ data.length ∧ e.pack.length ≤ next - position)
      ∧ (∀ (data : Bytes) (position : Nat), position < data.length →
        Walks data position (walk data position)
          ∧ (walk data position).calls ≤ data.length - position)
      ∧ ∀ data : Bytes, Tuple.unpack data = (walk data 0).reading :=
  ⟨fun _ _ _ _ => progress_of_unpackAt,
    fun data position h => ⟨walks_walk data position, (walks_walk data position).calls_le h⟩,
    Tuple.unpack_eq_reading⟩

/-- A nested tuple, a seven in one byte more than it needs, and a byte that is no
code. -/
theorem walk_progress_and_reading_wide :
    let data : Bytes := [0x05, 0x00, 0xFF, 0x00, 0x16, 0x00, 0x07, 0xC0]
    unpackAt data 4 = .ok (.atom (.int 7), 7)
      ∧ 4 < 7 ∧ 7 ≤ data.length ∧ (Element.atom (.int 7)).pack.length ≤ 7 - 4
      ∧ 4 < data.length ∧ Walks data 4 (walk data 4) ∧ (walk data 4).calls ≤ data.length - 4
      ∧ Tuple.unpack data = (walk data 0).reading := by
  intro data
  obtain ⟨hprogress, hwalk, hreading⟩ := walk_progress_and_reading
  have hseven : unpackAt data 4 = .ok (.atom (.int 7), 7) := rfl
  have hinside : 4 < data.length := by decide
  obtain ⟨hlt, hle, hpack⟩ := hprogress data 4 7 _ hseven
  exact ⟨hseven, hlt, hle, hpack, hinside, (hwalk data 4 hinside).1, (hwalk data 4 hinside).2,
    hreading data⟩

end Element

end OrderedKey
