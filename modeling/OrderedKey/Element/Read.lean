import OrderedKey.Atom.Read
import OrderedKey.Element

/-!
# Reading an element

A reader is given the offset of a type code, the code, and everything that
stands behind it, and yields an element with the size of what belongs to
it behind its code. Whoever calls it drops that many bytes and goes on, so
a reader never has to know where the next element is, and every step takes
at least the code: reading always comes to an end.

Nested tuples are followed `maxDepth` levels down and no further, so the
depth of what is read is bounded whatever the bytes say. A reader of one
level is built from the reader of the level below (`Element.read`), which
`readChildren` calls for each member of a nested tuple until the
terminator.

Inside a nested tuple a `0x00` is never read as an element: with a `0xFF`
behind it, it is the element without value, and otherwise the end.
-/

namespace OrderedKey

/-- How many tuples may stand one inside the other, the outermost not
counted. -/
def maxDepth : Nat := 128

/-- What reads an element: given the offset of a type code, the code and
what stands behind it, the value and how many of those bytes are its own. -/
abbrev Reader (α : Type) : Type := Nat → UInt8 → Bytes → Except KeyError (α × Nat)

namespace Element

/-- Reads on in the nested tuple whose code is at `start`, behind the `size`
bytes that have been read of it and the children they were, the latest
first. -/
def readChildren (reader : Reader Element) (start size : Nat) (children : List Element) :
    Bytes → Except KeyError (List Element × Nat)
  | [] => .error (.outOfBounds start (start + 1 + size))
  | b :: rest =>
    if b = terminator then
      if rest.head? = some escapeMark then
        readChildren reader start (size + 2) (null :: children) rest.tail
      else .ok (children.reverse, size + 1)
    else
      match reader (start + 1 + size) b rest with
      | .error e => .error e
      | .ok (child, used) =>
        readChildren reader start (size + 1 + used) (child :: children) (rest.drop used)
termination_by body => body.length
decreasing_by
  · rw [List.length_tail, List.length_cons]; omega
  · rw [List.length_drop, List.length_cons]; omega

/-- Reads the element behind a code, following nested tuples `levels` deep. -/
def read : (levels : Nat) → Reader Element
  | levels, offset, code, data =>
    if code = nestedCode then
      match levels with
      | 0 => .error (.nestingTooDeep offset maxDepth)
      | levels + 1 =>
        match readChildren (read levels) offset 0 [] data with
        | .error e => .error e
        | .ok (children, used) => .ok (.tuple children, used)
    else
      match AtomCode.ofByte? code with
      | none => .error (.unknownCode code offset)
      | some kind =>
        match Atom.read kind offset data with
        | .error e => .error e
        | .ok (value, used) => .ok (.atom value, used)

/-- A row is read alike wherever it stands, if its members are. -/
theorem readChildren_shift {reader : Reader Element} (k : Nat)
    (h : ∀ offset code data,
      reader (offset + k) code data = (reader offset code data).mapError (KeyError.shift k))
    (start size : Nat) (children : List Element) (body : Bytes) :
    readChildren reader (start + k) size children body
      = (readChildren reader start size children body).mapError (KeyError.shift k) := by
  fun_induction readChildren reader start size children body with
  | case1 size children =>
    rw [readChildren, show start + k + 1 + size = start + 1 + size + k by omega]
    rfl
  | case2 size children rest hmark ih => rw [readChildren, if_pos rfl, if_pos hmark, ih]
  | case3 size children rest hmark =>
    rw [readChildren, if_pos rfl, if_neg hmark]
    rfl
  | case4 size children b rest hb e he =>
    rw [readChildren, if_neg hb, show start + k + 1 + size = start + 1 + size + k by omega, h, he]
    rfl
  | case5 size children b rest hb child used hchild ih =>
    rw [readChildren, if_neg hb, show start + k + 1 + size = start + 1 + size + k by omega, h,
      hchild]
    exact ih

/-- **Reading an element does not depend on where it stands**, but for the
offsets in an error. -/
theorem read_shift (levels k offset : Nat) (code : UInt8) (data : Bytes) :
    read levels (offset + k) code data
      = (read levels offset code data).mapError (KeyError.shift k) := by
  induction levels generalizing offset code data with
  | zero =>
    unfold read
    split
    · rfl
    · split
      · rfl
      · rename_i kind _
        rw [Atom.read_shift]
        cases Atom.read kind offset data <;> rfl
  | succ levels ih =>
    unfold read
    split
    · dsimp only
      rw [readChildren_shift k (fun offset code data => ih offset code data)]
      cases readChildren (read levels) offset 0 [] data <;> rfl
    · split
      · rfl
      · rename_i kind _
        rw [Atom.read_shift]
        cases Atom.read kind offset data <;> rfl

end Element

end OrderedKey
