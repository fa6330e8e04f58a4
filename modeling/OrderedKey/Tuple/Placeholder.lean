import OrderedKey.Tuple.Unpack

/-!
# Finding the placeholder

A store that fills in a placeholder has to be told where it is. A scan
walks over packed bytes without building anything, through nested tuples
too, and notes the offset behind the code of every placeholder it passes –
the first of the ten bytes the store writes over. It is told how many it
has to find, and stops as soon as it has them, in the middle of a nested
tuple if need be; else it goes on until the end or the first fault.

So a placeholder that was passed before a fault counts all the same.
`locate` asks for one, and sees a fault only when there was none before it;
`versionstamped`, which needs the placeholder to be the only one, asks for
two, and knows that there are several as soon as it has them, whatever
stands behind.

A key with a placeholder travels with the offset behind it, as four bytes,
least significant first. The offset counts from the start of the whole
key, which may have a base in front of the tuple.
-/

namespace OrderedKey

/-- How many bytes the offset behind a key has. -/
def offsetSize : Nat := 4

namespace Placeholder

/-- What a walk over packed bytes has met. -/
structure Survey where
  /-- The offsets of the placeholders, in order. -/
  found : List Nat
  /-- How many bytes were walked over, or the fault that ended the walk. -/
  ending : Except KeyError Nat

/-- What scans an element for some placeholders: like a `Reader`, it is given
the offset of a type code, the code and what stands behind it. -/
abbrev Scanner : Type := (limit : Nat) → Nat → UInt8 → Bytes → Survey

/-- Scans on in the nested tuple whose code is at `start`, behind `size` bytes
of it and the placeholders found so far. -/
def scanChildren (scanner : Scanner) (limit start size : Nat) (found : List Nat) :
    Bytes → Survey
  | [] =>
    if limit ≤ found.length then ⟨found, .ok size⟩
    else ⟨found, .error (.outOfBounds start (start + 1 + size))⟩
  | b :: rest =>
    if limit ≤ found.length then ⟨found, .ok size⟩
    else if b = terminator then
      if rest.head? = some escapeMark then
        scanChildren scanner limit start (size + 2) found rest.tail
      else ⟨found, .ok (size + 1)⟩
    else
      match scanner (limit - found.length) (start + 1 + size) b rest with
      | ⟨more, .error e⟩ => ⟨found ++ more, .error e⟩
      | ⟨more, .ok used⟩ =>
        scanChildren scanner limit start (size + 1 + used) (found ++ more) (rest.drop used)
termination_by body => body.length
decreasing_by
  · rw [List.length_tail, List.length_cons]; omega
  · rw [List.length_drop, List.length_cons]; omega

/-- Scans the element behind a code, following nested tuples `levels` deep. -/
def scan : (levels : Nat) → Scanner
  | levels, limit, offset, code, data =>
    if code = nestedCode then
      match levels with
      | 0 => ⟨[], .error (.nestingTooDeep offset maxDepth)⟩
      | levels + 1 => scanChildren (scan levels) limit offset 0 [] data
    else
      match AtomCode.ofByte? code with
      | none => ⟨[], .error (.unknownCode code offset)⟩
      | some kind =>
        match Atom.read kind offset data with
        | .error e => ⟨[], .error e⟩
        | .ok (value, used) => ⟨if value.isPlaceholder then [offset + 1] else [], .ok used⟩

/-- Scans on in a tuple from `offset`, behind the placeholders found so
far. -/
def scanFrom (limit offset : Nat) (found : List Nat) : Bytes → Survey
  | [] => ⟨found, .ok offset⟩
  | code :: rest =>
    if limit ≤ found.length then ⟨found, .ok offset⟩
    else
      match scan maxDepth (limit - found.length) offset code rest with
      | ⟨more, .error e⟩ => ⟨found ++ more, .error e⟩
      | ⟨more, .ok used⟩ => scanFrom limit (offset + 1 + used) (found ++ more) (rest.drop used)
termination_by data => data.length
decreasing_by rw [List.length_drop, List.length_cons]; omega

/-- The offset of the first placeholder. -/
def locate (data : Bytes) : Except KeyError Nat :=
  match scanFrom 1 0 [] data with
  | ⟨_, .error e⟩ => .error e
  | ⟨first :: _, .ok _⟩ => .ok first
  | ⟨[], .ok _⟩ => .error .missingPlaceholder

/-- The offset of the only placeholder, in a key that has `baseLength` bytes
in front of the tuple `packed`. -/
def locateOnly (baseLength : Nat) (packed : Bytes) : Except KeyError Nat :=
  match scanFrom 2 0 [] packed with
  | ⟨_, .error e⟩ => .error e
  | ⟨[], .ok _⟩ => .error .missingPlaceholder
  | ⟨[only], .ok _⟩ =>
    if baseLength + only < capacity offsetSize then .ok (baseLength + only)
    else .error (.outOfBounds (baseLength + only) (baseLength + packed.length))
  | ⟨first :: second :: _, .ok _⟩ =>
    .error (.severalPlaceholders (baseLength + first) (baseLength + second))

/-- The key of a tuple with one placeholder behind `base`, and behind the
key the offset of the placeholder. -/
def versionstamped (base : Bytes) (t : Tuple) : Except KeyError Bytes :=
  match locateOnly base.length t.pack with
  | .error e => .error e
  | .ok offset => .ok (base ++ t.pack ++ littleEndian offsetSize offset)

end Placeholder

/-- The key of a tuple with one placeholder, and behind it the offset of the
placeholder. -/
def Tuple.packVersionstamped (t : Tuple) : Except KeyError Bytes :=
  Placeholder.versionstamped [] t

end OrderedKey
