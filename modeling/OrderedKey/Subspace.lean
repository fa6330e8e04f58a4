import OrderedKey.Bytes.Range
import OrderedKey.Tuple.Placeholder

/-!
# Subspaces

A subspace is the part of the keys that begin with one byte string, its
base. Keys are written with the base in front and read with the base
taken off, so those of different subspaces stay apart and one subspace can
be scanned on its own. The base is most often the key of a tuple, but may
be any bytes.

The bare base belongs to the subspace and is read as the tuple without
elements. It is left out of `range`, which holds what has at least one
element behind the base.
-/

namespace OrderedKey

/-- The keys that begin with a base. -/
structure Subspace where
  /-- What the keys begin with. -/
  base : Bytes
deriving DecidableEq

namespace Subspace

instance : Inhabited Subspace := ⟨⟨[]⟩⟩

/-- Subspaces are ordered as their bases. -/
instance : Ord Subspace where
  compare s t := compare s.base t.base

/-- The subspace of the keys that begin with the key of a tuple. -/
def ofTuple (t : Tuple) : Subspace := ⟨t.pack⟩

/-- The subspace inside this one whose keys go on with the key of a tuple. -/
def child (s : Subspace) (t : Tuple) : Subspace := ⟨s.base ++ t.pack⟩

/-- The key of a tuple in the subspace. -/
def pack (s : Subspace) (t : Tuple) : Bytes := s.base ++ t.pack

/-- The key of a tuple with one placeholder, and behind it the offset of the
placeholder, which counts from the start of the base. -/
def packVersionstamped (s : Subspace) (t : Tuple) : Except KeyError Bytes :=
  Placeholder.versionstamped s.base t

/-- Whether a key belongs to the subspace. -/
def contains (s : Subspace) (key : Bytes) : Bool := s.base.isPrefixOf key

/-- The tuple that a key of the subspace writes behind the base. -/
def unpack (s : Subspace) (key : Bytes) : Except KeyError Tuple :=
  if s.contains key then
    match key.drop s.base.length with
    | [] => .ok []
    | rest => Tuple.unpack rest
  else .error (.outsideSubspace s.base.length)

/-- The range of the keys that have an element behind the base. -/
def range (s : Subspace) : KeyRange := ⟨s.base ++ [0x00], s.base ++ [0xFF]⟩

variable {s : Subspace}

theorem contains_iff {key : Bytes} : s.contains key = true ↔ s.base <+: key :=
  List.isPrefixOf_iff_prefix

/-- **A subspace holds the keys it writes.** -/
@[simp] theorem contains_pack (t : Tuple) : s.contains (s.pack t) = true :=
  contains_iff.2 (List.prefix_append _ _)

/-- **A key of a subspace inside is a key of the subspace**, of the tuple with
the elements of both. -/
theorem pack_child (a b : Tuple) : (s.child a).pack b = s.pack (a ++ b) := by
  rw [pack, pack, child, Tuple.pack_append, List.append_assoc]

/-- What stands behind the base is read on its own; nothing there is the
tuple without elements. -/
theorem unpack_base_append (rest : Bytes) :
    s.unpack (s.base ++ rest) = if rest = [] then .ok [] else Tuple.unpack rest := by
  have hcontains : s.contains (s.base ++ rest) = true :=
    contains_iff.2 (List.prefix_append _ _)
  rw [unpack, if_pos hcontains, List.drop_left]
  cases rest with
  | nil => rfl
  | cons b rest => rfl

end Subspace

end OrderedKey
