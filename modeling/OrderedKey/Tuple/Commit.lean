import OrderedKey.Element.Pack

/-!
# What a commit does to a key

When a transaction commits, the store takes the key, goes to the offset it
was given and writes the ten bytes of the commit over what stands there.
It knows nothing of tuples; `overwrite` is all it does.

Seen from the tuple, its first placeholder is filled in: the versionstamp
gets the fields of the commit and keeps the user version it had. That is
`Tuple.commit`, and a key does right by its writer when the bytes the store
leaves behind are the key of the tuple so filled in.
-/

namespace OrderedKey

/-- The bytes with those of a commit written over them from `offset` on. -/
def overwrite (data : Bytes) (offset : Nat) (stamp : Versionstamp.TransactionBytes) : Bytes :=
  data.take offset ++ stamp.bytes ++ data.drop (offset + stamp.bytes.length)

section Overwrite

variable {offset : Nat} (stamp : Versionstamp.TransactionBytes)

/-- What stands in front is left alone. -/
theorem overwrite_append_right (front data : Bytes) :
    overwrite (front ++ data) (front.length + offset) stamp
      = front ++ overwrite data offset stamp := by
  rw [overwrite, overwrite, List.take_length_add_append, Nat.add_assoc, List.drop_length_add_append,
    List.append_assoc, List.append_assoc, List.append_assoc]

/-- What stands behind is left alone. -/
theorem overwrite_append_left {data : Bytes}
    (h : offset + stamp.bytes.length ≤ data.length) (rest : Bytes) :
    overwrite (data ++ rest) offset stamp = overwrite data offset stamp ++ rest := by
  have htake : offset ≤ data.length := Nat.le_trans (Nat.le_add_right _ _) h
  rw [overwrite, overwrite, List.take_append_of_le_length htake, List.drop_append_of_le_length h,
    List.append_assoc, List.append_assoc, List.append_assoc]

/-- Where the fields of the store stand, those of the commit come to stand. -/
theorem overwrite_fields (front : Bytes) (fields stamp : Versionstamp.TransactionBytes)
    (rest : Bytes) :
    overwrite (front ++ (fields.bytes ++ rest)) front.length stamp
      = front ++ (stamp.bytes ++ rest) := by
  have hsize : stamp.bytes.length = fields.bytes.length :=
    stamp.length_bytes.trans fields.length_bytes.symm
  rw [overwrite, List.take_left, List.drop_length_add_append, hsize, List.drop_left,
    List.append_assoc]

/-- The bytes stay as many. -/
theorem length_overwrite {data : Bytes} (h : offset + stamp.bytes.length ≤ data.length) :
    (overwrite data offset stamp).length = data.length := by
  rw [overwrite, List.length_append, List.length_append, List.length_take, List.length_drop]
  omega

end Overwrite

/-- The versionstamp with the fields of a commit and its own user version. -/
def Versionstamp.commit (v : Versionstamp) (stamp : TransactionBytes) : Versionstamp :=
  { ofTransactionBytes stamp with userVersion := v.userVersion }

/-- The fields of the store are those of the commit. -/
theorem Versionstamp.transactionBytes_commit (v : Versionstamp) (stamp : TransactionBytes) :
    (v.commit stamp).transactionBytes = stamp :=
  transactionBytes_ofTransactionBytes stamp

/-- A versionstamp has the room for it. -/
theorem Atom.le_length_pack_versionstamp (v : Versionstamp)
    (stamp : Versionstamp.TransactionBytes) :
    1 + stamp.bytes.length ≤ (Atom.versionstamp v).pack.length := by
  have hsize : stamp.bytes.length = v.transactionBytes.bytes.length :=
    stamp.length_bytes.trans v.transactionBytes.length_bytes.symm
  show _ ≤ (_ :: (v.transactionBytes.bytes ++ _)).length
  rw [List.length_cons, List.length_append, hsize]
  omega

/-- **The store does to the bytes of a versionstamp what a commit does to the
versionstamp.** -/
theorem Atom.pack_versionstamp_commit (v : Versionstamp) (stamp : Versionstamp.TransactionBytes) :
    (Atom.versionstamp (v.commit stamp)).pack = overwrite (Atom.versionstamp v).pack 1 stamp := by
  -- the ten bytes stand right behind the code, which a commit leaves alone
  have hfields := overwrite_fields [(AtomCode.versionstamp v.userVersion.isSome).toByte]
    v.transactionBytes stamp
  show [(AtomCode.versionstamp v.userVersion.isSome).toByte]
    ++ ((v.commit stamp).transactionBytes.bytes ++ _) = _
  rw [v.transactionBytes_commit]
  exact (hfields _).symm

namespace Element

mutual

/-- The element with its first placeholder filled in, from left to right and
from the outside in; nothing when it has none. -/
def commit? (stamp : Versionstamp.TransactionBytes) : Element → Option Element
  | .atom (.versionstamp v) =>
    if v.isPlaceholder then some (.atom (.versionstamp (v.commit stamp))) else none
  | .atom _ => none
  | .tuple elements => (commitList? stamp elements).map .tuple

/-- The row of elements with its first placeholder filled in. -/
def commitList? (stamp : Versionstamp.TransactionBytes) : List Element → Option (List Element)
  | [] => none
  | e :: rest =>
    match commit? stamp e with
    | some filled => some (filled :: rest)
    | none => (commitList? stamp rest).map (e :: ·)

end

end Element

/-- The tuple with its first placeholder filled in; itself when it has
none. -/
def Tuple.commit (t : Tuple) (stamp : Versionstamp.TransactionBytes) : Tuple :=
  (Element.commitList? stamp t).getD t

namespace Element

variable {stamp : Versionstamp.TransactionBytes}

mutual

/-- Nothing is filled in exactly if there is no placeholder. -/
theorem commit?_eq_none_iff : (e : Element) →
    (commit? stamp e = none ↔ e.hasPlaceholder = false)
  | .atom a => by
    rw [hasPlaceholder]
    cases a with
    | versionstamp v =>
      rw [commit?, Atom.isPlaceholder]
      cases v.isPlaceholder with
      | true => exact iff_of_false (Option.some_ne_none _) Bool.noConfusion
      | false => exact ⟨fun _ => rfl, fun _ => rfl⟩
    | _ => exact ⟨fun _ => rfl, fun _ => rfl⟩
  | .tuple elements => by
    rw [commit?, hasPlaceholder, Option.map_eq_none_iff, commitList?_eq_none_iff elements]

/-- And so for a row of elements. -/
theorem commitList?_eq_none_iff : (row : List Element) →
    (commitList? stamp row = none ↔ hasPlaceholderList row = false)
  | [] => ⟨fun _ => rfl, fun _ => rfl⟩
  | e :: rest => by
    rw [commitList?, hasPlaceholderList, Bool.or_eq_false_iff, ← commit?_eq_none_iff e,
      ← commitList?_eq_none_iff rest]
    cases commit? stamp e with
    | some filled => exact iff_of_false (Option.some_ne_none _) fun h => Option.some_ne_none _ h.1
    | none => exact Option.map_eq_none_iff.trans (and_iff_right rfl).symm

end

/-- Two elements that take the same room. -/
structure SameShape (a b : Element) : Prop where
  /-- If one is without value, so is the other. -/
  isNull : a.isNull = b.isNull
  /-- They go as deep. -/
  depth : a.depth = b.depth
  /-- They have as many bytes. -/
  length_pack : a.pack.length = b.pack.length

mutual

/-- **A commit moves nothing**: the element it leaves takes the room of the
one it found. -/
theorem sameShape_of_commit? : {e filled : Element} → commit? stamp e = some filled →
    SameShape filled e
  | .atom (.versionstamp v), filled, h => by
    rw [commit?] at h
    split at h
    · cases h
      refine ⟨rfl, rfl, ?_⟩
      rw [pack, pack, Atom.pack_versionstamp_commit]
      exact length_overwrite stamp (Atom.le_length_pack_versionstamp v stamp)
    · cases h
  | .tuple elements, filled, h => by
    obtain ⟨row, hrow, rfl⟩ := Option.map_eq_some_iff.1 h
    have hshape := sameShape_of_commitList? hrow
    refine ⟨rfl, congrArg (· + 1) hshape.1, ?_⟩
    show (nestedCode :: (packNested row ++ [terminator])).length
      = (nestedCode :: (packNested elements ++ [terminator])).length
    rw [List.length_cons, List.length_cons, List.length_append, List.length_append, hshape.2]

/-- And so for a row of elements. -/
theorem sameShape_of_commitList? : {row filled : List Element} →
    commitList? stamp row = some filled →
      depthList filled = depthList row ∧ (packNested filled).length = (packNested row).length
  | e :: rest, filled, h => by
    rw [commitList?] at h
    split at h
    · rename_i first hfirst
      cases h
      have hshape := sameShape_of_commit? hfirst
      refine ⟨?_, ?_⟩
      · rw [depthList, depthList, hshape.depth]
      · rw [packNested, packNested, List.length_append, List.length_append, hshape.isNull]
        split
        · rfl
        · rw [hshape.length_pack]
    · obtain ⟨row, hrow, rfl⟩ := Option.map_eq_some_iff.1 h
      have hshape := sameShape_of_commitList? hrow
      refine ⟨?_, ?_⟩
      · rw [depthList, depthList, hshape.1]
      · rw [packNested, packNested, List.length_append, List.length_append, hshape.2]

end

end Element

namespace Tuple

variable (t : Tuple) (stamp : Versionstamp.TransactionBytes)

/-- **A commit keeps the depth of a tuple.** -/
theorem depth_commit : depth (commit t stamp) = depth t := by
  unfold commit
  cases hfilled : Element.commitList? stamp t with
  | none => rfl
  | some filled => exact (Element.sameShape_of_commitList? hfilled).1

/-- **A commit keeps the length of a key.** -/
theorem length_pack_commit : (pack (commit t stamp)).length = (pack t).length := by
  unfold commit
  induction t with
  | nil => rfl
  | cons e rest ih =>
    rw [Element.commitList?]
    cases hfirst : Element.commit? stamp e with
    | some filled =>
      show (filled.pack ++ pack rest).length = (e.pack ++ pack rest).length
      rw [List.length_append, List.length_append,
        (Element.sameShape_of_commit? hfirst).length_pack]
    | none =>
      dsimp only
      cases hrest : Element.commitList? stamp rest with
      | none => rfl
      | some filled =>
        rw [hrest] at ih
        show (e.pack ++ pack filled).length = (e.pack ++ pack rest).length
        rw [List.length_append, List.length_append]
        exact congrArg (e.pack.length + ·) ih

end Tuple

end OrderedKey
