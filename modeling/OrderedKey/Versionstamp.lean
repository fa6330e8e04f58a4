import OrderedKey.Bytes.BigEndian

/-!
# Versionstamps

A versionstamp orders what was written by the moment of its commit: the
version the store gave the transaction, then the place of the transaction
in its batch. Neither is known before the commit, so a key is built with a
**placeholder**, a versionstamp of nothing but `0xFF` in those two fields,
and the store writes the real ones over it. A versionstamp that is not a
placeholder is complete.

The user version is the writer's own. It orders several versionstamps of
one transaction, it is known beforehand, and the store leaves it alone. A
versionstamp has one or has none; those without come first.

The two fields of the store make up ten bytes, `transactionBytes`, which
is what the store hands out and what `ofTransactionBytes` takes.
-/

namespace OrderedKey

/-- The moment of a commit, and the writer's own number behind it. -/
structure Versionstamp where
  /-- The version the store gave the transaction. -/
  commitVersion : UInt64
  /-- The place of the transaction among those of that version. -/
  batchNumber : UInt16
  /-- The writer's number, if there is one. -/
  userVersion : Option UInt16
deriving DecidableEq

namespace Versionstamp

/-- How many bytes a commit version has. -/
abbrev commitSize : Nat := 8

/-- How many bytes a batch number has. -/
abbrev batchSize : Nat := 2

/-- How many bytes a user version has. -/
abbrev userSize : Nat := 2

/-- The fields of the store as bytes. -/
abbrev TransactionBytes : Type := Block (commitSize + batchSize)

/-- The commit version of a placeholder. -/
def placeholderCommit : UInt64 := 0xFFFFFFFFFFFFFFFF

/-- The batch number of a placeholder. -/
def placeholderBatch : UInt16 := 0xFFFF

/-- What stands in a key until the store fills it in. -/
def placeholder : Versionstamp := ⟨placeholderCommit, placeholderBatch, none⟩

/-- The versionstamp of a known commit. -/
def complete (commitVersion : UInt64) (batchNumber : UInt16) : Versionstamp :=
  ⟨commitVersion, batchNumber, none⟩

instance : Inhabited Versionstamp := ⟨placeholder⟩

/-- The same moment, with that user version. -/
def withUserVersion (v : Versionstamp) (user : UInt16) : Versionstamp :=
  { v with userVersion := some user }

/-- The same moment, with no user version. -/
def withoutUserVersion (v : Versionstamp) : Versionstamp := { v with userVersion := none }

/-- Whether the store's fields are those of a placeholder. -/
def isPlaceholder (v : Versionstamp) : Bool :=
  v.commitVersion = placeholderCommit ∧ v.batchNumber = placeholderBatch

/-- Whether the store has filled in its fields. -/
def isComplete (v : Versionstamp) : Bool := !v.isPlaceholder

/-- The store's fields, commit version first. -/
def transactionBytes (v : Versionstamp) : TransactionBytes :=
  (Block.ofNat commitSize v.commitVersion.toNat).append
    (Block.ofNat batchSize v.batchNumber.toNat)

/-- The versionstamp that the store's bytes stand for. -/
def ofTransactionBytes (bytes : TransactionBytes) : Versionstamp :=
  ⟨UInt64.ofNat bytes.first.toNat, UInt16.ofNat bytes.last.toNat, none⟩

/-- All fields: the store's, and behind them the user version if there is
one. -/
def toBytes (v : Versionstamp) : Bytes :=
  v.transactionBytes.bytes ++
    match v.userVersion with
    | none => []
    | some user => bigEndian userSize user.toNat

/-- Versionstamps without user version come first; among equals in that, the
moment of the commit decides, and last the user version. -/
instance : Ord Versionstamp where
  compare v w :=
    (compare v.userVersion.isSome w.userVersion.isSome).then <|
      (compare v.commitVersion w.commitVersion).then <|
        (compare v.batchNumber w.batchNumber).then <|
          compare v.userVersion w.userVersion

/-- Commit version and batch number in hexadecimal, or a word for a
placeholder; then the user version in decimal. -/
instance : ToString Versionstamp where
  toString v :=
    let moment :=
      if v.isComplete then
        Hex.encode (bigEndian commitSize v.commitVersion.toNat) ++ ":" ++
          Hex.encode (bigEndian batchSize v.batchNumber.toNat)
      else "incomplete"
    match v.userVersion with
    | none => moment
    | some user => moment ++ "/" ++ toString user.toNat

example : toString (complete 0x0102 3) = "0000000000000102:0003" := by decide +kernel

example : toString (placeholder.withUserVersion 7) = "incomplete/7" := rfl

/-- A commit version fits its field. -/
theorem commitVersion_lt (v : Versionstamp) : v.commitVersion.toNat < capacity commitSize :=
  v.commitVersion.toNat_lt

/-- A batch number fits its field. -/
theorem batchNumber_lt (v : Versionstamp) : v.batchNumber.toNat < capacity batchSize :=
  v.batchNumber.toNat_lt

/-- A user version fits its field. -/
theorem userVersion_lt (user : UInt16) : user.toNat < capacity userSize := user.toNat_lt

/-- **The store's bytes carry its two fields** and no user version. -/
theorem ofTransactionBytes_transactionBytes (v : Versionstamp) :
    ofTransactionBytes v.transactionBytes = v.withoutUserVersion := by
  rw [ofTransactionBytes, transactionBytes, Block.first_append, Block.last_append,
    Block.toNat_ofNat v.commitVersion_lt, Block.toNat_ofNat v.batchNumber_lt, UInt64.ofNat_toNat,
    UInt16.ofNat_toNat, withoutUserVersion]

/-- Every ten bytes are the store's bytes of some versionstamp. -/
theorem transactionBytes_ofTransactionBytes (bytes : TransactionBytes) :
    (ofTransactionBytes bytes).transactionBytes = bytes := by
  have hcommit : (UInt64.ofNat bytes.first.toNat).toNat = bytes.first.toNat :=
    UInt64.toNat_ofNat_of_lt' bytes.first.toNat_lt
  have hbatch : (UInt16.ofNat bytes.last.toNat).toNat = bytes.last.toNat :=
    UInt16.toNat_ofNat_of_lt' bytes.last.toNat_lt
  rw [ofTransactionBytes, transactionBytes, hcommit, hbatch, Block.ofNat_toNat,
    Block.ofNat_toNat, Block.append_first_last]

/-- **A placeholder has nothing but `0xFF` in the store's bytes**, and no other
versionstamp has. -/
theorem isPlaceholder_iff {v : Versionstamp} :
    v.isPlaceholder = true
      ↔ v.transactionBytes.bytes = List.replicate (commitSize + batchSize) 0xFF := by
  have hbytes : placeholder.transactionBytes.bytes
      = List.replicate (commitSize + batchSize) 0xFF := by decide
  have hfields : v.isPlaceholder = true
      ↔ v.commitVersion = placeholderCommit ∧ v.batchNumber = placeholderBatch :=
    decide_eq_true_iff
  rw [hfields]
  constructor
  · rintro ⟨hcommit, hbatch⟩
    rw [transactionBytes, hcommit, hbatch]
    exact hbytes
  · intro h
    have hblock : v.transactionBytes = placeholder.transactionBytes :=
      Block.ext (h.trans hbytes.symm)
    have hfilled := ofTransactionBytes_transactionBytes v
    rw [hblock, ofTransactionBytes_transactionBytes] at hfilled
    exact ⟨(congrArg commitVersion hfilled).symm, (congrArg batchNumber hfilled).symm⟩

end Versionstamp

end OrderedKey
