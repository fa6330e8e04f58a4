import OrderedKey.Proofs.AtomOrder
import OrderedKey.Proofs.UniqueSpelling

/-!
# Versionstamps are their bytes

The store deals in ten bytes and the writer in versionstamps. Nothing is lost
between the two: the ten bytes are the two fields of the store, whatever they
are, and a versionstamp with no user version is its ten bytes. So the store can
hand out bytes for a commit, and it can look for a placeholder without knowing
what a versionstamp is, since a placeholder is ten times `0xFF` and nothing else
is (`isComplete_eq_false_iff`).

The user version stands behind the ten bytes, and whether there is one is said
in front of them, by the code. The order of versionstamps asks the same
questions in the same order, field by field, and no field can spill over into
the next, since each has its width. Comparing versionstamps and comparing their
keys is therefore one thing (`compare_eq_compare_pack`), for placeholders as for
all others, and versionstamps with one key are one.
-/

namespace OrderedKey.Versionstamp

/-- A versionstamp as an element of a key: which code it has tells whether there
is a user version, and all fields follow. -/
theorem pack_eq_cons (v : Versionstamp) :
    (Element.atom (.versionstamp v)).pack
      = (if v.userVersion.isSome then 0x33 else 0x32) :: v.toBytes := by
  show (AtomCode.versionstamp v.userVersion.isSome).toByte :: v.toBytes = _
  cases v.userVersion.isSome <;> rfl

/-- **Only a placeholder is incomplete**, and its ten bytes show it. -/
theorem isComplete_eq_false_iff {v : Versionstamp} :
    v.isComplete = false
      ↔ v.transactionBytes.bytes = List.replicate (commitSize + batchSize) 0xFF := by
  rw [← isPlaceholder_iff, isComplete, Bool.not_eq_false']

/-- **Versionstamps are ordered as their keys** where nothing follows. -/
theorem compare_eq_compare_pack (v w : Versionstamp) :
    compare v w
      = compare (Element.atom (.versionstamp v)).pack (Element.atom (.versionstamp w)).pack := by
  have hpack := compare_pack_append v w [] []
  rw [List.append_nil, List.append_nil, Std.ReflOrd.compare_self, Ordering.then_eq] at hpack
  exact hpack.symm

/-- Versionstamps with one key are one. -/
theorem pack_inj {v w : Versionstamp} :
    (Element.atom (.versionstamp v)).pack = (Element.atom (.versionstamp w)).pack ↔ v = w := by
  constructor
  · intro h
    exact Atom.versionstamp.inj (Element.atom.inj (Element.pack_injective h))
  · rintro rfl
    rfl

/-- **Versionstamps and their bytes are one to one, and in order.** A versionstamp
is read back from the store's ten bytes but for its user version, any ten bytes
are the store's bytes of what is read from them, and they are ten times `0xFF`
exactly where the versionstamp is not complete. In a key, the code says whether
there is a user version and the fields follow; no two versionstamps are written
alike, and their order is that of what is written for them. -/
theorem bytes_one_to_one_and_in_order :
    (∀ v : Versionstamp,
      ofTransactionBytes v.transactionBytes = v.withoutUserVersion
        ∧ (v.isComplete = false ↔ v.transactionBytes.bytes = List.replicate 10 0xFF)
        ∧ (Element.atom (.versionstamp v)).pack
          = (if v.userVersion.isSome then 0x33 else 0x32) :: v.toBytes)
      ∧ (∀ bytes : TransactionBytes, (ofTransactionBytes bytes).transactionBytes = bytes)
      ∧ ∀ v w : Versionstamp,
        compare v w
            = compare (Element.atom (.versionstamp v)).pack (Element.atom (.versionstamp w)).pack
          ∧ ((Element.atom (.versionstamp v)).pack = (Element.atom (.versionstamp w)).pack
            ↔ v = w) :=
  ⟨fun v => ⟨ofTransactionBytes_transactionBytes v, isComplete_eq_false_iff, pack_eq_cons v⟩,
    transactionBytes_ofTransactionBytes,
    fun v w => ⟨compare_eq_compare_pack v w, pack_inj⟩⟩

/-- A placeholder is above every commit, and below the oldest commit of a writer
who numbers what it writes. -/
example : compare (complete 7 0) placeholder = .lt
    ∧ compare placeholder ((complete 0 0).withUserVersion 0) = .lt := by decide

end OrderedKey.Versionstamp
