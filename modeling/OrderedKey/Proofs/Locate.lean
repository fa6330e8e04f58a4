import OrderedKey.Proofs.FoundPlaceholder
import OrderedKey.Proofs.RoundTrip
import OrderedKey.Proofs.Scan
import OrderedKey.Proofs.ShortestSpelling

/-!
# What is located can be filled in

The offset that goes with a key is what the store relies on: it writes the
ten bytes of the commit there, without looking. A wrong offset would spoil
the key and no one would notice. So there are two things to prove.

For a tuple with one placeholder, the offset behind its key is that of the
placeholder, and what the store makes of the key is the key of the tuple
with the placeholder filled in (`Tuple.overwrite_packVersionstamped`).

For any bytes at all, the locator and the reader agree
(`Placeholder.locate_unpack`). The reader has no placeholder where the
locator has none, and the reader's tuple is filled in by writing where the
locator says. Bytes that are no key are refused by both with one error,
unless the locator has come across a placeholder before it saw the fault.
-/

namespace OrderedKey

/-! ## Writing over a placeholder -/

namespace Tuple

variable {t : Tuple} {s : Bytes} {o : Nat} (stamp : Versionstamp.TransactionBytes)

/-- What a commit leaves of a key is read as the tuple that it leaves. -/
theorem Placed.unpack_overwrite (h : Placed t s o) (hdepth : depth t ≤ maxDepth) :
    unpack (overwrite s o stamp) = .ok (commit t stamp) := by
  refine (h.spelling_commit stamp).unpack_eq_ok ?_ ?_
  · intro hnil
    have hlength := length_overwrite stamp (h.stands.add_length_le stamp)
    rw [hnil] at hlength
    exact h.stands.ne_nil (List.eq_nil_of_length_eq_zero hlength.symm)
  · rw [depth_commit]
    exact hdepth

/-- **What a commit leaves of a written key is what it would write.** -/
theorem Placed.overwrite_pack (h : Placed t (pack t) o) :
    overwrite (pack t) o stamp = pack (commit t stamp) := by
  refine (h.spelling_commit stamp).shortest.eq_of_length ?_
  rw [length_overwrite stamp (h.stands.add_length_le stamp), length_pack_commit]

end Tuple

namespace Placeholder

variable {t : Tuple} {s data : Bytes} {o : Nat}

/-- What is placed is located. -/
theorem locate_of_placed (h : Tuple.Placed t s o) (hdepth : Tuple.depth t ≤ maxDepth) :
    locate s = .ok o := by
  have hfirst := first_surveyFrom h hdepth 0
  rw [Nat.zero_add] at hfirst
  exact locate_eq_ok_iff.2 hfirst

/-- What is located is in the bytes up to there. -/
theorem cut_of_locate (h : locate data = .ok o) : Cut (Tuple.Holds maxDepth) data o := by
  obtain ⟨o', ho, hcut⟩ := cut_of_surveyFrom rfl (locate_eq_ok_iff.1 h)
  rw [ho, Nat.zero_add]
  exact hcut

/-- Where a tuple is read, its first placeholder is located, if it has any. -/
theorem locate_of_unpackFrom (h : Tuple.unpackFrom 0 [] data = .ok t) :
    if Tuple.hasPlaceholder t then
      ∃ o, locate data = .ok o ∧ Tuple.Placed t data o ∧ Tuple.depth t ≤ maxDepth
    else locate data = .error .missingPlaceholder := by
  obtain ⟨row, rfl, hspelling, hdepth⟩ := Tuple.spelling_of_unpackFrom h
  split
  · rename_i hplaceholder
    obtain ⟨o, hplaced⟩ := hspelling.exists_placed hplaceholder
    exact ⟨o, locate_of_placed hplaced hdepth, hplaced, hdepth⟩
  · rename_i hnone
    have hgoes := goes_unpackFrom data
    rw [h] at hgoes
    obtain ⟨more, hsurvey, hmore⟩ := hgoes.of_ok
    rw [Bool.not_eq_true] at hnone
    rw [locate_of_found_eq_nil, hsurvey]
    rw [hsurvey]
    exact hmore.2 hnone

/-- The placeholder at `o` is read before a fault: the data begins with bytes
that are read as a tuple as soon as the nested tuples that are open are
ended, and that placeholder is the first of the tuple. -/
def ReadBefore (data : Bytes) (o : Nat) : Prop :=
  ∃ front back closers t, data = front ++ back
    ∧ o + (Versionstamp.commitSize + Versionstamp.batchSize) ≤ front.length
    ∧ Tuple.Placed t (front ++ List.replicate closers terminator) o
    ∧ Tuple.unpack (front ++ List.replicate closers terminator) = .ok t

/-- What is located is read before any fault. -/
theorem readBefore_of_locate (h : locate data = .ok o) : ReadBefore data o := by
  obtain ⟨front, back, closers, hdata, ⟨t, hplaced, hdepth⟩, hroom⟩ := cut_of_locate h
  exact ⟨front, back, closers, t, hdata, hroom, hplaced,
    hplaced.spelling.unpack_eq_ok hplaced.stands.ne_nil hdepth⟩

/-- The bytes of a placeholder are where it is located. -/
theorem stands_of_locate (h : locate data = .ok o) : Stands data o := by
  obtain ⟨front, back, closers, t, rfl, hroom, hplaced, -⟩ := readBefore_of_locate h
  exact (hplaced.stands.of_append hroom).append_right back

/-- Where no tuple is read, the error is the same, if nothing is located. -/
theorem locate_of_unpackFrom_error {e : KeyError}
    (h : Tuple.unpackFrom 0 [] data = .error e) :
    locate data = .error e ∨ ∃ o, locate data = .ok o := by
  have hgoes := goes_unpackFrom data
  rw [h] at hgoes
  obtain ⟨more, hsurvey⟩ := hgoes.of_error
  cases more with
  | nil =>
    refine Or.inl ?_
    rw [locate_of_found_eq_nil, hsurvey]
    rw [hsurvey]
  | cons first more =>
    refine Or.inr ⟨first, locate_eq_ok_iff.2 ?_⟩
    rw [hsurvey]
    rfl

/-- **The locator and the reader agree** on all bytes. The placeholder that is
located in a key is the first of its tuple, and a commit there fills it in.
Bytes that are no key have one error for both, but for a placeholder that
the locator comes across before. And wherever one is located, its bytes
are there. -/
theorem locate_unpack (data : Bytes) :
    (∀ t, Tuple.unpack data = .ok t → Tuple.hasPlaceholder t = false →
      locate data = .error .missingPlaceholder)
    ∧ (∀ t, Tuple.unpack data = .ok t → Tuple.hasPlaceholder t = true →
      ∃ o, locate data = .ok o
        ∧ ∀ stamp, Tuple.unpack (overwrite data o stamp) = .ok (Tuple.commit t stamp))
    ∧ (∀ e, data ≠ [] → Tuple.unpack data = .error e →
      locate data = .error e ∨ ∃ o, locate data = .ok o ∧ ReadBefore data o)
    ∧ locate [] = .error .missingPlaceholder
    ∧ ∀ o, locate data = .ok o → 1 ≤ o ∧ o + 10 ≤ data.length
      ∧ (data[o - 1]? = some 0x32 ∨ data[o - 1]? = some 0x33)
      ∧ (data.drop o).take 10 = List.replicate 10 0xFF := by
  refine ⟨fun t ht hnone => ?_, fun t ht hplaceholder => ?_, fun e hne he => ?_, ?_,
    fun o ho => (stands_of_locate ho).bytes⟩
  · have hlocate := locate_of_unpackFrom (Tuple.unpackFrom_of_unpack ht).2
    rw [hnone] at hlocate
    exact hlocate
  · have hlocate := locate_of_unpackFrom (Tuple.unpackFrom_of_unpack ht).2
    rw [if_pos hplaceholder] at hlocate
    obtain ⟨o, ho, hplaced, hdepth⟩ := hlocate
    exact ⟨o, ho, fun stamp => hplaced.unpack_overwrite stamp hdepth⟩
  · rw [Tuple.unpack, if_neg hne] at he
    rcases locate_of_unpackFrom_error he with hfault | ⟨o, ho⟩
    · exact Or.inl hfault
    · exact Or.inr ⟨o, ho, readBefore_of_locate ho⟩
  · have hempty : Tuple.unpackFrom 0 [] [] = .ok [] := by
      rw [Tuple.unpackFrom]
      rfl
    exact locate_of_unpackFrom hempty

/-- A key without placeholder, a key with one in a nested tuple, and bytes that
are no key. -/
theorem locate_unpack_nested :
    locate (Tuple.pack [.null]) = .error .missingPlaceholder
    ∧ (∃ o, locate (Tuple.pack [.tuple [.atom (.versionstamp .placeholder)]]) = .ok o
      ∧ ∀ stamp, Tuple.unpack
          (overwrite (Tuple.pack [.tuple [.atom (.versionstamp .placeholder)]]) o stamp)
        = .ok (Tuple.commit [.tuple [.atom (.versionstamp .placeholder)]] stamp))
    ∧ (locate [0xFE] = .error (.unknownCode 0xFE 0)
      ∨ ∃ o, locate [0xFE] = .ok o ∧ ReadBefore [0xFE] o)
    ∧ (Tuple.pack [.tuple [.atom (.versionstamp .placeholder)]])[2 - 1]? = some 0x32 := by
  have hnone : Tuple.unpack (Tuple.pack [.null]) = .ok [.null] :=
    (Tuple.spelling_pack _).unpack_eq_ok (by decide) (by decide)
  have hone : Tuple.unpack (Tuple.pack [.tuple [.atom (.versionstamp .placeholder)]])
      = .ok [.tuple [.atom (.versionstamp .placeholder)]] :=
    (Tuple.spelling_pack _).unpack_eq_ok (by decide) (by decide)
  have hfault : Tuple.unpack [0xFE] = .error (.unknownCode 0xFE 0) := by
    rw [Tuple.unpack, if_neg (by decide), Tuple.unpackFrom,
      Element.read_of_ofByte?_eq_none (by decide) (by decide)]
  have hfirst : locate (Tuple.pack [.tuple [.atom (.versionstamp .placeholder)]]) = .ok 2 :=
    locate_eq_ok_iff.2 (by rw [surveyFrom_pack]; rfl)
  refine ⟨(locate_unpack _).1 _ hnone (by decide), (locate_unpack _).2.1 _ hone (by decide),
    (locate_unpack _).2.2.1 _ (by decide) hfault, ?_⟩
  exact ((locate_unpack _).2.2.2.2 2 hfirst).2.2.1.resolve_right (by decide)

/-- What a survey finds alone in a written key is the only placeholder of the
tuple, and its first. -/
theorem placed_of_surveyFrom_pack {used : Nat}
    (h : surveyFrom 0 [] (Tuple.pack t) = ⟨[o], .ok used⟩) :
    Tuple.placeholders t = [o] ∧ Tuple.Placed t (Tuple.pack t) o ∧ Tuple.depth t ≤ maxDepth := by
  -- a survey that reaches the end has met no tuple that is too deep
  have hdepth : Tuple.depth t ≤ maxDepth := by
    have hending := ending_surveyFrom_pack t
    rw [h] at hending
    rw [← Tuple.tooDeep_eq_nil_iff, ← List.head?_eq_none_iff]
    split at hending
    · assumption
    · cases hending
  have hfound := found_surveyFrom_pack t
  have hlocate := locate_of_unpackFrom (Tuple.unpackFrom_pack hdepth)
  have hfirst : locate (Tuple.pack t) = .ok o := by
    rw [locate_eq_ok_iff, h]
    rfl
  rw [h] at hfound
  split at hlocate
  · obtain ⟨o', ho', hplaced, -⟩ := hlocate
    cases hfirst.symm.trans ho'
    exact ⟨(Tuple.placeholdersWithin_of_depth_le hdepth).symm.trans hfound.symm, hplaced, hdepth⟩
  · cases hfirst.symm.trans hlocate

end Placeholder

/-- **The offset behind a key is that of its placeholder**: the tuple has no
other, and what the store makes of the key by writing the bytes of a commit
there is the key of the tuple with the placeholder filled in. -/
theorem Tuple.overwrite_packVersionstamped {t : Tuple} {key : Bytes}
    (h : packVersionstamped t = .ok key) :
    ∃ o, key = pack t ++ littleEndian offsetSize o ∧ o < capacity offsetSize
      ∧ o + 10 ≤ (pack t).length ∧ placeholders t = [o]
      ∧ ∀ stamp, overwrite (pack t) o stamp = pack (commit t stamp)
        ∧ unpack (overwrite (pack t) o stamp) = .ok (commit t stamp) := by
  rw [packVersionstamped, Placeholder.versionstamped] at h
  split at h
  · cases h
  · rename_i offset hoffset
    cases h
    obtain ⟨o, used, hsurvey, ho, hcapacity⟩ := Placeholder.survey_of_locateOnly_eq_ok hoffset
    obtain ⟨honly, hplaced, hdepth⟩ := Placeholder.placed_of_surveyFrom_pack hsurvey
    rw [List.length_nil, Nat.zero_add] at ho
    subst ho
    exact ⟨offset, rfl, hcapacity, hplaced.stands.bytes.2.1, honly, fun stamp =>
      ⟨hplaced.overwrite_pack stamp, hplaced.unpack_overwrite stamp hdepth⟩⟩

/-- A placeholder in a nested tuple, behind an element without value. -/
theorem Tuple.overwrite_packVersionstamped_nested :
    ∃ o, [0x05, 0x00, 0xFF, 0x32, 0xFF, 0xFF, 0xFF, 0xFF, 0xFF, 0xFF, 0xFF, 0xFF, 0xFF, 0xFF, 0x00,
          0x04, 0x00, 0x00, 0x00]
        = pack [.tuple [.null, .atom (.versionstamp .placeholder)]] ++ littleEndian offsetSize o
      ∧ o < capacity offsetSize
      ∧ o + 10 ≤ (pack [.tuple [.null, .atom (.versionstamp .placeholder)]]).length
      ∧ placeholders [.tuple [.null, .atom (.versionstamp .placeholder)]] = [o]
      ∧ ∀ stamp,
        overwrite (pack [.tuple [.null, .atom (.versionstamp .placeholder)]]) o stamp
          = pack (commit [.tuple [.null, .atom (.versionstamp .placeholder)]] stamp)
        ∧ unpack (overwrite (pack [.tuple [.null, .atom (.versionstamp .placeholder)]]) o stamp)
          = .ok (commit [.tuple [.null, .atom (.versionstamp .placeholder)]] stamp) := by
  refine overwrite_packVersionstamped ?_
  rw [packVersionstamped, Placeholder.versionstamped, Placeholder.locateOnly_eq,
    Placeholder.surveyFrom_pack]
  rfl

end OrderedKey
