import OrderedKey.Proofs.Isolation
import OrderedKey.Proofs.Locate

/-!
# The key with the one placeholder

A tuple has a key that travels with an offset if there is one placeholder in it,
and no more. Whether there is, and what is said if not, can be read off the
layout of the tuple, where it is a matter of what comes first
(`Tuple.packVersionstamped_eq`). A second placeholder settles it, whatever
stands behind. A nested tuple that is too deep settles it too, if it comes
before a second placeholder, and it does not help then that there is a
placeholder in front. Only where neither is met are the placeholders counted.

The scan that decides this never sees a base. It walks over the key of the tuple
alone, and the length of the base is added to what it reports. So a base may
hold any bytes, also such as look like codes or placeholders: in a subspace there
is a key with an offset exactly where there is one without a base, and it
differs by the base in front and by its length in the offset
(`Subspace.packVersionstamped_of_tuple`).
-/

namespace OrderedKey

namespace Placeholder

variable {t : Tuple}

/-- **The key of a tuple with one placeholder, read off the layout**: a second
placeholder in front of what is too deep refuses the tuple, and then what is too
deep does; else there is a key if there is a placeholder. The offset has room
where the key has. -/
theorem versionstamped_eq (base : Bytes)
    (h : base.length + (Tuple.pack t).length < capacity offsetSize) :
    versionstamped base t
      = match Tuple.placeholdersWithin maxDepth t, (Tuple.tooDeep maxDepth t).head? with
        | first :: second :: _, _ =>
          .error (.severalPlaceholders (base.length + first) (base.length + second))
        | _, some offset => .error (.nestingTooDeep offset maxDepth)
        | [only], none =>
          .ok (base ++ Tuple.pack t ++ littleEndian offsetSize (base.length + only))
        | [], none => .error .missingPlaceholder := by
  rw [versionstamped, locateOnly_eq, surveyFrom_pack_eq]
  rcases hwithin : Tuple.placeholdersWithin maxDepth t with _ | ⟨first, _ | ⟨second, more⟩⟩
  · cases (Tuple.tooDeep maxDepth t).head? <;> rfl
  · cases (Tuple.tooDeep maxDepth t).head? with
    | some offset => rfl
    | none =>
      -- the placeholder is in the key, and the key is short enough
      have hstands : Stands (Tuple.pack t) first :=
        Tuple.stands_of_mem_placeholdersWithin (hwithin ▸ List.mem_singleton_self first)
      have hroom : base.length + first < capacity offsetSize := by
        have hle := hstands.bytes.2.1
        omega
      dsimp only
      rw [if_pos hroom]
  · cases (Tuple.tooDeep maxDepth t).head? <;> rfl

/-- **The first placeholder of a key, read off the layout**: it is located if
it comes before what is too deep. -/
theorem locate_pack (t : Tuple) :
    locate (Tuple.pack t)
      = match (Tuple.placeholdersWithin maxDepth t).head?, (Tuple.tooDeep maxDepth t).head? with
        | some first, _ => .ok first
        | none, some offset => .error (.nestingTooDeep offset maxDepth)
        | none, none => .error .missingPlaceholder := by
  rw [locate_eq, surveyFrom_pack_eq]
  cases Tuple.placeholdersWithin maxDepth t with
  | nil => cases (Tuple.tooDeep maxDepth t).head? <;> rfl
  | cons first more => rfl

/-- Where a tuple has a key with an offset, that is the offset of its one
placeholder, behind the base. -/
theorem placed_of_versionstamped_eq_ok {base key : Bytes} (h : versionstamped base t = .ok key) :
    ∃ o, key = base ++ Tuple.pack t ++ littleEndian offsetSize (base.length + o)
      ∧ base.length + o < capacity offsetSize ∧ Tuple.placeholders t = [o]
      ∧ Tuple.Placed t (Tuple.pack t) o ∧ Tuple.depth t ≤ maxDepth := by
  rw [versionstamped] at h
  split at h
  · cases h
  · rename_i offset hoffset
    cases h
    obtain ⟨o, used, hsurvey, rfl, hcapacity⟩ := survey_of_locateOnly_eq_ok hoffset
    exact ⟨o, rfl, hcapacity, placed_of_surveyFrom_pack hsurvey⟩

/-- An error without a base is the error behind one, but for the offsets of two
placeholders. -/
theorem versionstamped_of_eq_error {base : Bytes} {e : KeyError}
    (h : base.length + (Tuple.pack t).length < capacity offsetSize)
    (herror : versionstamped [] t = .error e) :
    (∃ first second, e = .severalPlaceholders first second
        ∧ versionstamped base t
          = .error (.severalPlaceholders (base.length + first) (base.length + second)))
      ∨ (∀ first second, e ≠ .severalPlaceholders first second)
        ∧ versionstamped base t = .error e := by
  have hnil : ([] : Bytes).length + (Tuple.pack t).length < capacity offsetSize := by
    rw [List.length_nil]
    omega
  rw [versionstamped_eq [] hnil] at herror
  rw [versionstamped_eq base h]
  generalize Tuple.placeholdersWithin maxDepth t = within at herror ⊢
  generalize (Tuple.tooDeep maxDepth t).head? = fault at herror ⊢
  rcases within with _ | ⟨first, _ | ⟨second, more⟩⟩
  · cases fault <;> (cases herror; exact Or.inr ⟨nofun, rfl⟩)
  · cases fault <;> cases herror
    exact Or.inr ⟨nofun, rfl⟩
  · refine Or.inl ⟨first, second, ?_, ?_⟩
    · simpa using herror.symm
    · cases fault <;> rfl

end Placeholder

/-- **Whether a tuple has a key with an offset** is a matter of what its layout
lists first, the placeholders or the nested tuples that are too deep. A second
placeholder that comes first is the error, with the offsets of the first two.
Else what is too deep is the error, if there is such a tuple. Else there is a
key, with the offset of the one placeholder, or no placeholder is the error. The
first placeholder is located wherever it comes before what is too deep. -/
theorem Tuple.packVersionstamped_eq {t : Tuple} (h : (pack t).length < capacity offsetSize) :
    (packVersionstamped t
      = match placeholdersWithin maxDepth t, (tooDeep maxDepth t).head? with
        | first :: second :: _, _ => .error (.severalPlaceholders first second)
        | _, some offset => .error (.nestingTooDeep offset maxDepth)
        | [only], none => .ok (pack t ++ littleEndian offsetSize only)
        | [], none => .error .missingPlaceholder)
      ∧ Placeholder.locate (pack t)
        = match (placeholdersWithin maxDepth t).head?, (tooDeep maxDepth t).head? with
          | some first, _ => .ok first
          | none, some offset => .error (.nestingTooDeep offset maxDepth)
          | none, none => .error .missingPlaceholder := by
  have hkey := Placeholder.versionstamped_eq (t := t) [] (by rwa [List.length_nil, Nat.zero_add])
  simp only [List.length_nil, Nat.zero_add, List.nil_append] at hkey
  exact ⟨hkey, Placeholder.locate_pack t⟩

/-- A placeholder, then a tuple that is too deep, and a second placeholder in it
that is not met any more. -/
theorem Tuple.packVersionstamped_eq_tooDeep :
    (pack (.atom (.versionstamp .placeholder)
        :: nest [.atom (.versionstamp .placeholder)] 129)).length < capacity offsetSize
      ∧ packVersionstamped (.atom (.versionstamp .placeholder)
          :: nest [.atom (.versionstamp .placeholder)] 129)
        = .error (.nestingTooDeep 139 128)
      ∧ Placeholder.locate (pack (.atom (.versionstamp .placeholder)
          :: nest [.atom (.versionstamp .placeholder)] 129)) = .ok 1 := by
  have hlength : (pack (.atom (.versionstamp .placeholder)
      :: nest [.atom (.versionstamp .placeholder)] 129)).length < capacity offsetSize := by
    decide +kernel
  exact ⟨hlength, (packVersionstamped_eq hlength).1.trans rfl,
    (packVersionstamped_eq hlength).2.trans rfl⟩

namespace Subspace

/-- **A base does not matter but for its length**: a tuple has a key with an
offset in a subspace exactly if it has one without a base. It is the same key
behind the base, its offset counts the base too, and what the store makes of it
there is read in the subspace as the tuple with its placeholder filled in. Where
there are two placeholders their offsets count the base as well, and any other
error is the same. -/
theorem packVersionstamped_of_tuple (s : Subspace) {t : Tuple}
    (h : s.base.length + (Tuple.pack t).length < capacity offsetSize) :
    (∀ key, Tuple.packVersionstamped t = .ok key →
      ∃ o, key = Tuple.pack t ++ littleEndian offsetSize o
        ∧ s.base.length + o < capacity offsetSize ∧ Tuple.placeholders t = [o]
        ∧ s.packVersionstamped t
          = .ok (s.base ++ Tuple.pack t ++ littleEndian offsetSize (s.base.length + o))
        ∧ ∀ stamp,
          overwrite (s.base ++ Tuple.pack t) (s.base.length + o) stamp
            = s.pack (Tuple.commit t stamp)
          ∧ s.unpack (overwrite (s.base ++ Tuple.pack t) (s.base.length + o) stamp)
            = .ok (Tuple.commit t stamp))
      ∧ (∀ first second,
        Tuple.packVersionstamped t = .error (.severalPlaceholders first second) →
          s.packVersionstamped t
            = .error (.severalPlaceholders (s.base.length + first) (s.base.length + second)))
      ∧ ∀ e, (∀ first second, e ≠ .severalPlaceholders first second) →
        Tuple.packVersionstamped t = .error e → s.packVersionstamped t = .error e := by
  refine ⟨fun key hkey => ?_, fun first second herror => ?_, fun e hne herror => ?_⟩
  · obtain ⟨o, rfl, -, honly, hplaced, hdepth⟩ := Placeholder.placed_of_versionstamped_eq_ok hkey
    have hroom : s.base.length + o < capacity offsetSize := by
      have hle := hplaced.stands.bytes.2.1
      omega
    have hbase := Placeholder.versionstamped_eq s.base h
    rw [Tuple.placeholdersWithin_of_depth_le hdepth, honly,
      (Tuple.tooDeep_eq_nil_iff maxDepth t).2 hdepth] at hbase
    rw [List.length_nil, Nat.zero_add]
    refine ⟨o, rfl, hroom, honly, hbase, fun stamp => ?_⟩
    -- the store leaves the base alone, and behind it does as without one
    rw [overwrite_append_right, hplaced.overwrite_pack stamp]
    refine ⟨rfl, unpack_own_pack ?_⟩
    rwa [Tuple.depth_commit]
  · rcases Placeholder.versionstamped_of_eq_error h herror with ⟨_, _, heq, hbase⟩ | ⟨hne, -⟩
    · cases heq
      exact hbase
    · exact absurd rfl (hne first second)
  · rcases Placeholder.versionstamped_of_eq_error h herror with ⟨_, _, heq, -⟩ | ⟨-, hbase⟩
    · exact absurd heq (hne _ _)
    · exact hbase

/-- A base that begins like a placeholder, in front of a tuple with one
placeholder, of one with two and of one with none. -/
theorem packVersionstamped_of_tuple_lookalike :
    (⟨[0x32, 0xFF]⟩ : Subspace).packVersionstamped [.atom (.versionstamp .placeholder)]
        = .ok ([0x32, 0xFF] ++ Tuple.pack [.atom (.versionstamp .placeholder)]
          ++ [0x03, 0x00, 0x00, 0x00])
      ∧ (∀ stamp, (⟨[0x32, 0xFF]⟩ : Subspace).unpack
          (overwrite ([0x32, 0xFF] ++ Tuple.pack [.atom (.versionstamp .placeholder)]) 3 stamp)
        = .ok (Tuple.commit [.atom (.versionstamp .placeholder)] stamp))
      ∧ (⟨[0x32, 0xFF]⟩ : Subspace).packVersionstamped
          [.atom (.versionstamp .placeholder), .atom (.versionstamp .placeholder)]
        = .error (.severalPlaceholders 3 14)
      ∧ (⟨[0x32, 0xFF]⟩ : Subspace).packVersionstamped [.null] = .error .missingPlaceholder := by
  have hone : Tuple.packVersionstamped [.atom (.versionstamp .placeholder)] = _ :=
    Placeholder.versionstamped_eq [] (by decide)
  have htwo : Tuple.packVersionstamped
      [.atom (.versionstamp .placeholder), .atom (.versionstamp .placeholder)] = _ :=
    Placeholder.versionstamped_eq [] (by decide)
  have hnone : Tuple.packVersionstamped [.null] = _ := Placeholder.versionstamped_eq [] (by decide)
  obtain ⟨o, -, -, honly, hkey, hstamp⟩ :=
    (packVersionstamped_of_tuple ⟨[0x32, 0xFF]⟩ (by decide)).1 _ hone
  obtain rfl : 1 = o := (List.cons.inj honly).1
  exact ⟨hkey, fun stamp => (hstamp stamp).2,
    (packVersionstamped_of_tuple ⟨[0x32, 0xFF]⟩ (by decide)).2.1 1 12 htwo,
    (packVersionstamped_of_tuple ⟨[0x32, 0xFF]⟩ (by decide)).2.2 _ nofun hnone⟩

end Subspace

end OrderedKey
