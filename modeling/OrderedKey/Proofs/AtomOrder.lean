import OrderedKey.Element.Collation

/-!
# Atoms are ordered as their keys

What stands behind an atom in a key takes part when two keys are compared
byte by byte, because a field that marks its own end can be the beginning
of another one. So the order of two atoms cannot be read off their written
forms alone, and everything here is said of written forms *with something
behind them*: the atoms decide, and where they are the same, what follows
does (`Atom.compare_pack_append`).

The one condition is that what follows does not begin with the escape mark.
A terminator is then below whatever a longer field has in its place – a
byte of content, or a marked `0x00`, which differs from it in the mark – so
the shorter field comes first.

Fields of fixed width need no condition. An integer is decided by its code,
which has the sign and the width, and behind equal codes by its field; a
float by the rank of its bits; a versionstamp by its fields in turn.
-/

namespace OrderedKey

/-- What does not begin with the mark is below what does. -/
theorem compare_escapeMark_cons {x : Bytes} (h : x.head? ≠ some escapeMark) (s : Bytes) :
    compare x (escapeMark :: s) = .lt := by
  cases x with
  | nil => rfl
  | cons b x =>
    have hb : b ≠ escapeMark := by simpa using h
    have hne : b.toNat ≠ 255 := fun heq => hb (UInt8.toNat.inj heq)
    have hlt : b.toNat < escapeMark.toNat := by
      have := b.toNat_lt
      show b.toNat < 255
      omega
    rw [List.compare_cons_cons, ← compare_toNat, Nat.compare_eq_lt.2 hlt, Ordering.lt_then]

/-- The terminator is below every other byte. -/
theorem compare_terminator {b : UInt8} (h : b ≠ terminator) : compare terminator b = .lt := by
  have hne : b.toNat ≠ 0 := fun heq => h (UInt8.toNat.inj heq)
  rw [← compare_toNat, Nat.compare_eq_lt]
  exact Nat.pos_of_ne_zero hne

/-! ## Fields that mark their own end -/

namespace Escaped

theorem encode_cons_terminator_append (c x : Bytes) :
    encode (terminator :: c) ++ x = terminator :: escapeMark :: (encode c ++ x) := by
  simp [encode, body_cons_terminator]

theorem encode_cons_append_of_ne {b : UInt8} (h : b ≠ terminator) (c x : Bytes) :
    encode (b :: c) ++ x = b :: (encode c ++ x) := by
  simp [encode, body_cons_of_ne h]

/-- **A field that ends is below one that goes on**, whatever follows it. -/
theorem compare_terminator_encode_cons {x : Bytes} (h : x.head? ≠ some escapeMark) (b : UInt8)
    (c y : Bytes) : compare (terminator :: x) (encode (b :: c) ++ y) = .lt := by
  by_cases hb : b = terminator
  · rw [hb, encode_cons_terminator_append, List.compare_cons_cons, compare_escapeMark_cons h]
    rfl
  · rw [encode_cons_append_of_ne hb, List.compare_cons_cons, compare_terminator hb]
    rfl

/-- **Fields are ordered as their contents**, and equal fields leave the
decision to what follows. -/
theorem compare_encode_append {x y : Bytes} (hx : x.head? ≠ some escapeMark)
    (hy : y.head? ≠ some escapeMark) (c d : Bytes) :
    compare (encode c ++ x) (encode d ++ y) = (compare c d).then (compare x y) := by
  induction c generalizing d with
  | nil =>
    cases d with
    | nil =>
      show compare (terminator :: x) (terminator :: y) = _
      rw [List.compare_cons_cons, Std.ReflOrd.compare_self]
      rfl
    | cons b d => exact compare_terminator_encode_cons hx b d y
  | cons b c ih =>
    cases d with
    | nil =>
      show compare (encode (b :: c) ++ x) (terminator :: y) = .gt
      rw [Std.OrientedOrd.eq_swap, compare_terminator_encode_cons hy b c x]
      rfl
    | cons b' d =>
      rw [List.compare_cons_cons, Ordering.then_assoc, ← ih]
      by_cases hb : b = terminator <;> by_cases hb' : b' = terminator
      · rw [hb, hb', encode_cons_terminator_append, encode_cons_terminator_append]
        simp only [List.compare_cons_cons, Std.ReflOrd.compare_self, Ordering.eq_then]
      · rw [hb, encode_cons_terminator_append, encode_cons_append_of_ne hb',
          List.compare_cons_cons, compare_terminator hb']
        rfl
      · rw [hb', encode_cons_terminator_append, encode_cons_append_of_ne hb,
          List.compare_cons_cons, Std.OrientedOrd.eq_swap (a := b), compare_terminator hb]
        rfl
      · rw [encode_cons_append_of_ne hb, encode_cons_append_of_ne hb', List.compare_cons_cons]

end Escaped

/-! ## Codes -/

/-- The place among the kinds of the elements that begin with a code. -/
def AtomCode.kindRank : AtomCode → Nat
  | null => 0
  | bytes => 1
  | string => 2
  | bigNegative | negative _ | nonnegative _ | bigPositive => 4
  | float => 5
  | double => 6
  | bool _ => 7
  | uuid => 8
  | versionstamp _ => 9

namespace AtomCode

/-- **Codes of different kinds are ordered as the kinds.** -/
theorem compare_toByte_of_kindRank_ne {c d : AtomCode} (hc : c ∈ all) (hd : d ∈ all)
    (h : c.kindRank ≠ d.kindRank) :
    compare c.toByte d.toByte = compare c.kindRank d.kindRank := by
  have hall : ∀ c ∈ all, ∀ d ∈ all, c.kindRank ≠ d.kindRank →
      compare c.toByte d.toByte = compare c.kindRank d.kindRank := by decide +kernel
  exact hall c hc d hd h

/-- The code of a nested tuple has its place, the fourth, among those of
atoms. -/
theorem compare_nestedCode_toByte {c : AtomCode} (h : c ∈ all) :
    compare nestedCode c.toByte = compare 3 c.kindRank := by
  have hall : ∀ c ∈ all, compare nestedCode c.toByte = compare 3 c.kindRank := by decide
  exact hall c h

/-- Among the codes of integers from zero on, the wider is the greater. -/
theorem compare_toByte_nonnegative {v w : Nat} (hv : v ≤ Integer.maxWidth)
    (hw : w ≤ Integer.maxWidth) :
    compare (nonnegative v).toByte (nonnegative w).toByte = compare v w := by
  have hall : ∀ v w : Fin 9,
      compare (nonnegative v.val).toByte (nonnegative w.val).toByte = compare v.val w.val := by
    decide
  exact hall ⟨v, Nat.lt_succ_of_le hv⟩ ⟨w, Nat.lt_succ_of_le hw⟩

/-- Among the codes of negative integers, the wider is the smaller. -/
theorem compare_toByte_negative {v w : Nat} (hv : v ≤ Integer.maxWidth)
    (hw : w ≤ Integer.maxWidth) :
    compare (negative v).toByte (negative w).toByte = compare w v := by
  have hall : ∀ v w : Fin 9,
      compare (negative v.val).toByte (negative w.val).toByte = compare w.val v.val := by
    decide
  exact hall ⟨v, Nat.lt_succ_of_le hv⟩ ⟨w, Nat.lt_succ_of_le hw⟩

/-- The codes of negative integers come first. -/
theorem compare_toByte_negative_nonnegative {v w : Nat} (hpos : 0 < v)
    (hv : v ≤ Integer.maxWidth) (hw : w ≤ Integer.maxWidth) :
    compare (negative v).toByte (nonnegative w).toByte = .lt := by
  have hall : ∀ v w : Fin 9, 0 < v.val →
      compare (negative v.val).toByte (nonnegative w.val).toByte = .lt := by
    decide
  exact hall ⟨v, Nat.lt_succ_of_le hv⟩ ⟨w, Nat.lt_succ_of_le hw⟩ hpos

end AtomCode

/-! ## Integers -/

namespace Integer

/-- A magnitude that takes more bytes is the greater one. -/
theorem lt_of_width_lt {m n : Nat} (h : width m < width n) : m < n := by
  have hm := lt_capacity_width m
  have hn : ¬ n < capacity (width m) := fun hlt => by
    have := width_le_iff.2 hlt
    omega
  omega

/-- From zero on, code and field are ordered as the integers. -/
theorem compare_nonnegative {m n : Nat} (hm : width m ≤ maxWidth) (hn : width n ≤ maxWidth)
    (x y : Bytes) :
    compare ((AtomCode.nonnegative (width m)).toByte :: (bigEndian (width m) m ++ x))
        ((AtomCode.nonnegative (width n)).toByte :: (bigEndian (width n) n ++ y))
      = (compare m n).then (compare x y) := by
  rw [List.compare_cons_cons, AtomCode.compare_toByte_nonnegative hm hn]
  rcases Nat.lt_trichotomy (width m) (width n) with hlt | heq | hgt
  · rw [Nat.compare_eq_lt.2 hlt, Nat.compare_eq_lt.2 (lt_of_width_lt hlt)]
    rfl
  · have hfit := lt_capacity_width m
    have hlen : (bigEndian (width m) m).length = (bigEndian (width n) n).length := by
      rw [length_bigEndian, length_bigEndian, heq]
    rw [Nat.compare_eq_eq.2 heq, Ordering.eq_then, compare_append_of_length_eq hlen, heq,
      compare_bigEndian (heq ▸ hfit) (lt_capacity_width n)]
  · rw [Nat.compare_eq_gt.2 hgt, Nat.compare_eq_gt.2 (lt_of_width_lt hgt)]
    rfl

/-- Below zero, code and field are ordered against the magnitudes. -/
theorem compare_negative {m n : Nat} (hm : width m ≤ maxWidth) (hn : width n ≤ maxWidth)
    (x y : Bytes) :
    compare
        ((AtomCode.negative (width m)).toByte :: (bigEndian (width m) (limit (width m) - m) ++ x))
        ((AtomCode.negative (width n)).toByte :: (bigEndian (width n) (limit (width n) - n) ++ y))
      = (compare n m).then (compare x y) := by
  rw [List.compare_cons_cons, AtomCode.compare_toByte_negative hm hn]
  rcases Nat.lt_trichotomy (width n) (width m) with hlt | heq | hgt
  · rw [Nat.compare_eq_lt.2 hlt, Nat.compare_eq_lt.2 (lt_of_width_lt hlt)]
    rfl
  · have hfit := lt_capacity_iff.1 (lt_capacity_width m)
    have hfit' := lt_capacity_iff.1 (lt_capacity_width n)
    have hlen : (bigEndian (width m) (limit (width m) - m)).length
        = (bigEndian (width n) (limit (width n) - n)).length := by
      rw [length_bigEndian, length_bigEndian, heq]
    rw [Nat.compare_eq_eq.2 heq, Ordering.eq_then, compare_append_of_length_eq hlen, ← heq,
      compare_bigEndian (lt_capacity_iff.2 (Nat.sub_le _ _))
        (lt_capacity_iff.2 (Nat.sub_le _ _))]
    rw [← heq] at hfit
    have hsub : compare (limit (width n) - m) (limit (width n) - n) = compare n m := by
      rw [Nat.compare_eq_ite_lt, Nat.compare_eq_ite_lt]
      split <;> split <;> grind
    rw [hsub]
  · rw [Nat.compare_eq_gt.2 hgt, Nat.compare_eq_gt.2 (lt_of_width_lt hgt)]
    rfl

end Integer

/-! ## Floats -/

/-- **Ranks are ordered as the floats**, by sign and magnitude. -/
theorem SignOrder.compare_rank {half m n : Nat} (hm : m < 2 * half) (hn : n < 2 * half) :
    compare (rank half m) (rank half n) = compare (signed half m) (signed half n) := by
  have hrank := rank_eq_add_signed hm
  have hrank' := rank_eq_add_signed hn
  rcases Nat.lt_trichotomy (rank half m) (rank half n) with hlt | heq | hgt
  · rw [Nat.compare_eq_lt.2 hlt, eq_comm, Int.compare_eq_lt]
    omega
  · rw [Nat.compare_eq_eq.2 heq, eq_comm, Int.compare_eq_eq]
    omega
  · rw [Nat.compare_eq_gt.2 hgt, eq_comm, Int.compare_eq_gt]
    omega

/-- The fields of ranks are ordered as the floats. -/
theorem SignOrder.compare_bigEndian_rank {half width m n : Nat} (hcap : capacity width = 2 * half)
    (hm : m < 2 * half) (hn : n < 2 * half) (x y : Bytes) :
    compare (bigEndian width (rank half m) ++ x) (bigEndian width (rank half n) ++ y)
      = (compare (signed half m) (signed half n)).then (compare x y) := by
  have hlen : (bigEndian width (rank half m)).length = (bigEndian width (rank half n)).length := by
    rw [length_bigEndian, length_bigEndian]
  rw [compare_append_of_length_eq hlen, compare_bigEndian (hcap ▸ rank_lt hm) (hcap ▸ rank_lt hn),
    compare_rank hm hn]

/-! ## Versionstamps -/

namespace Versionstamp

/-- The store's fields are ordered by commit version and then by batch
number. -/
theorem compare_transactionBytes_append (v w : Versionstamp) (x y : Bytes) :
    compare (v.transactionBytes.bytes ++ x) (w.transactionBytes.bytes ++ y)
      = (compare v.commitVersion w.commitVersion).then
          ((compare v.batchNumber w.batchNumber).then (compare x y)) := by
  have hbytes : ∀ (v : Versionstamp) (x : Bytes), v.transactionBytes.bytes ++ x
      = bigEndian commitSize v.commitVersion.toNat
        ++ (bigEndian batchSize v.batchNumber.toNat ++ x) := fun v x =>
    List.append_assoc _ _ _
  rw [hbytes, hbytes, compare_append_of_length_eq (by rw [length_bigEndian, length_bigEndian]),
    compare_append_of_length_eq (by rw [length_bigEndian, length_bigEndian]),
    compare_bigEndian v.commitVersion_lt w.commitVersion_lt,
    compare_bigEndian v.batchNumber_lt w.batchNumber_lt, compare_uint64_toNat,
    compare_uint16_toNat]

/-- **Fields behind one code are ordered as the versionstamps**: where both
have a user version, or neither has. -/
theorem compare_toBytes_append {v w : Versionstamp}
    (h : v.userVersion.isSome = w.userVersion.isSome) (x y : Bytes) :
    compare (v.toBytes ++ x) (w.toBytes ++ y) = (compare v w).then (compare x y) := by
  have hcompare : compare v w = (compare v.commitVersion w.commitVersion).then
      ((compare v.batchNumber w.batchNumber).then (compare v.userVersion w.userVersion)) := by
    show (compare v.userVersion.isSome w.userVersion.isSome).then _ = _
    rw [h]
    cases w.userVersion.isSome <;> rfl
  rw [toBytes, toBytes, List.append_assoc, List.append_assoc, compare_transactionBytes_append,
    hcompare, Ordering.then_assoc, Ordering.then_assoc]
  cases hv : v.userVersion with
  | none =>
    cases hw : w.userVersion with
    | none => rfl
    | some => rw [hv, hw] at h; cases h
  | some user =>
    cases hw : w.userVersion with
    | none => rw [hv, hw] at h; cases h
    | some user' =>
      dsimp only
      rw [compare_append_of_length_eq (by rw [length_bigEndian, length_bigEndian]),
        compare_bigEndian (userVersion_lt user) (userVersion_lt user'), compare_uint16_toNat]
      rfl

/-- **Versionstamps are ordered as their keys**, code and fields, whatever
follows them. -/
theorem compare_pack_append (v w : Versionstamp) (x y : Bytes) :
    compare ((Atom.versionstamp v).pack ++ x) ((Atom.versionstamp w).pack ++ y)
      = (compare v w).then (compare x y) := by
  show compare ((AtomCode.versionstamp v.userVersion.isSome).toByte :: (v.toBytes ++ x))
    ((AtomCode.versionstamp w.userVersion.isSome).toByte :: (w.toBytes ++ y)) = _
  rw [List.compare_cons_cons]
  by_cases h : v.userVersion.isSome = w.userVersion.isSome
  · rw [h, Std.ReflOrd.compare_self, Ordering.eq_then, compare_toBytes_append h]
  · -- the code decides, and so does the user version that it stands for
    have hcompare : compare v w = (compare v.userVersion.isSome w.userVersion.isSome).then
        ((compare v.commitVersion w.commitVersion).then
          ((compare v.batchNumber w.batchNumber).then (compare v.userVersion w.userVersion))) := rfl
    rw [hcompare]
    cases hv : v.userVersion.isSome <;> cases hw : w.userVersion.isSome
    · exact absurd (hv.trans hw.symm) h
    · rfl
    · rfl
    · exact absurd (hv.trans hw.symm) h

end Versionstamp

/-! ## Atoms -/

namespace Atom

theorem kindRank_code (a : Atom) : a.code.kindRank = a.kindRank := by
  cases a with
  | int n =>
    unfold code
    dsimp only
    split <;> rfl
  | _ => rfl

/-- Atoms of different kinds are ordered by kind. -/
theorem collate_of_kindRank_ne {a b : Atom} (h : a.kindRank ≠ b.kindRank) :
    a.collate b = compare a.kindRank b.kindRank := by
  cases a <;> cases b <;> first | rfl | exact absurd rfl h

/-- Integers are ordered as their keys. -/
theorem compare_pack_int_append (m n : Int64) (x y : Bytes) :
    compare ((int m).pack ++ x) ((int n).pack ++ y)
      = (compare m.toInt n.toInt).then (compare x y) := by
  have hm := Integer.width_toInt_le m
  have hn := Integer.width_toInt_le n
  have hpos : ∀ k : Int, ¬ 0 ≤ k → 0 < Integer.width k.natAbs := by
    intro k hk
    have hzero := @Integer.width_eq_zero_iff k.natAbs
    omega
  by_cases hm' : 0 ≤ m.toInt <;> by_cases hn' : 0 ≤ n.toInt
  · have hcompare : compare m.toInt.natAbs n.toInt.natAbs = compare m.toInt n.toInt := by
      rw [Nat.compare_eq_ite_lt, Int.compare_eq_ite_lt]
      grind
    rw [pack_int_of_nonneg hm', pack_int_of_nonneg hn', List.cons_append, List.cons_append,
      Integer.compare_nonnegative hm hn, hcompare]
  · have hgt : n.toInt < m.toInt := by omega
    rw [pack_int_of_nonneg hm', pack_int_of_neg hn', Int.compare_eq_gt.2 hgt,
      Std.OrientedOrd.eq_swap, List.cons_append, List.cons_append, List.compare_cons_cons,
      AtomCode.compare_toByte_negative_nonnegative (hpos _ hn') hn hm]
    rfl
  · have hlt : m.toInt < n.toInt := by omega
    rw [pack_int_of_neg hm', pack_int_of_nonneg hn', Int.compare_eq_lt.2 hlt, List.cons_append,
      List.cons_append, List.compare_cons_cons,
      AtomCode.compare_toByte_negative_nonnegative (hpos _ hm') hm hn]
    rfl
  · have hcompare : compare n.toInt.natAbs m.toInt.natAbs = compare m.toInt n.toInt := by
      rw [Nat.compare_eq_ite_lt, Int.compare_eq_ite_lt]
      grind
    rw [pack_int_of_neg hm', pack_int_of_neg hn', List.cons_append, List.cons_append,
      Integer.compare_negative hm hn, hcompare]

/-- Atoms of different kinds are decided by their codes. -/
theorem compare_pack_append_of_kindRank_ne {a b : Atom} (h : a.kindRank ≠ b.kindRank)
    (x y : Bytes) : compare (a.pack ++ x) (b.pack ++ y) = (a.collate b).then (compare x y) := by
  have hne : a.code.kindRank ≠ b.code.kindRank := by
    rwa [kindRank_code, kindRank_code]
  have hcode := AtomCode.compare_toByte_of_kindRank_ne a.code_mem_all b.code_mem_all hne
  rw [kindRank_code, kindRank_code] at hcode
  show compare (a.code.toByte :: (a.payload ++ x)) (b.code.toByte :: (b.payload ++ y)) = _
  rw [List.compare_cons_cons, hcode, collate_of_kindRank_ne h]
  rcases Nat.lt_or_gt_of_ne h with hlt | hgt
  · rw [Nat.compare_eq_lt.2 hlt]
    rfl
  · rw [Nat.compare_eq_gt.2 hgt]
    rfl

/-- **Atoms are ordered as their keys**, whatever follows them that does not
begin with the mark. -/
theorem compare_pack_append {x y : Bytes} (hx : x.head? ≠ some escapeMark)
    (hy : y.head? ≠ some escapeMark) (a b : Atom) :
    compare (a.pack ++ x) (b.pack ++ y) = (a.collate b).then (compare x y) := by
  by_cases h : a.kindRank = b.kindRank
  · cases a <;> cases b <;> try (simp [kindRank] at h; done)
    case null.null =>
      show compare (terminator :: x) (terminator :: y) = _
      rw [List.compare_cons_cons, Std.ReflOrd.compare_self]
      rfl
    case bytes.bytes c d =>
      show compare (AtomCode.bytes.toByte :: (Escaped.encode c ++ x))
        (AtomCode.bytes.toByte :: (Escaped.encode d ++ y)) = _
      rw [List.compare_cons_cons, Std.ReflOrd.compare_self, Ordering.eq_then,
        Escaped.compare_encode_append hx hy]
      rfl
    case string.string s t =>
      show compare (AtomCode.string.toByte :: (Escaped.encode (Utf8.encode s) ++ x))
        (AtomCode.string.toByte :: (Escaped.encode (Utf8.encode t) ++ y)) = _
      rw [List.compare_cons_cons, Std.ReflOrd.compare_self, Ordering.eq_then,
        Escaped.compare_encode_append hx hy]
      rfl
    case int.int m n => exact compare_pack_int_append m n x y
    case float.float f g =>
      show compare (AtomCode.float.toByte :: (bigEndian floatSize _ ++ x))
        (AtomCode.float.toByte :: (bigEndian floatSize _ ++ y)) = _
      rw [List.compare_cons_cons, Std.ReflOrd.compare_self, Ordering.eq_then,
        SignOrder.compare_bigEndian_rank rfl f.toNat_lt g.toNat_lt]
      rfl
    case double.double f g =>
      show compare (AtomCode.double.toByte :: (bigEndian doubleSize _ ++ x))
        (AtomCode.double.toByte :: (bigEndian doubleSize _ ++ y)) = _
      rw [List.compare_cons_cons, Std.ReflOrd.compare_self, Ordering.eq_then,
        SignOrder.compare_bigEndian_rank rfl f.toNat_lt g.toNat_lt]
      rfl
    case bool.bool p q => cases p <;> cases q <;> rfl
    case uuid.uuid u v =>
      show compare (AtomCode.uuid.toByte :: (u.bytes ++ x)) (AtomCode.uuid.toByte :: (v.bytes ++ y))
        = _
      rw [List.compare_cons_cons, Std.ReflOrd.compare_self, Ordering.eq_then,
        compare_append_of_length_eq (u.length_bytes.trans v.length_bytes.symm)]
      rfl
    case versionstamp.versionstamp v w => exact Versionstamp.compare_pack_append v w x y
  · exact compare_pack_append_of_kindRank_ne h x y

end Atom

end OrderedKey
