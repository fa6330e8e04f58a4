import OrderedKey.Text.Utf8

/-!
# Reading UTF-8 and writing it are inverse

`decode_eq_ok_iff` is the whole of it: the bytes that are read as a text
are the bytes that are written for it, and no others. One direction is that
the machine takes the bytes of a character to that character
(`foldlM_step_utf8EncodeChar`). The other is that it keeps track of what it
has read: the bytes so far are those of the finished characters and of the
one that is being read (`Pending.Reads`), and the ranges of the bytes that
may follow leave no room for anything but a character in its one spelling.

A machine that reads byte by byte never goes wrong on the beginning of a
text, wherever that is cut off: `decode_append_eq_ok`.
-/

namespace OrderedKey.Utf8

namespace Pending

theorem ofLead?_one {b : UInt8} (h : b.toNat < 0x80) :
    ofLead? b = some ⟨1, 0, 0x80, 0xBF, b.toNat⟩ :=
  if_pos (UInt8.lt_iff_toNat_lt.2 h)

theorem ofLead?_two {b : UInt8} (h : 0xC2 ≤ b.toNat) (h' : b.toNat < 0xE0) :
    ofLead? b = some ⟨1, 1, 0x80, 0xBF, b.toNat - 0xC0⟩ := by
  simp only [ofLead?, UInt8.lt_iff_toNat_lt, UInt8.reduceToNat]
  rw [if_neg (by omega), if_neg (by omega), if_pos h']

theorem ofLead?_three {b : UInt8} (h : 0xE0 ≤ b.toNat) (h' : b.toNat < 0xF0) :
    ofLead? b = some ⟨1, 2, if b = 0xE0 then 0xA0 else 0x80, if b = 0xED then 0x9F else 0xBF,
      b.toNat - 0xE0⟩ := by
  simp only [ofLead?, UInt8.lt_iff_toNat_lt, UInt8.reduceToNat]
  rw [if_neg (by omega), if_neg (by omega), if_neg (by omega), if_pos h']

theorem ofLead?_four {b : UInt8} (h : 0xF0 ≤ b.toNat) (h' : b.toNat < 0xF5) :
    ofLead? b = some ⟨1, 3, if b = 0xF0 then 0x90 else 0x80, if b = 0xF4 then 0x8F else 0xBF,
      b.toNat - 0xF0⟩ := by
  simp only [ofLead?, UInt8.lt_iff_toNat_lt, UInt8.reduceToNat]
  rw [if_neg (by omega), if_neg (by omega), if_neg (by omega), if_neg (by omega), if_pos h']

theorem continue?_of_le {p : Pending} {b : UInt8} (hlow : p.low.toNat ≤ b.toNat)
    (hhigh : b.toNat ≤ p.high.toNat) :
    p.continue? b
      = some ⟨p.size + 1, p.due - 1, 0x80, 0xBF, 64 * p.code + (b.toNat - 0x80)⟩ :=
  if_pos ⟨UInt8.le_iff_toNat_le.2 hlow, UInt8.le_iff_toNat_le.2 hhigh⟩

/-- What is narrower behind one lead byte is still a range of continuation
bytes. -/
theorem ite_toNat_le_iff {a x y : UInt8} {n : Nat} (hy : 0x80 ≤ y.toNat) :
    (if a = x then y else 0x80).toNat ≤ n
      ↔ 0x80 ≤ n ∧ (a.toNat = x.toNat → y.toNat ≤ n) := by
  split
  · rename_i h
    exact ⟨fun hle => ⟨Nat.le_trans hy hle, fun _ => hle⟩, fun hle => hle.2 (congrArg _ h)⟩
  · rename_i h
    exact ⟨fun hle => ⟨hle, fun heq => absurd (UInt8.toNat.inj heq) h⟩, fun hle => hle.1⟩

theorem le_ite_toNat_iff {a x y : UInt8} {n : Nat} (hy : y.toNat ≤ 0xBF) :
    n ≤ (if a = x then y else 0xBF).toNat
      ↔ n ≤ 0xBF ∧ (a.toNat = x.toNat → n ≤ y.toNat) := by
  split
  · rename_i h
    exact ⟨fun hle => ⟨Nat.le_trans hle hy, fun _ => hle⟩, fun hle => hle.2 (congrArg _ h)⟩
  · rename_i h
    exact ⟨fun hle => ⟨hle, fun heq => absurd (UInt8.toNat.inj heq) h⟩, fun hle => hle.1⟩

end Pending

namespace State

variable {chars : List Char} {size : Nat}

theorem foldlM_step_cons {s t : State} {b : UInt8} (h : s.step b = .ok t) (rest : Bytes) :
    (b :: rest).foldlM step s = rest.foldlM step t := by
  rw [List.foldlM_cons, h]
  rfl

theorem step_of_ofLead? {b : UInt8} {p : Pending} (h : Pending.ofLead? b = some p) :
    step ⟨chars, size, none⟩ b = .ok (settle ⟨chars, size, none⟩ p) := by
  simp only [step, h]

theorem step_of_continue? {b : UInt8} {p q : Pending} (h : p.continue? b = some q) :
    step ⟨chars, size, some p⟩ b = .ok (settle ⟨chars, size, some p⟩ q) := by
  simp only [step, h]

/-- A continuation byte says six bits. -/
theorem toNat_continuation (n : Nat) :
    (UInt8.ofNat (n % 0x40 + 0x80)).toNat = n % 0x40 + 0x80 :=
  UInt8.toNat_ofNat_of_lt' (by show _ < 256; omega)

/-- A continuation byte that is not the last one is taken in. -/
theorem foldlM_step_more {p : Pending} {n : Nat} (hlow : p.low.toNat ≤ n % 0x40 + 0x80)
    (hhigh : n % 0x40 + 0x80 ≤ p.high.toNat) (hdue : 2 ≤ p.due) (rest : Bytes) :
    (UInt8.ofNat (n % 0x40 + 0x80) :: rest).foldlM step ⟨chars, size, some p⟩
      = rest.foldlM step ⟨chars, size,
          some ⟨p.size + 1, p.due - 1, 0x80, 0xBF, 64 * p.code + n % 0x40⟩⟩ := by
  rw [← toNat_continuation n] at hlow hhigh
  rw [foldlM_step_cons (step_of_continue? (Pending.continue?_of_le hlow hhigh)), settle,
    if_neg (by show p.due - 1 ≠ 0; omega), toNat_continuation, Nat.add_sub_cancel]

/-- The last continuation byte finishes the character. -/
theorem foldlM_step_last {p : Pending} {n : Nat} (hlow : p.low.toNat ≤ n % 0x40 + 0x80)
    (hhigh : n % 0x40 + 0x80 ≤ p.high.toNat) (hdue : p.due = 1) :
    [UInt8.ofNat (n % 0x40 + 0x80)].foldlM step ⟨chars, size, some p⟩
      = .ok ⟨Char.ofNat (64 * p.code + n % 0x40) :: chars, size + (p.size + 1), none⟩ := by
  rw [← toNat_continuation n] at hlow hhigh
  rw [foldlM_step_cons (step_of_continue? (Pending.continue?_of_le hlow hhigh)), settle,
    if_pos (by show p.due - 1 = 0; omega), toNat_continuation, Nat.add_sub_cancel]
  rfl

section

variable {v : Nat}

/-- A character of one byte. -/
theorem foldlM_step_one (h : v < 0x80) :
    [UInt8.ofNat v].foldlM step ⟨chars, size, none⟩
      = .ok ⟨Char.ofNat v :: chars, size + 1, none⟩ := by
  have hlead : (UInt8.ofNat v).toNat = v := UInt8.toNat_ofNat_of_lt' (by show _ < 256; omega)
  rw [foldlM_step_cons (step_of_ofLead? (Pending.ofLead?_one (by omega))), settle, if_pos rfl,
    hlead]
  rfl

/-- A character of two bytes. -/
theorem foldlM_step_two (h : 0x80 ≤ v) (h' : v < 0x800) :
    [UInt8.ofNat (v / 64 % 0x20 + 0xC0), UInt8.ofNat (v % 0x40 + 0x80)].foldlM step
        ⟨chars, size, none⟩
      = .ok ⟨Char.ofNat v :: chars, size + 2, none⟩ := by
  have hlead : (UInt8.ofNat (v / 64 % 0x20 + 0xC0)).toNat = v / 64 % 0x20 + 0xC0 :=
    UInt8.toNat_ofNat_of_lt' (by show _ < 256; omega)
  have hcode : 64 * (v / 64 % 0x20 + 0xC0 - 0xC0) + v % 0x40 = v := by omega
  rw [foldlM_step_cons (step_of_ofLead? (Pending.ofLead?_two (by omega) (by omega))), settle,
    if_neg (by simp), foldlM_step_last (by simp) (by simp; omega) rfl, hlead, hcode]

/-- A character of three bytes: not one that fits in two, and no surrogate. -/
theorem foldlM_step_three (h : 0x800 ≤ v) (h' : v < 0x10000) (hvalid : v < 0xD800 ∨ 0xDFFF < v) :
    [UInt8.ofNat (v / 4096 % 0x10 + 0xE0), UInt8.ofNat (v / 64 % 0x40 + 0x80),
        UInt8.ofNat (v % 0x40 + 0x80)].foldlM step ⟨chars, size, none⟩
      = .ok ⟨Char.ofNat v :: chars, size + 3, none⟩ := by
  have hlead : (UInt8.ofNat (v / 4096 % 0x10 + 0xE0)).toNat = v / 4096 % 0x10 + 0xE0 :=
    UInt8.toNat_ofNat_of_lt' (by show _ < 256; omega)
  have hcode : 64 * (64 * (v / 4096 % 0x10 + 0xE0 - 0xE0) + v / 64 % 0x40) + v % 0x40 = v := by
    omega
  rw [foldlM_step_cons (step_of_ofLead? (Pending.ofLead?_three (by omega) (by omega))), settle,
    if_neg (by simp), foldlM_step_more ?_ ?_ (by simp),
    foldlM_step_last (by simp) (by simp; omega) rfl, hlead, hcode]
  · refine (Pending.ite_toNat_le_iff (by decide)).2 ⟨by omega, fun heq => ?_⟩
    have hnarrow : v / 4096 % 0x10 + 0xE0 = 0xE0 := hlead.symm.trans heq
    show 0xA0 ≤ _
    omega
  · refine (Pending.le_ite_toNat_iff (by decide)).2 ⟨by omega, fun heq => ?_⟩
    have hnarrow : v / 4096 % 0x10 + 0xE0 = 0xED := hlead.symm.trans heq
    show _ ≤ 0x9F
    omega

/-- A character of four bytes: not one that fits in three, and none beyond
the last. -/
theorem foldlM_step_four (h : 0x10000 ≤ v) (h' : v < 0x110000) :
    [UInt8.ofNat (v / 262144 % 0x08 + 0xF0), UInt8.ofNat (v / 4096 % 0x40 + 0x80),
        UInt8.ofNat (v / 64 % 0x40 + 0x80), UInt8.ofNat (v % 0x40 + 0x80)].foldlM step
        ⟨chars, size, none⟩
      = .ok ⟨Char.ofNat v :: chars, size + 4, none⟩ := by
  have hlead : (UInt8.ofNat (v / 262144 % 0x08 + 0xF0)).toNat = v / 262144 % 0x08 + 0xF0 :=
    UInt8.toNat_ofNat_of_lt' (by show _ < 256; omega)
  have hcode : 64 * (64 * (64 * (v / 262144 % 0x08 + 0xF0 - 0xF0) + v / 4096 % 0x40)
      + v / 64 % 0x40) + v % 0x40 = v := by
    omega
  rw [foldlM_step_cons (step_of_ofLead? (Pending.ofLead?_four (by omega) (by omega))), settle,
    if_neg (by simp), foldlM_step_more ?_ ?_ (by simp),
    foldlM_step_more (by simp) (by simp; omega) (by simp),
    foldlM_step_last (by simp) (by simp; omega) rfl, hlead, hcode]
  · refine (Pending.ite_toNat_le_iff (by decide)).2 ⟨by omega, fun heq => ?_⟩
    have hnarrow : v / 262144 % 0x08 + 0xF0 = 0xF0 := hlead.symm.trans heq
    show 0x90 ≤ _
    omega
  · refine (Pending.le_ite_toNat_iff (by decide)).2 ⟨by omega, fun heq => ?_⟩
    have hnarrow : v / 262144 % 0x08 + 0xF0 = 0xF4 := hlead.symm.trans heq
    show _ ≤ 0x8F
    omega

end

/-- **The bytes of a character are read as that character.** -/
theorem foldlM_step_utf8EncodeChar (c : Char) :
    (String.utf8EncodeChar c).foldlM step ⟨chars, size, none⟩
      = .ok ⟨c :: chars, size + (String.utf8EncodeChar c).length, none⟩ := by
  have hvalid : c.val.toNat < 0xD800 ∨ 0xDFFF < c.val.toNat ∧ c.val.toNat < 0x110000 := c.valid
  have hchar : Char.ofNat c.val.toNat = c := Char.ofNat_toNat c
  unfold String.utf8EncodeChar
  generalize c.val.toNat = v at hvalid hchar ⊢
  subst hchar
  dsimp only
  split
  · exact foldlM_step_one (by omega)
  · split
    · exact foldlM_step_two (by omega) (by omega)
    · split
      · exact foldlM_step_three (by omega) (by omega) (by omega)
      · exact foldlM_step_four (by omega) (by omega)

/-- Texts are read one behind the other. -/
theorem foldlM_step_flatMap (cs : List Char) :
    (cs.flatMap String.utf8EncodeChar).foldlM step ⟨chars, size, none⟩
      = .ok ⟨cs.reverse ++ chars, size + (cs.flatMap String.utf8EncodeChar).length, none⟩ := by
  induction cs generalizing chars size with
  | nil => rfl
  | cons c cs ih =>
    rw [List.flatMap_cons, List.foldlM_append, foldlM_step_utf8EncodeChar]
    show (cs.flatMap String.utf8EncodeChar).foldlM step _ = _
    rw [ih, List.length_append, List.reverse_cons, List.append_assoc, Nat.add_assoc]
    rfl

end State

/-- **A written text reads back.** -/
theorem decode_encode (text : String) : decode (encode text) = .ok text := by
  rw [decode, encode, State.start, State.foldlM_step_flatMap]
  dsimp only [State.finish]
  rw [List.append_nil, List.reverse_reverse, String.ofList_toList]

/-! ## What has been read is what was written -/

/-- The value of a code point that is one. -/
theorem toNat_ofNat {n : Nat} (h : n < 0xD800 ∨ 0xDFFF < n ∧ n < 0x110000) :
    (Char.ofNat n).val.toNat = n := by
  have hvalid : n.isValidChar := h
  rw [Char.ofNat, dif_pos hvalid]
  rfl

/-- Two bytes that the ranges admit are those of one character. -/
theorem utf8EncodeChar_two {b c : UInt8} (hb : 0xC2 ≤ b.toNat) (hb' : b.toNat < 0xE0)
    (hc : 0x80 ≤ c.toNat) (hc' : c.toNat ≤ 0xBF) :
    String.utf8EncodeChar (Char.ofNat (64 * (b.toNat - 0xC0) + (c.toNat - 0x80))) = [b, c] := by
  unfold String.utf8EncodeChar
  rw [toNat_ofNat (by omega)]
  generalize hv : 64 * (b.toNat - 0xC0) + (c.toNat - 0x80) = v
  have h0 : v / 64 % 0x20 + 0xC0 = b.toNat := by omega
  have h1 : v % 0x40 + 0x80 = c.toNat := by omega
  dsimp only
  rw [if_neg (by omega), if_pos (by omega), h0, h1, UInt8.ofNat_toNat, UInt8.ofNat_toNat]

/-- Three bytes that the ranges admit are those of one character. -/
theorem utf8EncodeChar_three {b c d : UInt8} (hb : 0xE0 ≤ b.toNat) (hb' : b.toNat < 0xF0)
    (hc : 0x80 ≤ c.toNat) (hc' : c.toNat ≤ 0xBF) (hlow : b.toNat = 0xE0 → 0xA0 ≤ c.toNat)
    (hhigh : b.toNat = 0xED → c.toNat ≤ 0x9F) (hd : 0x80 ≤ d.toNat) (hd' : d.toNat ≤ 0xBF) :
    String.utf8EncodeChar (Char.ofNat
      (64 * (64 * (b.toNat - 0xE0) + (c.toNat - 0x80)) + (d.toNat - 0x80))) = [b, c, d] := by
  unfold String.utf8EncodeChar
  rw [toNat_ofNat (by omega)]
  generalize hv : 64 * (64 * (b.toNat - 0xE0) + (c.toNat - 0x80)) + (d.toNat - 0x80) = v
  have h0 : v / 4096 % 0x10 + 0xE0 = b.toNat := by omega
  have h1 : v / 64 % 0x40 + 0x80 = c.toNat := by omega
  have h2 : v % 0x40 + 0x80 = d.toNat := by omega
  dsimp only
  rw [if_neg (by omega), if_neg (by omega), if_pos (by omega), h0, h1, h2, UInt8.ofNat_toNat,
    UInt8.ofNat_toNat, UInt8.ofNat_toNat]

/-- Four bytes that the ranges admit are those of one character. -/
theorem utf8EncodeChar_four {b c d e : UInt8} (hb : 0xF0 ≤ b.toNat) (hb' : b.toNat < 0xF5)
    (hc : 0x80 ≤ c.toNat) (hc' : c.toNat ≤ 0xBF) (hlow : b.toNat = 0xF0 → 0x90 ≤ c.toNat)
    (hhigh : b.toNat = 0xF4 → c.toNat ≤ 0x8F) (hd : 0x80 ≤ d.toNat) (hd' : d.toNat ≤ 0xBF)
    (he : 0x80 ≤ e.toNat) (he' : e.toNat ≤ 0xBF) :
    String.utf8EncodeChar (Char.ofNat
      (64 * (64 * (64 * (b.toNat - 0xF0) + (c.toNat - 0x80)) + (d.toNat - 0x80))
        + (e.toNat - 0x80))) = [b, c, d, e] := by
  unfold String.utf8EncodeChar
  rw [toNat_ofNat (by omega)]
  generalize hv : 64 * (64 * (64 * (b.toNat - 0xF0) + (c.toNat - 0x80)) + (d.toNat - 0x80))
    + (e.toNat - 0x80) = v
  have h0 : v / 262144 % 0x08 + 0xF0 = b.toNat := by omega
  have h1 : v / 4096 % 0x40 + 0x80 = c.toNat := by omega
  have h2 : v / 64 % 0x40 + 0x80 = d.toNat := by omega
  have h3 : v % 0x40 + 0x80 = e.toNat := by omega
  dsimp only
  rw [if_neg (by omega), if_neg (by omega), if_neg (by omega), h0, h1, h2, h3, UInt8.ofNat_toNat,
    UInt8.ofNat_toNat, UInt8.ofNat_toNat, UInt8.ofNat_toNat]

namespace Pending

/-- Every lead byte is of one of four sorts. -/
theorem of_ofLead? {b : UInt8} {p : Pending} (h : ofLead? b = some p) :
    (b.toNat < 0x80 ∧ p = ⟨1, 0, 0x80, 0xBF, b.toNat⟩) ∨
    (0xC2 ≤ b.toNat ∧ b.toNat < 0xE0 ∧ p = ⟨1, 1, 0x80, 0xBF, b.toNat - 0xC0⟩) ∨
    (0xE0 ≤ b.toNat ∧ b.toNat < 0xF0 ∧
      p = ⟨1, 2, if b = 0xE0 then 0xA0 else 0x80, if b = 0xED then 0x9F else 0xBF,
        b.toNat - 0xE0⟩) ∨
    (0xF0 ≤ b.toNat ∧ b.toNat < 0xF5 ∧
      p = ⟨1, 3, if b = 0xF0 then 0x90 else 0x80, if b = 0xF4 then 0x8F else 0xBF,
        b.toNat - 0xF0⟩) := by
  simp only [ofLead?, UInt8.lt_iff_toNat_lt, UInt8.reduceToNat] at h
  split at h
  · rename_i h0
    exact .inl ⟨h0, (Option.some.inj h).symm⟩
  · split at h
    · cases h
    · split at h
      · rename_i h0 h1 h2
        exact .inr (.inl ⟨by omega, h2, (Option.some.inj h).symm⟩)
      · split at h
        · rename_i h0 h1 h2 h3
          exact .inr (.inr (.inl ⟨by omega, h3, (Option.some.inj h).symm⟩))
        · split at h
          · rename_i h0 h1 h2 h3 h4
            exact .inr (.inr (.inr ⟨by omega, h4, (Option.some.inj h).symm⟩))
          · cases h

/-- A byte that is taken in is in range. -/
theorem of_continue? {p q : Pending} {b : UInt8} (h : p.continue? b = some q) :
    p.low.toNat ≤ b.toNat ∧ b.toNat ≤ p.high.toNat ∧
      q = ⟨p.size + 1, p.due - 1, 0x80, 0xBF, 64 * p.code + (b.toNat - 0x80)⟩ := by
  unfold continue? at h
  split at h
  · rename_i hb
    exact ⟨UInt8.le_iff_toNat_le.1 hb.1, UInt8.le_iff_toNat_le.1 hb.2, (Option.some.inj h).symm⟩
  · cases h

/-- **The bytes that a character has been read from**, its lead byte first. -/
inductive Reads : Pending → Bytes → Prop where
  /-- A lead byte begins a character. -/
  | lead {b : UInt8} {p : Pending} (h : ofLead? b = some p) : Reads p [b]
  /-- A byte in range continues one. -/
  | more {p q : Pending} {b : UInt8} {s : Bytes} (hp : Reads p s) (hdue : p.due ≠ 0)
      (h : p.continue? b = some q) : Reads q (s ++ [b])

/-- No character has more than four bytes. -/
theorem Reads.size_add_due_le {p : Pending} {s : Bytes} (h : Reads p s) :
    1 ≤ p.size ∧ p.size + p.due ≤ 4 := by
  induction h with
  | lead h =>
    rcases of_ofLead? h with ⟨_, rfl⟩ | ⟨_, _, rfl⟩ | ⟨_, _, rfl⟩ | ⟨_, _, rfl⟩ <;> simp
  | more hp hdue h ih =>
    obtain ⟨_, _, rfl⟩ := of_continue? h
    simp only
    omega

/-- **A finished character was read from its own bytes.** -/
theorem Reads.utf8EncodeChar {p : Pending} {s : Bytes} (h : Reads p s) (hdue : p.due = 0) :
    String.utf8EncodeChar (Char.ofNat p.code) = s := by
  cases h with
  | lead h =>
    rcases of_ofLead? h with ⟨hb, rfl⟩ | ⟨_, _, rfl⟩ | ⟨_, _, rfl⟩ | ⟨_, _, rfl⟩
    · rename_i b
      unfold String.utf8EncodeChar
      rw [toNat_ofNat (by simp only; omega)]
      dsimp only
      rw [if_pos (by omega), UInt8.ofNat_toNat]
    · cases hdue
    · cases hdue
    · cases hdue
  | more hp hd h =>
    obtain ⟨hc, hc', rfl⟩ := of_continue? h
    cases hp with
    | lead h =>
      rcases of_ofLead? h with ⟨_, rfl⟩ | ⟨hb, hb', rfl⟩ | ⟨_, _, rfl⟩ | ⟨_, _, rfl⟩
      · exact absurd rfl hd
      · exact utf8EncodeChar_two hb hb' hc hc'
      · cases hdue
      · cases hdue
    | more hp hd' h =>
      obtain ⟨hd1, hd2, rfl⟩ := of_continue? h
      cases hp with
      | lead h =>
        rcases of_ofLead? h with ⟨_, rfl⟩ | ⟨_, _, rfl⟩ | ⟨hb, hb', rfl⟩ | ⟨_, _, rfl⟩
        · exact absurd rfl hd'
        · exact absurd rfl hd
        · have hl := (ite_toNat_le_iff (by decide)).1 hd1
          have hh := (le_ite_toNat_iff (by decide)).1 hd2
          exact utf8EncodeChar_three hb hb' hl.1 hh.1 hl.2 hh.2 hc hc'
        · cases hdue
      | more hp hd'' h =>
        obtain ⟨he1, he2, rfl⟩ := of_continue? h
        cases hp with
        | lead h =>
          rcases of_ofLead? h with ⟨_, rfl⟩ | ⟨_, _, rfl⟩ | ⟨_, _, rfl⟩ | ⟨hb, hb', rfl⟩
          · exact absurd rfl hd''
          · exact absurd rfl hd'
          · exact absurd rfl hd
          · have hl := (ite_toNat_le_iff (by decide)).1 he1
            have hh := (le_ite_toNat_iff (by decide)).1 he2
            exact utf8EncodeChar_four hb hb' hl.1 hh.1 hl.2 hh.2 hd1 hd2 hc hc'
        | more hp _ h =>
          -- A fifth byte would belong to no character.
          obtain ⟨_, _, rfl⟩ := of_continue? h
          have hsize := hp.size_add_due_le
          simp only at hdue hd hd' hd''
          omega

end Pending

namespace State

/-- **The bytes that a state has been read from**: those of its finished
characters, and those of the one that is being read. -/
def Reads (s : State) (bytes : Bytes) : Prop :=
  ∃ tail, bytes = s.chars.reverse.flatMap String.utf8EncodeChar ++ tail ∧
    match s.pending with
    | none => tail = []
    | some p => p.due ≠ 0 ∧ p.Reads tail

theorem Reads.settle {s : State} {p : Pending} {tail : Bytes} (h : p.Reads tail) :
    (s.settle p).Reads (s.chars.reverse.flatMap String.utf8EncodeChar ++ tail) := by
  unfold State.settle
  split
  · rename_i hdue
    refine ⟨[], ?_, rfl⟩
    show _ = (Char.ofNat p.code :: s.chars).reverse.flatMap String.utf8EncodeChar ++ []
    rw [List.reverse_cons, List.flatMap_append, List.flatMap_singleton, h.utf8EncodeChar hdue,
      List.append_nil]
  · rename_i hdue
    exact ⟨tail, rfl, hdue, h⟩

theorem Reads.step {s t : State} {bytes : Bytes} {b : UInt8} (hs : s.Reads bytes)
    (h : s.step b = .ok t) : t.Reads (bytes ++ [b]) := by
  obtain ⟨tail, rfl, hpending⟩ := hs
  unfold State.step at h
  split at h
  · rename_i hnone
    rw [hnone] at hpending
    cases hpending
    split at h
    · rename_i p hp
      cases h
      rw [List.append_nil]
      exact Reads.settle (.lead hp)
    · cases h
  · rename_i p hsome
    rw [hsome] at hpending
    split at h
    · rename_i q hq
      cases h
      rw [List.append_assoc]
      exact Reads.settle (.more hpending.2 hpending.1 hq)
    · cases h

theorem Reads.foldlM {s t : State} {front bytes : Bytes} (hs : s.Reads front)
    (h : bytes.foldlM State.step s = .ok t) : t.Reads (front ++ bytes) := by
  induction bytes generalizing s front with
  | nil =>
    cases h
    rwa [List.append_nil]
  | cons b bytes ih =>
    cases hstep : s.step b with
    | error fault => rw [List.foldlM_cons, hstep] at h; cases h
    | ok u =>
      rw [foldlM_step_cons hstep] at h
      have hread := ih (hs.step hstep) h
      rwa [List.append_assoc] at hread

end State

/-- **Only what is written for a text reads as that text.** -/
theorem eq_encode_of_decode {bytes : Bytes} {text : String} (h : decode bytes = .ok text) :
    bytes = encode text := by
  unfold decode at h
  split at h
  · cases h
  · rename_i s hs
    have hstart : State.start.Reads [] := ⟨[], rfl, rfl⟩
    obtain ⟨tail, hbytes, hpending⟩ : s.Reads bytes := hstart.foldlM hs
    unfold State.finish at h
    split at h
    · rename_i hnone
      rw [hnone] at hpending
      cases hpending
      cases h
      rw [hbytes, encode, String.toList_ofList, List.append_nil]
    · cases h

/-- **Reading accepts exactly what writing produces.** -/
theorem decode_eq_ok_iff {bytes : Bytes} {text : String} :
    decode bytes = .ok text ↔ bytes = encode text :=
  ⟨eq_encode_of_decode, fun h => h ▸ decode_encode text⟩

/-- **What begins with the bytes of some characters begins with the
characters.** -/
theorem prefix_of_flatMap_append {cs ds : List Char} {rest : Bytes}
    (h : cs.flatMap String.utf8EncodeChar ++ rest = ds.flatMap String.utf8EncodeChar) :
    cs <+: ds := by
  refine List.isPrefix_of_utf8Encode_append_eq_utf8Encode rest.toByteArray ?_
  rw [List.utf8Encode, List.utf8Encode, ← h, List.toByteArray_append]

/-- **The beginning of a text is never wrong**, it is a text or it ends
inside a character. -/
theorem decode_append_eq_ok {front back : Bytes} {text : String}
    (h : decode (front ++ back) = .ok text) :
    (∃ t, decode front = .ok t) ∨ ∃ index, decode front = .error (.incomplete index) := by
  cases hfront : front.foldlM State.step State.start with
  | error fault =>
    unfold decode at h
    rw [List.foldlM_append, hfront] at h
    cases h
  | ok s =>
    unfold decode
    rw [hfront]
    dsimp only
    unfold State.finish
    split
    · exact .inl ⟨_, rfl⟩
    · exact .inr ⟨_, rfl⟩

end OrderedKey.Utf8
