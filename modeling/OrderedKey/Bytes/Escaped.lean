import OrderedKey.Bytes

/-!
# Byte strings that mark their own end

A field of no fixed width ends at a **terminator**, the byte `0x00`. A
`0x00` of the content is told apart by a mark behind it: it is written
`0x00 0xFF`, so a `0x00` that no `0xFF` follows is always the terminator.
`0x00` is the least byte, which makes a string that stops sort before
every longer one that begins with it, and `0xFF` the greatest, which makes
a content `0x00` sort after the terminator whatever comes next – as long
as nothing written behind a field ever begins with `0xFF`.

`encode` writes a field and `decode` reads one off the front of a longer
string. The two lemmas at the end say what `decode` finds in *any* string,
whoever wrote it: up to a terminator it has read exactly what `encode`
writes (`decode_eq_some_iff`), and when the string ends first it has read
a field that lacks only its terminator (`decode_eq_none_iff`).
-/

namespace OrderedKey

/-- The byte that ends a field, or a group of fields. -/
abbrev terminator : UInt8 := 0x00

/-- The byte that takes back the meaning of a `terminator` before it. -/
abbrev escapeMark : UInt8 := 0xFF

/-- What begins with a terminator does not begin with the mark. -/
theorem head?_terminator_ne (rest : Bytes) : (terminator :: rest).head? ≠ some escapeMark := by
  rw [List.head?_cons]
  decide

/-- The front of what does not begin with the mark does not either. -/
theorem head?_ne_of_append {x y : Bytes} (h : (x ++ y).head? ≠ some escapeMark) :
    x.head? ≠ some escapeMark := by
  cases x with
  | nil => simp
  | cons b x => exact h

namespace Escaped

/-- The content of a field with each of its `0x00` marked, and no terminator
yet. -/
def body (content : Bytes) : Bytes :=
  content.flatMap fun b => if b = terminator then [terminator, escapeMark] else [b]

/-- A field: the marked content and the terminator. -/
def encode (content : Bytes) : Bytes := body content ++ [terminator]

/-- Reads on behind the content `done`, which is held last byte first. -/
def decodeFrom (done : Bytes) : Bytes → Bytes × Option Bytes
  | [] => (done.reverse, none)
  | b :: rest =>
    if b ≠ terminator then decodeFrom (b :: done) rest
    else match rest with
      | [] => (done.reverse, some [])
      | c :: more =>
        if c = escapeMark then decodeFrom (terminator :: done) more
        else (done.reverse, some (c :: more))

/-- Reads a field off the front of `data`: its content, and what stands
behind the terminator – or nothing, when `data` ends before one. -/
def decode (data : Bytes) : Bytes × Option Bytes := decodeFrom [] data

@[simp] theorem body_nil : body [] = [] := rfl

@[simp] theorem body_append (a b : Bytes) : body (a ++ b) = body a ++ body b :=
  List.flatMap_append

theorem body_cons_terminator (content : Bytes) :
    body (terminator :: content) = terminator :: escapeMark :: body content := by
  simp [body]

theorem body_cons_of_ne {b : UInt8} (h : b ≠ terminator) (content : Bytes) :
    body (b :: content) = b :: body content := by
  simp [body, h]

theorem decodeFrom_cons_of_ne {b : UInt8} (h : b ≠ terminator) (done rest : Bytes) :
    decodeFrom done (b :: rest) = decodeFrom (b :: done) rest := by
  cases rest with
  | nil => rw [decodeFrom.eq_2, if_pos h]
  | cons c more => rw [decodeFrom.eq_3, if_pos h]

theorem decodeFrom_append (done front data : Bytes) :
    decodeFrom (done ++ front) data
      = (front.reverse ++ (decodeFrom done data).1, (decodeFrom done data).2) := by
  fun_induction decodeFrom done data with
  | case1 => simp [decodeFrom]
  | case2 done b rest hb ih => rw [decodeFrom_cons_of_ne hb]; exact ih
  | case3 done b hb => rw [decodeFrom, if_neg hb]; simp
  | case4 done b hb more ih => rw [decodeFrom, if_neg hb, if_pos rfl]; exact ih
  | case5 done b hb c more hc => rw [decodeFrom, if_neg hb, if_neg hc]; simp

/-- What is read already stays in front of what is read next. -/
theorem decodeFrom_eq (done data : Bytes) :
    decodeFrom done data = (done.reverse ++ (decode data).1, (decode data).2) :=
  decodeFrom_append [] done data

@[simp] theorem decode_nil : decode [] = ([], none) := rfl

theorem decode_cons_of_ne {b : UInt8} (h : b ≠ terminator) (rest : Bytes) :
    decode (b :: rest) = (b :: (decode rest).1, (decode rest).2) := by
  rw [decode, decodeFrom_cons_of_ne h, decodeFrom_eq]
  rfl

theorem decode_marked (rest : Bytes) :
    decode (terminator :: escapeMark :: rest)
      = (terminator :: (decode rest).1, (decode rest).2) := by
  rw [decode, decodeFrom, if_neg (by decide), if_pos rfl, decodeFrom_eq]
  rfl

theorem decode_terminator {rest : Bytes} (h : rest.head? ≠ some escapeMark) :
    decode (terminator :: rest) = ([], some rest) := by
  cases rest with
  | nil => rfl
  | cons c more =>
    have hc : c ≠ escapeMark := by simpa using h
    rw [decode, decodeFrom, if_neg (by decide), if_neg hc]
    rfl

/-- **Every string begins in one of four ways**: it is empty, or its first
byte is content, or a marked `0x00` is, or it begins with a terminator. -/
theorem induction_on {motive : Bytes → Prop} (data : Bytes) (nil : motive [])
    (plain : ∀ b rest, b ≠ terminator → motive rest → motive (b :: rest))
    (marked : ∀ rest, motive rest → motive (terminator :: escapeMark :: rest))
    (ended : ∀ rest, rest.head? ≠ some escapeMark → motive (terminator :: rest)) :
    motive data := by
  induction hn : data.length using Nat.strongRecOn generalizing data with
  | ind n ih =>
    subst hn
    cases data with
    | nil => exact nil
    | cons b rest =>
      by_cases hb : b = terminator
      · subst hb
        by_cases hrest : rest.head? = some escapeMark
        · cases rest with
          | nil => simp at hrest
          | cons c more =>
            have hc : c = escapeMark := by simpa using hrest
            subst hc
            exact marked more (ih more.length (by simp only [List.length_cons]; omega) more rfl)
        · exact ended rest hrest
      · exact plain b rest hb (ih rest.length (by simp) rest rfl)

/-- **Marked content is read off the front of anything**, and reading goes on
behind it. -/
theorem decode_body_append (content data : Bytes) :
    decode (body content ++ data) = (content ++ (decode data).1, (decode data).2) := by
  induction content with
  | nil => rfl
  | cons b content ih =>
    by_cases hb : b = terminator
    · subst hb
      rw [body_cons_terminator, List.cons_append, List.cons_append, decode_marked, ih]
      rfl
    · rw [body_cons_of_ne hb, List.cons_append, decode_cons_of_ne hb, ih]
      rfl

/-- **A field is read back from in front of anything** that does not begin
with the mark. -/
theorem decode_encode_append (content : Bytes) {rest : Bytes}
    (h : rest.head? ≠ some escapeMark) :
    decode (encode content ++ rest) = (content, some rest) := by
  rw [encode, List.append_assoc, decode_body_append, List.singleton_append, decode_terminator h,
    List.append_nil]

/-- **A field in front of the mark has not ended**: its terminator is taken
for a marked `0x00`, and what is read begins with its content and that. -/
theorem decode_encode_mark (content rest : Bytes) :
    decode (encode content ++ escapeMark :: rest)
      = (content ++ terminator :: (decode rest).1, (decode rest).2) := by
  rw [encode, List.append_assoc, decode_body_append, List.singleton_append, decode_marked]

/-- A field that lacks its terminator is read to its end. -/
theorem decode_body (content : Bytes) : decode (body content) = (content, none) := by
  have hread := decode_body_append content []
  rwa [List.append_nil, decode_nil, List.append_nil] at hread

/-- The field of content with a `0x00` in it is, up to that `0x00`, a field in
front of the mark. -/
theorem encode_append_terminator (content more : Bytes) :
    encode (content ++ terminator :: more) = encode content ++ escapeMark :: encode more := by
  simp [encode, body_cons_terminator]

/-- **What is read is what was written**: whatever `decode` finds in front
of `rest` is the field of the content it reports, and `rest` does not begin
with the mark. -/
theorem decode_eq_some_iff {data content rest : Bytes} :
    decode data = (content, some rest)
      ↔ data = encode content ++ rest ∧ rest.head? ≠ some escapeMark := by
  constructor
  · induction data using induction_on generalizing content with
    | nil => intro h; simp at h
    | plain b tail hb ih =>
      intro h
      rw [decode_cons_of_ne hb, Prod.mk.injEq] at h
      obtain ⟨rfl, hrest⟩ := h
      obtain ⟨htail, hhead⟩ := ih (Prod.ext rfl hrest)
      refine ⟨?_, hhead⟩
      rw [encode, body_cons_of_ne hb]
      simpa [encode] using htail
    | marked tail ih =>
      intro h
      rw [decode_marked, Prod.mk.injEq] at h
      obtain ⟨rfl, hrest⟩ := h
      obtain ⟨htail, hhead⟩ := ih (Prod.ext rfl hrest)
      refine ⟨?_, hhead⟩
      rw [encode, body_cons_terminator]
      simpa [encode] using htail
    | ended tail hhead =>
      intro h
      rw [decode_terminator hhead] at h
      simp only [Prod.mk.injEq, Option.some.injEq] at h
      obtain ⟨rfl, rfl⟩ := h
      exact ⟨rfl, hhead⟩
  · rintro ⟨rfl, hhead⟩
    exact decode_encode_append content hhead

/-- Where the string ends before a terminator, it is the content's marked
form and no more. -/
theorem decode_eq_none_iff {data content : Bytes} :
    decode data = (content, none) ↔ data = body content := by
  constructor
  · induction data using induction_on generalizing content with
    | nil => intro h; simp at h; rw [h, body_nil]
    | plain b tail hb ih =>
      intro h
      rw [decode_cons_of_ne hb, Prod.mk.injEq] at h
      obtain ⟨rfl, hrest⟩ := h
      rw [body_cons_of_ne hb, ← ih (Prod.ext rfl hrest)]
    | marked tail ih =>
      intro h
      rw [decode_marked, Prod.mk.injEq] at h
      obtain ⟨rfl, hrest⟩ := h
      rw [body_cons_terminator, ← ih (Prod.ext rfl hrest)]
    | ended tail hhead =>
      intro h
      rw [decode_terminator hhead] at h
      cases h
  · rintro rfl
    exact decode_body content

/-- **A field that is cut off** is read as one that lacks its terminator, or as
a whole one where the cut takes the mark off a `0x00`. Its content is the
beginning of what was written. -/
theorem decode_of_append_eq_encode {content front back : Bytes}
    (h : front ++ back = encode content) :
    ∃ part, part <+: content
      ∧ (decode front = (part, none) ∨ decode front = (part, some []) ∧ front = encode part) := by
  have hwhole : decode (front ++ back) = (content, some []) := by
    have hread := @decode_encode_append content [] (by simp)
    rwa [List.append_nil, ← h] at hread
  rcases hfront : decode front with ⟨part, _ | rest⟩
  · obtain rfl := decode_eq_none_iff.1 hfront
    rw [decode_body_append, Prod.mk.injEq] at hwhole
    exact ⟨part, ⟨_, hwhole.1⟩, Or.inl rfl⟩
  · obtain ⟨rfl, hrest⟩ := decode_eq_some_iff.1 hfront
    rw [List.append_assoc] at hwhole
    by_cases hmark : (rest ++ back).head? = some escapeMark
    · cases rest with
      | cons b rest => exact absurd hmark hrest
      | nil =>
        -- the mark is the first byte behind the cut
        obtain ⟨more, rfl⟩ := List.head?_eq_some_iff.1 hmark
        rw [List.nil_append, decode_encode_mark, Prod.mk.injEq] at hwhole
        rw [List.append_nil]
        exact ⟨part, ⟨_, hwhole.1⟩, Or.inr ⟨rfl, rfl⟩⟩
    · rw [decode_encode_append part hmark, Prod.mk.injEq, Option.some.injEq] at hwhole
      obtain ⟨rfl, hnil⟩ := hwhole
      obtain rfl := (List.append_eq_nil_iff.1 hnil).1
      rw [List.append_nil]
      exact ⟨part, List.prefix_refl _, Or.inr ⟨rfl, rfl⟩⟩

end Escaped

end OrderedKey
