import OrderedKey.Proofs.UniqueSpelling
import OrderedKey.Tuple.Overrun

/-!
# Keys that begin another key

A key may begin with the key of a tuple and not be that of a longer row. It
then goes on with the mark (`Tuple.exists_mark_of_pack_eq`), and this module
says what that means for the two tuples: the one overruns the other
(`Tuple.overruns_iff`).

In one direction the longer element is written out. In the other the longer
key is read. Where a reader of the shorter one would stop it finds the mark,
and it may go on in three ways: of a byte string or a text it reads more
content, of a nested tuple it reads an element without value, and of anything
else it has stopped already, since only what marks its own end is read with a
look beyond it.
-/

namespace OrderedKey

namespace Element

/-! ## What overruns is written longer -/

/-- **An element that overruns another is written as the other**, and goes on
with the mark. -/
theorem exists_pack_of_overruns {a b : Element} (h : b.overruns a = true) :
    ∃ rest, b.pack = a.pack ++ escapeMark :: rest := by
  unfold overruns at h
  split at h
  · rename_i longer content
    obtain ⟨more, hmore⟩ := of_decide_eq_true h
    rw [List.append_assoc, List.singleton_append] at hmore
    refine ⟨Escaped.encode more, ?_⟩
    show _ :: Escaped.encode longer = _ :: (Escaped.encode content ++ _)
    rw [← hmore, Escaped.encode_append_terminator]
    rfl
  · rename_i longer text
    obtain ⟨more, hmore⟩ := of_decide_eq_true h
    have hutf8 : Utf8.encode longer
        = Utf8.encode text ++ terminator :: more.flatMap String.utf8EncodeChar := by
      rw [Utf8.encode, ← hmore, List.append_assoc, List.flatMap_append]
      rfl
    refine ⟨Escaped.encode (more.flatMap String.utf8EncodeChar), ?_⟩
    show _ :: Escaped.encode (Utf8.encode longer) = _ :: (Escaped.encode (Utf8.encode text) ++ _)
    rw [hutf8, Escaped.encode_append_terminator]
    rfl
  · rename_i longer elements
    obtain ⟨more, hmore⟩ := of_decide_eq_true h
    refine ⟨packNested more ++ [terminator], ?_⟩
    have hrow : packNested longer
        = packNested elements ++ terminator :: escapeMark :: packNested more := by
      rw [← hmore, List.append_assoc, packNested_append]
      rfl
    rw [pack, pack, hrow]
    simp
  · cases h

/-! ## What is written longer overruns -/

/-- What begins with the bytes of an atom is read as an atom of its code. -/
theorem read_of_pack_append {a : Atom} {b : Element} {x y : Bytes}
    (h : a.pack ++ x = b.pack ++ y) (hy : y.head? ≠ some escapeMark) :
    ∃ v body, b = atom v ∧ a.payload ++ x = body ++ y
      ∧ Atom.read a.code 0 (a.payload ++ x) = .ok (v, body.length) := by
  obtain ⟨code, body, hpack, hread⟩ := b.spelling_pack.read_eq_ok (Nat.le_refl b.depth)
  rw [hpack, Atom.pack, List.cons_append, List.cons_append, List.cons.injEq] at h
  obtain ⟨rfl, hbytes⟩ := h
  have hatom := hread 0 y hy
  rw [read_toByte a.code_mem_all, ← hbytes] at hatom
  cases hvalue : Atom.read a.code 0 (a.payload ++ x) with
  | error e => rw [hvalue] at hatom; cases hatom
  | ok r =>
    rw [hvalue] at hatom
    obtain ⟨hb, hused⟩ := Prod.mk.inj (Except.ok.inj hatom)
    exact ⟨r.1, body, hb.symm, hbytes, congrArg Except.ok (Prod.ext rfl hused)⟩

/-- Behind an atom of fixed size no key goes on with the mark. -/
theorem pack_append_mark_ne {a : Atom} {b : Element} {x y : Bytes} (hbytes : a.code ≠ .bytes)
    (hstring : a.code ≠ .string) (hy : y.head? ≠ some escapeMark) :
    a.pack ++ escapeMark :: x ≠ b.pack ++ y := by
  intro h
  obtain ⟨v, body, -, hpayload, hread⟩ := read_of_pack_append h hy
  rw [Atom.read_append_of_ok hbytes hstring (a.read_own_payload 0)] at hread
  have hlength : a.payload.length = body.length := congrArg Prod.snd (Except.ok.inj hread)
  obtain ⟨-, rfl⟩ := List.append_inj hpayload hlength
  exact hy rfl

/-- Where the mark is behind a byte string, what is read is a longer one. -/
theorem overruns_bytes_of_pack {content x y : Bytes} {b : Element}
    (h : (Atom.bytes content).pack ++ escapeMark :: x = b.pack ++ y)
    (hy : y.head? ≠ some escapeMark) : b.overruns (.atom (.bytes content)) = true := by
  obtain ⟨v, body, rfl, -, hread⟩ := read_of_pack_append h hy
  rw [Atom.code, Atom.payload, Atom.read, Escaped.decode_encode_mark] at hread
  cases hrest : (Escaped.decode x).2 with
  | none => rw [hrest] at hread; cases hread
  | some rest =>
    rw [hrest] at hread
    obtain ⟨rfl, -⟩ := Prod.mk.inj (Except.ok.inj hread)
    exact decide_eq_true ⟨(Escaped.decode x).1, by simp⟩

/-- Where the mark is behind a text, what is read is a longer one. -/
theorem overruns_string_of_pack {text : String} {x y : Bytes} {b : Element}
    (h : (Atom.string text).pack ++ escapeMark :: x = b.pack ++ y)
    (hy : y.head? ≠ some escapeMark) : b.overruns (.atom (.string text)) = true := by
  obtain ⟨v, body, rfl, -, hread⟩ := read_of_pack_append h hy
  rw [Atom.code, Atom.payload, Atom.read, Escaped.decode_encode_mark] at hread
  dsimp only at hread
  split at hread
  · cases hread
  · cases hread
  · rename_i longer rest hlonger hrest
    obtain ⟨rfl, -⟩ := Prod.mk.inj (Except.ok.inj hread)
    -- the zero byte of the longer text is a character of its own
    have hchars : (text.toList ++ ['\x00']).flatMap String.utf8EncodeChar
        ++ (Escaped.decode x).1 = longer.toList.flatMap String.utf8EncodeChar := by
      rw [List.flatMap_append, List.append_assoc]
      exact Utf8.eq_encode_of_decode hlonger
    exact decide_eq_true (Utf8.prefix_of_flatMap_append hchars)

/-- Where the mark is behind a row, what is read is a longer one, with an
element without value for the terminator of the row. -/
theorem prefix_of_packNested_append {s t : List Element} {x y : Bytes}
    (h : packNested s ++ terminator :: escapeMark :: x = packNested t ++ terminator :: y)
    (hy : y.head? ≠ some escapeMark) : s ++ [null] <+: t := by
  -- one reader that goes deep enough for both reads both off the same bytes
  have hs := (rowSpelling_packNested s).readChildren_append
    (Nat.le_max_left (depthList s) (depthList t)) 0 0 [] (head?_terminator_ne (escapeMark :: x))
  have ht := (rowSpelling_packNested t).readChildren_append
    (Nat.le_max_right (depthList s) (depthList t)) 0 0 [] (head?_terminator_ne y)
  rw [readChildren_ended hy, ← h, hs, readChildren_marked] at ht
  obtain ⟨row, -, -, hrow, -⟩ :=
    rowSpelling_of_readChildren (fun hread => spelling_of_read hread) ht
  refine ⟨row, ?_⟩
  rw [List.append_nil, List.append_nil, List.reverse_reverse] at hrow
  rw [hrow]
  simp

/-- **An element whose bytes go on with the mark is overrun** by the element
that is read there. -/
theorem overruns_of_pack_append {a b : Element} {x y : Bytes}
    (h : a.pack ++ escapeMark :: x = b.pack ++ y) (hy : y.head? ≠ some escapeMark) :
    b.overruns a = true := by
  cases a with
  | atom a =>
    cases a with
    | bytes content => exact overruns_bytes_of_pack h hy
    | string text => exact overruns_string_of_pack h hy
    | int n =>
      obtain ⟨width, hcode | hcode⟩ := Atom.code_int n
      · exact absurd h (pack_append_mark_ne (by rw [hcode]; nofun) (by rw [hcode]; nofun) hy)
      · exact absurd h (pack_append_mark_ne (by rw [hcode]; nofun) (by rw [hcode]; nofun) hy)
    | _ => exact absurd h (pack_append_mark_ne nofun nofun hy)
  | tuple s =>
    rw [pack, List.cons_append, List.append_assoc, List.singleton_append] at h
    cases b with
    | atom b =>
      have hcode := (List.cons.inj h).1
      exact absurd hcode.symm (AtomCode.toByte_ne_nestedCode b.code_mem_all)
    | tuple t =>
      rw [pack, List.cons_append, List.append_assoc, List.singleton_append] at h
      exact decide_eq_true (prefix_of_packNested_append (List.cons.inj h).2 hy)

end Element

namespace Tuple

/-- What begins with a key and is no key of a longer row goes on with the
mark. -/
theorem exists_mark_of_pack_eq {p k : Tuple} {x : Bytes} (h : ¬ p <+: k)
    (hpack : pack k = pack p ++ x) : ∃ rest, x = escapeMark :: rest := by
  by_cases hx : x.head? = some escapeMark
  · exact List.head?_eq_some_iff.1 hx
  · obtain ⟨t, rfl, -⟩ := exists_append_of_pack_eq hpack hx
    exact absurd (List.prefix_append p t) h

/-- A tuple that overruns another is written as the other, and goes on with
the mark. -/
theorem exists_pack_of_overruns {p q : Tuple} (h : q.overruns p = true) :
    ∃ rest, pack q = pack p ++ escapeMark :: rest := by
  fun_induction overruns q p with
  | case1 b q a =>
    obtain ⟨rest, hrest⟩ := Element.exists_pack_of_overruns h
    refine ⟨rest ++ pack q, ?_⟩
    rw [pack_cons, pack_cons, hrest, pack_nil, List.append_nil, List.append_assoc]
    rfl
  | case2 b q a p hp ih =>
    obtain ⟨hba, hqp⟩ := Bool.and_eq_true_iff.1 h
    obtain rfl := eq_of_beq hba
    obtain ⟨rest, hrest⟩ := ih hqp
    exact ⟨rest, by rw [pack_cons, pack_cons, hrest, List.append_assoc]⟩
  | case3 => cases h

/-- **A tuple whose key goes on with the mark is overrun** by the tuple whose
key that is. -/
theorem overruns_of_pack {p q : Tuple} {rest : Bytes}
    (h : pack q = pack p ++ escapeMark :: rest) : q.overruns p = true := by
  induction p generalizing q with
  | nil =>
    have hhead := head?_pack_ne q
    rw [h] at hhead
    exact absurd rfl hhead
  | cons a p ih =>
    cases q with
    | nil =>
      obtain ⟨code, body, hpack, -⟩ := a.exists_pack_eq_cons
      rw [pack_cons, hpack] at h
      cases h
    | cons b q =>
      rw [pack_cons, pack_cons, List.append_assoc] at h
      cases p with
      | nil => exact Element.overruns_of_pack_append h.symm (head?_pack_ne q)
      | cons a' p =>
        -- the first elements end in one place, since the mark is only behind the last one
        have hbehind : (pack (a' :: p) ++ escapeMark :: rest).head? ≠ some escapeMark := by
          rw [pack_cons, List.append_assoc]
          exact a'.head?_pack_append_ne _
        obtain ⟨rfl, -, htail⟩ :=
          b.spelling_pack.append_inj a.spelling_pack (head?_pack_ne q) hbehind h
        exact Bool.and_eq_true_iff.2 ⟨beq_self_eq_true b, ih htail⟩

/-- **A key that is the beginning of another** is that of a tuple which the
other overruns, unless the other goes on where it ends. -/
theorem overruns_iff {p q : Tuple} (h : ¬ p <+: q) : q.overruns p = true ↔ pack p <+: pack q := by
  constructor
  · intro hoverruns
    obtain ⟨rest, hrest⟩ := exists_pack_of_overruns hoverruns
    exact ⟨escapeMark :: rest, hrest.symm⟩
  · rintro ⟨x, hx⟩
    obtain ⟨rest, rfl⟩ := exists_mark_of_pack_eq h hx.symm
    exact overruns_of_pack hx.symm

end Tuple

end OrderedKey
