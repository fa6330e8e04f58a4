import OrderedKey.Proofs.Reading

/-!
# Keys side by side

Keys are put together by writing one behind the other, and the reader does
not know where the seam was. What stands behind a key that was read is read
as if it stood alone: the elements of both come out in one row, and where the
part behind is faulty the fault is reported as it would be alone, with its
places counted from the start of the whole (`Tuple.unpack_append`).

Two things have to hold for that. The reader of the part in front must stop at
the seam, though it looks one byte beyond a terminator to see whether that is
a marked `0x00`. It does stop, unless the part behind begins with the mark
(`Tuple.Spelling.unpackFrom_append`). And nothing that the reader does behind
the seam may depend on what is in front of it, neither on the place it has
come to nor on the elements it has (`Tuple.unpackFrom_behind`).
-/

namespace OrderedKey.Tuple

/-- **Reading on does not depend on what is in front**: with `k` more bytes
and some more elements there, the same is read behind these, and the same error
is met with its places moved. -/
theorem unpackFrom_behind (front : Tuple) (k offset : Nat) (elements : List Element)
    (data : Bytes) :
    unpackFrom (offset + k) (elements ++ front.reverse) data
      = ((unpackFrom offset elements data).map (front ++ ·)).mapError (KeyError.shift k) := by
  fun_induction unpackFrom offset elements data with
  | case1 offset elements =>
    rw [unpackFrom, List.reverse_append, List.reverse_reverse]
    rfl
  | case2 offset elements code rest e hread =>
    rw [unpackFrom, Element.read_shift, hread]
    rfl
  | case3 offset elements code rest e used hread ih =>
    have hoffset : offset + k + 1 + used = offset + 1 + used + k := by omega
    rw [unpackFrom, Element.read_shift, hread, ← ih]
    dsimp only [Except.mapError]
    rw [hoffset]
    rfl

/-- **Keys are read side by side as they are read alone.** Behind bytes that
are read as a tuple, others that do not begin with the mark are read as they
would be alone: their elements come behind those of the tuple, and an error is
the same but for its places, which count from the start of the whole. -/
theorem unpack_append {front back : Bytes} {t : Tuple} (hfront : unpack front = .ok t)
    (hne : back ≠ []) (hback : back.head? ≠ some escapeMark) :
    unpack (front ++ back)
      = match unpack back with
        | .ok u => .ok (t ++ u)
        | .error e => .error (e.shift front.length) := by
  obtain ⟨-, hspelling, hdepth⟩ := spelling_of_unpack hfront
  have happend : front ++ back ≠ [] := fun h => hne (List.append_eq_nil_iff.1 h).2
  have hbehind := unpackFrom_behind t front.length 0 [] back
  rw [List.nil_append] at hbehind
  rw [unpack, unpack, if_neg happend, if_neg hne, hspelling.unpackFrom_append hdepth hback,
    List.append_nil, hbehind]
  cases unpackFrom 0 [] back <;> rfl

/-- A text, which ends in a terminator, and behind it an integer that lacks its
byte. -/
theorem unpack_append_cut_short :
    unpack [0x02, 0x61, 0x00] = .ok [.atom (.string "a")]
      ∧ [0x15] ≠ ([] : Bytes)
      ∧ ([0x15] : Bytes).head? ≠ some escapeMark
      ∧ unpack [0x15] = .error (.outOfBounds 0 1)
      ∧ unpack [0x02, 0x61, 0x00, 0x15] = .error (.outOfBounds 3 4) := by
  have hfront : unpack [0x02, 0x61, 0x00] = .ok [.atom (.string "a")] :=
    (spelling_pack [.atom (.string "a")]).unpack_eq_ok (by decide) (by decide)
  have hback : unpack [0x15] = .error (.outOfBounds 0 1) := by
    have hcode : AtomCode.ofByte? 0x15 = some (.nonnegative 1) := by decide
    rw [unpack, if_neg (by decide), unpackFrom, Element.read_of_ofByte? (by decide) hcode]
    rfl
  have hboth : unpack ([0x02, 0x61, 0x00] ++ [0x15]) = _ :=
    unpack_append hfront (by decide) (by decide)
  rw [hback] at hboth
  exact ⟨hfront, by decide, by decide, hback, hboth⟩

end OrderedKey.Tuple
