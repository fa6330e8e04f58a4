import OrderedKey.Element.Pack

/-!
# Where things stand in a key

The layout of a tuple is read off the tuple, not off its bytes: it lists,
from left to right and from the outside in, the placeholders and the
nested tuples, each with the place it has in the key. So it says where a
reader of the key has to come across them, without reading anything; that
they are there is `Tuple.standsIn_of_mem_layout`.
-/

namespace OrderedKey

/-- A place in a key. -/
inductive Mark where
  /-- The first byte of a placeholder that the store writes over, which
  stands right behind the placeholder's code. -/
  | placeholder (offset : Nat)
  /-- The code of a nested tuple, and how many nested tuples it is inside. -/
  | nested (offset depth : Nat)
deriving DecidableEq

namespace Mark

/-- The offset of a placeholder. -/
def placeholder? : Mark → Option Nat
  | placeholder offset => some offset
  | nested _ _ => none

/-- The offset of a nested tuple that is inside `limit` others. -/
def tooDeep? (limit : Nat) : Mark → Option Nat
  | placeholder _ => none
  | nested offset depth => if depth = limit then some offset else none

/-- The offsets of the placeholders in front of the first nested tuple that is
inside `limit` others, in order. -/
def placeholdersWithin (limit : Nat) (marks : List Mark) : List Nat :=
  (marks.takeWhile fun mark => (mark.tooDeep? limit).isNone).filterMap placeholder?

/-- Where no nested tuple is too deep, these are all placeholders. -/
theorem placeholdersWithin_eq {limit : Nat} {marks : List Mark}
    (h : marks.filterMap (tooDeep? limit) = []) :
    placeholdersWithin limit marks = marks.filterMap placeholder? := by
  have hnone : ∀ mark ∈ marks, (mark.tooDeep? limit).isNone = true := by
    intro mark hmark
    rw [List.filterMap_eq_nil_iff.1 h mark hmark]
    rfl
  rw [placeholdersWithin, ← List.append_nil marks, List.takeWhile_append_of_pos hnone,
    List.takeWhile_nil]

end Mark

/-- The bytes of a placeholder are at `o`, behind one of the two codes of a
versionstamp. -/
def Stands (s : Bytes) (o : Nat) : Prop :=
  ∃ front hasUser back, o = front.length + 1 ∧
    s = front ++ (AtomCode.versionstamp hasUser).toByte
      :: (List.replicate (Versionstamp.commitSize + Versionstamp.batchSize) 0xFF ++ back)

namespace Stands

variable {s : Bytes} {o : Nat}

/-- They are right behind the code of the versionstamp. -/
theorem pack_versionstamp {v : Versionstamp} (h : v.isPlaceholder = true) :
    Stands (Atom.versionstamp v).pack 1 := by
  obtain ⟨user, huser⟩ : ∃ user, v.toBytes = v.transactionBytes.bytes ++ user := ⟨_, rfl⟩
  refine ⟨[], v.userVersion.isSome, user, rfl, ?_⟩
  rw [← Versionstamp.isPlaceholder_iff.1 h, ← huser]
  rfl

theorem append_left (front : Bytes) (h : Stands s o) : Stands (front ++ s) (front.length + o) := by
  obtain ⟨front', hasUser, back, rfl, rfl⟩ := h
  refine ⟨front ++ front', hasUser, back, ?_, ?_⟩
  · rw [List.length_append, Nat.add_assoc]
  · rw [List.append_assoc]

theorem append_right (rest : Bytes) (h : Stands s o) : Stands (s ++ rest) o := by
  obtain ⟨front, hasUser, back, rfl, rfl⟩ := h
  refine ⟨front, hasUser, back ++ rest, rfl, ?_⟩
  rw [List.append_assoc, List.cons_append, List.append_assoc]

/-- There is room for the bytes of a commit. -/
theorem add_length_le (h : Stands s o) (stamp : Versionstamp.TransactionBytes) :
    o + stamp.bytes.length ≤ s.length := by
  obtain ⟨front, hasUser, back, rfl, rfl⟩ := h
  rw [stamp.length_bytes, List.length_append, List.length_cons, List.length_append,
    List.length_replicate]
  omega

theorem ne_nil (h : Stands s o) : s ≠ [] := by
  obtain ⟨front, hasUser, back, rfl, rfl⟩ := h
  exact List.append_ne_nil_of_right_ne_nil _ (List.cons_ne_nil _ _)

/-- What stands in the front of some bytes does not depend on the others. -/
theorem of_append {front rest : Bytes} (h : Stands (front ++ rest) o)
    (hroom : o + (Versionstamp.commitSize + Versionstamp.batchSize) ≤ front.length) :
    Stands front o := by
  obtain ⟨front', hasUser, back, rfl, hbytes⟩ := h
  let head := front' ++ (AtomCode.versionstamp hasUser).toByte
    :: List.replicate (Versionstamp.commitSize + Versionstamp.batchSize) 0xFF
  have hhead : head <+: front ++ rest := ⟨back, by rw [hbytes, List.append_assoc]; rfl⟩
  have hlength : head.length
      = front'.length + 1 + (Versionstamp.commitSize + Versionstamp.batchSize) := by
    rw [List.length_append, List.length_cons, List.length_replicate]
    omega
  obtain ⟨back', hfront⟩ := List.prefix_of_prefix_length_le hhead (List.prefix_append front rest)
    (hlength ▸ hroom)
  refine ⟨front', hasUser, back', rfl, ?_⟩
  rw [← hfront, List.append_assoc]
  rfl

/-- The bytes, one by one. -/
theorem bytes (h : Stands s o) :
    1 ≤ o ∧ o + (Versionstamp.commitSize + Versionstamp.batchSize) ≤ s.length
      ∧ (s[o - 1]? = some 0x32 ∨ s[o - 1]? = some 0x33)
      ∧ (s.drop o).take (Versionstamp.commitSize + Versionstamp.batchSize)
        = List.replicate (Versionstamp.commitSize + Versionstamp.batchSize) 0xFF := by
  obtain ⟨front, hasUser, back, rfl, rfl⟩ := h
  refine ⟨Nat.succ_pos _, ?_, ?_, ?_⟩
  · rw [List.length_append, List.length_cons, List.length_append, List.length_replicate]
    omega
  · rw [Nat.add_sub_cancel, List.getElem?_append_right (Nat.le_refl _), Nat.sub_self]
    cases hasUser with
    | false => exact Or.inl rfl
    | true => exact Or.inr rfl
  · rw [List.drop_length_add_append, List.drop_succ_cons, List.drop_zero]
    exact List.take_left' List.length_replicate

end Stands

/-- What a mark says is so in the bytes. -/
def Mark.StandsIn (s : Bytes) : Mark → Prop
  | .placeholder offset => Stands s offset
  | .nested offset _ => ∃ front back, offset = front.length ∧ s = front ++ nestedCode :: back

namespace Element

mutual

/-- The marks of an element whose code is at `offset`, inside `depth` nested
tuples. -/
def layout (depth offset : Nat) : Element → List Mark
  | .atom a => if a.isPlaceholder then [.placeholder (offset + 1)] else []
  | .tuple elements => .nested offset depth :: layoutNested (depth + 1) (offset + 1) elements

/-- The marks of a row of elements inside a nested tuple, which begins at
`offset`. -/
def layoutNested (depth offset : Nat) : List Element → List Mark
  | [] => []
  | e :: rest =>
    layout depth offset e ++ layoutNested depth (offset + (packNested [e]).length) rest

end

end Element

namespace Tuple

/-- The marks of a tuple that begins at `offset`. -/
def layoutFrom (offset : Nat) : Tuple → List Mark
  | [] => []
  | e :: rest => e.layout 0 offset ++ layoutFrom (offset + e.pack.length) rest

/-- The marks of a tuple. -/
def layout (t : Tuple) : List Mark := layoutFrom 0 t

/-- The offsets of the placeholders, in order. -/
def placeholders (t : Tuple) : List Nat := t.layout.filterMap Mark.placeholder?

/-- The offsets of the nested tuples that are inside `limit` others, in
order. -/
def tooDeep (limit : Nat) (t : Tuple) : List Nat := t.layout.filterMap (Mark.tooDeep? limit)

/-- The offsets of the placeholders in front of the first nested tuple that is
inside `limit` others, in order. -/
def placeholdersWithin (limit : Nat) (t : Tuple) : List Nat :=
  Mark.placeholdersWithin limit t.layout

end Tuple

namespace Element

/-- A first member stands in front of the others. -/
theorem packNested_cons (e : Element) (rest : List Element) :
    packNested (e :: rest) = packNested [e] ++ packNested rest := by
  rw [packNested, packNested, packNested, List.append_nil]

mutual

/-- The marks of an element are in its bytes, wherever these stand. -/
theorem standsIn_of_mem_layout : (e : Element) → {depth : Nat} → {mark : Mark} →
    (front back : Bytes) → mark ∈ e.layout depth front.length →
      mark.StandsIn (front ++ (e.pack ++ back))
  | .atom a, depth, mark, front, back, h => by
    rw [layout] at h
    split at h
    · rename_i hplaceholder
      obtain rfl := List.mem_singleton.1 h
      cases a with
      | versionstamp v =>
        exact ((Stands.pack_versionstamp hplaceholder).append_right back).append_left front
      | _ => cases hplaceholder
    · cases h
  | .tuple elements, depth, mark, front, back, h => by
    rw [layout, List.mem_cons] at h
    rcases h with rfl | h
    · exact ⟨front, _, rfl, rfl⟩
    · have hrow := standsIn_of_mem_layoutNested elements (front ++ [nestedCode])
        ([terminator] ++ back) (by rw [List.length_append]; exact h)
      rw [List.append_assoc] at hrow
      rw [pack, List.cons_append, List.append_assoc]
      exact hrow

/-- And so are those of a row of elements inside a nested tuple. -/
theorem standsIn_of_mem_layoutNested : (row : List Element) → {depth : Nat} → {mark : Mark} →
    (front back : Bytes) → mark ∈ layoutNested depth front.length row →
      mark.StandsIn (front ++ (packNested row ++ back))
  | e :: rest, depth, mark, front, back, h => by
    rw [layoutNested, List.mem_append] at h
    rw [packNested_cons, List.append_assoc]
    rcases h with h | h
    · by_cases hnull : e = null
      · subst hnull
        cases h
      · rw [packNested_cons_of_ne hnull, packNested, List.append_nil]
        exact standsIn_of_mem_layout e front _ h
    · have hrest := standsIn_of_mem_layoutNested rest (front ++ packNested [e]) back
        (by rw [List.length_append]; exact h)
      rw [List.append_assoc] at hrest
      exact hrest

end

mutual

/-- An element has no nested tuple inside `limit` others exactly if it goes no
deeper than that. -/
theorem filterMap_tooDeep_layout {limit depth : Nat} (h : depth ≤ limit) (offset : Nat) :
    (e : Element) → ((e.layout depth offset).filterMap (Mark.tooDeep? limit) = []
      ↔ depth + e.depth ≤ limit)
  | .atom a => by
    refine ⟨fun _ => h, fun _ => ?_⟩
    rw [layout]
    split <;> rfl
  | .tuple elements => by
    rw [layout, List.filterMap_cons, Mark.tooDeep?, Element.depth]
    by_cases hdepth : depth = limit
    · rw [if_pos hdepth]
      refine ⟨fun hnil => (List.cons_ne_nil _ _ hnil).elim, fun hle => ?_⟩
      omega
    · have hrow := filterMap_tooDeep_layoutNested
        (Nat.succ_le_of_lt (Nat.lt_of_le_of_ne h hdepth)) (offset + 1) elements
      rw [if_neg hdepth]
      dsimp only
      rw [hrow, Nat.succ_add, ← Nat.add_succ]

/-- And so for a row of elements inside a nested tuple. -/
theorem filterMap_tooDeep_layoutNested {limit depth : Nat} (h : depth ≤ limit) (offset : Nat) :
    (row : List Element) → ((layoutNested depth offset row).filterMap (Mark.tooDeep? limit) = []
      ↔ depth + depthList row ≤ limit)
  | [] => ⟨fun _ => h, fun _ => rfl⟩
  | e :: rest => by
    rw [layoutNested, List.filterMap_append, List.append_eq_nil_iff,
      filterMap_tooDeep_layout h offset e, filterMap_tooDeep_layoutNested h _ rest, depthList]
    omega

end

end Element

/-- **Every mark stands in the key where the layout has it.** -/
theorem Tuple.standsIn_of_mem_layout {t : Tuple} {mark : Mark} (h : mark ∈ layout t) :
    mark.StandsIn (pack t) := by
  suffices hfrom : ∀ front : Bytes, mark ∈ layoutFrom front.length t →
      mark.StandsIn (front ++ pack t) from hfrom [] h
  clear h
  induction t with
  | nil => exact fun _ h => absurd h List.not_mem_nil
  | cons e rest ih =>
    intro front h
    rw [layoutFrom, List.mem_append] at h
    rw [pack_cons]
    rcases h with h | h
    · exact Element.standsIn_of_mem_layout e front _ h
    · have hrest := ih (front ++ e.pack) (by rw [List.length_append]; exact h)
      rw [List.append_assoc] at hrest
      exact hrest

/-- **A tuple has no nested tuple inside `limit` others exactly if it goes no
deeper than that.** -/
theorem Tuple.tooDeep_eq_nil_iff (limit : Nat) (t : Tuple) :
    tooDeep limit t = [] ↔ depth t ≤ limit := by
  suffices h : ∀ offset, (layoutFrom offset t).filterMap (Mark.tooDeep? limit) = []
      ↔ depth t ≤ limit from h 0
  induction t with
  | nil => exact fun _ => ⟨fun _ => Nat.zero_le _, fun _ => rfl⟩
  | cons e rest ih =>
    intro offset
    have he := Element.filterMap_tooDeep_layout (Nat.zero_le limit) offset e
    rw [Nat.zero_add] at he
    rw [layoutFrom, List.filterMap_append, List.append_eq_nil_iff, he, ih]
    exact Nat.max_le.symm

/-- In a tuple that goes no deeper than the limit these are all placeholders. -/
theorem Tuple.placeholdersWithin_of_depth_le {limit : Nat} {t : Tuple} (h : depth t ≤ limit) :
    placeholdersWithin limit t = placeholders t :=
  Mark.placeholdersWithin_eq ((tooDeep_eq_nil_iff limit t).2 h)

/-- Each of them stands in the key. -/
theorem Tuple.stands_of_mem_placeholdersWithin {limit o : Nat} {t : Tuple}
    (h : o ∈ placeholdersWithin limit t) : Stands (pack t) o := by
  obtain ⟨mark, hmark, ho⟩ := List.mem_filterMap.1 h
  have hstands := standsIn_of_mem_layout ((List.takeWhile_sublist _).mem hmark)
  cases mark with
  | placeholder offset =>
    cases ho
    exact hstands
  | nested offset depth => cases ho

/-- The offset counts the two bytes of the missing value in front. -/
example : Tuple.tooDeep 1 [.tuple [.null, .tuple []]] = [3] := rfl

end OrderedKey
