import OrderedKey.Bytes

/-!
# UTF-8

Text is held in a key as UTF-8, whose byte order is the order of the
characters. `encode` writes it and `decode` reads it, and a reader of
foreign bytes has to say *where* they stop being text, so `decode` is a
machine that takes one byte at a time and knows, at each, what it may
still become.

Between characters the machine waits for a lead byte. The lead byte fixes
how many continuation bytes are due, and it may narrow the range of the
first of them: the ranges behind `0xE0` and `0xF0` leave out spellings
longer than need be, those behind `0xED` and `0xF4` leave out surrogates
and what lies beyond the last character. A character that is being read is
a `Pending`. The first byte that fits nowhere is a `Fault.invalid`, which
counts the bytes of the broken character that did fit; bytes that end
inside a character are a `Fault.incomplete`. Both name the index at which
the character began, which is the length of the longest readable part.
-/

namespace OrderedKey.Utf8

/-- The bytes of a text. -/
def encode (text : String) : Bytes := text.toList.flatMap String.utf8EncodeChar

/-- Why bytes are not a text. -/
inductive Fault where
  /-- The `length` bytes from `index` on begin no character, or begin one and
  are followed by a byte that cannot continue it. -/
  | invalid (length index : Nat)
  /-- The bytes end inside the character that begins at `index`. -/
  | incomplete (index : Nat)
deriving DecidableEq

/-- The fault in words. -/
def Fault.message : Fault → String
  | .invalid length index => s!"invalid utf-8 sequence of {length} bytes from index {index}"
  | .incomplete index => s!"incomplete utf-8 byte sequence from index {index}"

/-- A character of which some bytes have been read. -/
structure Pending where
  /-- How many bytes have been read. -/
  size : Nat
  /-- How many are still due. -/
  due : Nat
  /-- The least byte that may come next. -/
  low : UInt8
  /-- The greatest byte that may come next. -/
  high : UInt8
  /-- The bits of the code point that have been read. -/
  code : Nat
deriving DecidableEq

namespace Pending

/-- A character of which the first byte has been read; there is none when no
character begins with it. -/
def ofLead? (b : UInt8) : Option Pending :=
  if b < 0x80 then some ⟨1, 0, 0x80, 0xBF, b.toNat⟩
  else if b < 0xC2 then none
  else if b < 0xE0 then some ⟨1, 1, 0x80, 0xBF, b.toNat - 0xC0⟩
  else if b < 0xF0 then
    some ⟨1, 2, if b = 0xE0 then 0xA0 else 0x80, if b = 0xED then 0x9F else 0xBF,
      b.toNat - 0xE0⟩
  else if b < 0xF5 then
    some ⟨1, 3, if b = 0xF0 then 0x90 else 0x80, if b = 0xF4 then 0x8F else 0xBF,
      b.toNat - 0xF0⟩
  else none

/-- The character with one more byte read, when the byte continues it. -/
def continue? (p : Pending) (b : UInt8) : Option Pending :=
  if p.low ≤ b ∧ b ≤ p.high then
    some ⟨p.size + 1, p.due - 1, 0x80, 0xBF, 64 * p.code + (b.toNat - 0x80)⟩
  else none

end Pending

/-- What has been read of a text. -/
structure State where
  /-- The finished characters, the latest first. -/
  chars : List Char
  /-- How many bytes the finished characters took. -/
  size : Nat
  /-- The character that is not finished, if there is one. -/
  pending : Option Pending

namespace State

/-- Nothing has been read. -/
def start : State := ⟨[], 0, none⟩

/-- Takes in the character that is being read, as finished when no byte of it
is due any more. -/
def settle (s : State) (p : Pending) : State :=
  if p.due = 0 then ⟨Char.ofNat p.code :: s.chars, s.size + p.size, none⟩
  else ⟨s.chars, s.size, some p⟩

/-- Reads one byte. -/
def step (s : State) (b : UInt8) : Except Fault State :=
  match s.pending with
  | none =>
    match Pending.ofLead? b with
    | some p => .ok (s.settle p)
    | none => .error (.invalid 1 s.size)
  | some p =>
    match p.continue? b with
    | some q => .ok (s.settle q)
    | none => .error (.invalid p.size s.size)

/-- The text that has been read, when it does not end inside a character. -/
def finish (s : State) : Except Fault String :=
  match s.pending with
  | none => .ok (String.ofList s.chars.reverse)
  | some _ => .error (.incomplete s.size)

end State

/-- The text that the bytes write, or the first fault in them. -/
def decode (bytes : Bytes) : Except Fault String :=
  match bytes.foldlM State.step State.start with
  | .error fault => .error fault
  | .ok s => s.finish

/-- A surrogate breaks off behind its lead byte, which its second byte cannot
continue. -/
example : decode [0xED, 0xA0, 0x80] = .error (.invalid 1 0) := rfl

/-- Two bytes of the broken character fit, and the third does not. -/
example : decode [0x61, 0xF0, 0x9F, 0x41] = .error (.invalid 2 1) := rfl

/-- The same bytes and no third are only cut short. -/
example : decode [0x61, 0xF0, 0x9F] = .error (.incomplete 1) := rfl

end OrderedKey.Utf8
