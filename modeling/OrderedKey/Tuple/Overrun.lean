import OrderedKey.Element

/-!
# Tuples that run on

The tuple of one text `"a"` and that of the text `"a\0b"` have nothing to do
with one another, yet the bytes of the first are the beginning of the bytes of
the second: the terminator of `"a"` stands where the longer text has its
`0x00`. The longer text *overruns* the shorter one. So does a nested tuple one
that stops where it has an element without value, since inside a nested tuple
that element too is written as a marked `0x00`.

`Tuple.overruns` says it of whole tuples. Up to some place the two have the
same elements; there the one ends, with an element that the other's overruns,
and the other may go on in any way. That is said of the values alone, and it is
the only way for a key to begin with that of a tuple without being the key of a
tuple that goes on where this one ends.
-/

namespace OrderedKey

/-- Whether an element holds what another does and, right behind that, a zero:
a zero byte in a byte string, a zero character in a text, an element without
value in a nested tuple. -/
def Element.overruns : Element → Element → Bool
  | .atom (.bytes longer), .atom (.bytes content) => decide (content ++ [terminator] <+: longer)
  | .atom (.string longer), .atom (.string text) =>
    decide (text.toList ++ ['\x00'] <+: longer.toList)
  | .tuple longer, .tuple elements => decide (elements ++ [null] <+: longer)
  | _, _ => false

/-- Whether a tuple has the elements of another up to its last, and there one
that overruns it. -/
def Tuple.overruns : Tuple → Tuple → Bool
  | b :: _, [a] => b.overruns a
  | b :: q, a :: p => b == a && overruns q p
  | _, _ => false

namespace Tuple

/-- `("a\0b", 1)` overruns `("a")`. -/
example : overruns [.atom (.string "a\x00b"), .atom (.int 1)] [.atom (.string "a")] = true := by
  decide

end Tuple

end OrderedKey
