import OrderedKey.Element.Pack

/-!
# The order of values, said without their keys

`compare` orders elements by their written forms. This module says what
that order is in terms of the values alone, and it is the order one would
ask for.

* Elements of different kinds are ordered by kind: no value, byte strings,
  texts, tuples, integers, floats in single and in double precision, truth
  values, identifiers, versionstamps.
* Within a kind, the values decide. Byte strings and texts are ordered as
  in a dictionary, texts by their UTF-8; integers by size; floats by sign
  and magnitude, so that the negative come first, `-0.0` stands before
  `0.0` and the not-a-number patterns are at the ends; identifiers byte by
  byte, versionstamps by their own order.
* Tuples are ordered element by element. The first pair that differs
  decides, and a tuple that stops first is the smaller one – on the top
  level and inside another tuple alike.
-/

namespace OrderedKey

/-- The place of an atom's kind among the kinds; that of tuples is left
free. -/
def Atom.kindRank : Atom → Nat
  | null => 0
  | bytes _ => 1
  | string _ => 2
  | int _ => 4
  | float _ => 5
  | double _ => 6
  | bool _ => 7
  | uuid _ => 8
  | versionstamp _ => 9

/-- The place of an element's kind among the kinds. -/
def Element.kindRank : Element → Nat
  | .atom a => a.kindRank
  | .tuple _ => 3

/-- The order of atoms: by kind, and within a kind by value. -/
def Atom.collate : Atom → Atom → Ordering
  | .bytes x, .bytes y => compare x y
  | .string x, .string y => compare (Utf8.encode x) (Utf8.encode y)
  | .int x, .int y => compare x.toInt y.toInt
  | .float x, .float y =>
    compare (SignOrder.signed floatHalf x.toNat) (SignOrder.signed floatHalf y.toNat)
  | .double x, .double y =>
    compare (SignOrder.signed doubleHalf x.toNat) (SignOrder.signed doubleHalf y.toNat)
  | .bool x, .bool y => compare x y
  | .uuid x, .uuid y => compare x.bytes y.bytes
  | .versionstamp x, .versionstamp y => compare x y
  | a, b => compare a.kindRank b.kindRank

mutual

/-- The order of elements: by kind, and within a kind by value. -/
def Element.collate : Element → Element → Ordering
  | .atom a, .atom b => a.collate b
  | .tuple s, .tuple t => Element.collateList s t
  | a, b => compare a.kindRank b.kindRank

/-- The order of rows of elements: the first pair that differs decides, and
a row that stops first is the smaller one. -/
def Element.collateList : List Element → List Element → Ordering
  | [], [] => .eq
  | [], _ :: _ => .lt
  | _ :: _, [] => .gt
  | a :: s, b :: t => (Element.collate a b).then (Element.collateList s t)

end

/-- The order of tuples, element by element. -/
def Tuple.collate (s t : Tuple) : Ordering := Element.collateList s t

end OrderedKey
