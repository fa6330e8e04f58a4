import OrderedKey.Bytes
import OrderedKey.Bytes.BigEndian
import OrderedKey.Bytes.Escaped
import OrderedKey.Bytes.Range
import OrderedKey.Text.Utf8
import OrderedKey.Text.Utf8.Lemmas
import OrderedKey.Number.Integer
import OrderedKey.Number.SignOrder
import OrderedKey.Number.Word
import OrderedKey.TypeCode
import OrderedKey.Versionstamp
import OrderedKey.KeyError
import OrderedKey.Atom
import OrderedKey.Atom.Read
import OrderedKey.Element
import OrderedKey.Element.Collation
import OrderedKey.Element.Conversion
import OrderedKey.Element.Pack
import OrderedKey.Element.Read
import OrderedKey.Tuple.Commit
import OrderedKey.Tuple.Layout
import OrderedKey.Tuple.Overrun
import OrderedKey.Tuple.Placeholder
import OrderedKey.Tuple.Spelling
import OrderedKey.Tuple.Unpack
import OrderedKey.Subspace
import OrderedKey.Proofs.AtomOrder
import OrderedKey.Proofs.AtomReading
import OrderedKey.Proofs.Collation
import OrderedKey.Proofs.Reading
import OrderedKey.Proofs.Survey
import OrderedKey.Proofs.LayoutSurvey
import OrderedKey.Proofs.RoundTrip
import OrderedKey.Proofs.ShortestSpelling
import OrderedKey.Proofs.FirstPlaceholder
import OrderedKey.Proofs.FoundPlaceholder
import OrderedKey.Proofs.Scan
import OrderedKey.Proofs.Locate
import OrderedKey.Proofs.Grammar
import OrderedKey.Proofs.UniqueSpelling
import OrderedKey.Proofs.Ranges
import OrderedKey.Proofs.Composition
import OrderedKey.Proofs.Overrun
import OrderedKey.Proofs.Isolation
import OrderedKey.Proofs.Hierarchy
import OrderedKey.Proofs.OnePlaceholder
import OrderedKey.Proofs.Truncation
import OrderedKey.Proofs.LeastAbove
import OrderedKey.Proofs.Walk
import OrderedKey.Proofs.Blame
import OrderedKey.Proofs.IntegerCoding
import OrderedKey.Proofs.VersionstampBytes
import OrderedKey.Proofs.FieldScan
