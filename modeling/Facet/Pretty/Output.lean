import Facet.Pretty.Value
import Mathlib.Data.Nat.Notation
import Mathlib.Data.Int.Notation

/-!
# The printer's configuration and its texts

Everything the pretty-printer writes is made of a handful of texts: styled pieces,
indentation, and the renderings of strings, bytes and dates. None of them looks at a
memory.
-/

namespace Facet.Pretty

def usizeMax : ℕ := 2 ^ 64 - 1

/-- The slot of the palette a text is painted in. -/
inductive Style (ι : Type)
  | typeName
  | fieldName
  | variantName
  | punctuation
  | comment
  | redacted
  | keyword
  | number
  | string
  | accentShape (shape : ι)
  | accentByte (byte : UInt8)

structure PrettyPrinter (ι : Type) where
  /-- `usizeMax` is a special value that means indenting with tabs instead of spaces. -/
  indentSize : ℕ := 2
  useColors : Bool := true
  /-- The escape codes that the palette and the terminal put around a text. -/
  paint : Style ι → String → String := fun _ text => text
  listU8AsBytes : Bool := true
  minimalOptionNames : Bool := false
  showDocComments : Bool := false
  maxContentLen : Option ℕ := none
  maxCollectionLen : Option ℕ := none

/-- The shapes that the printer knows by name, and the texts it gets from elsewhere. -/
structure Program (ι ν : Type) where
  shapes : Shapes ι
  stringShape : ι
  u8Shape : ι
  constPtrShape : ι
  /-- The text of a value's identity. -/
  valueId : ν → String
  /-- The standard library's `Debug` text of a string. -/
  escapeDebug : String → String

variable {ι ν : Type}

def times (n : ℕ) (c : Char) : String := String.ofList (List.replicate n c)

/-- The quote character. -/
def quote : Char := Char.ofNat 34

/-- The hashes a raw string needs, plus one, when the text has a quote: the longest run
of hashes after a quote decides. -/
def rawStringHashes : List Char → ℕ
  | [] => 0
  | c :: rest =>
    if c = quote then max (1 + (rest.takeWhile (· == '#')).length) (rawStringHashes rest)
    else rawStringHashes rest

/-- The characters with the byte offsets they start at. -/
def charIndices : ℕ → List Char → List (ℕ × Char)
  | _, [] => []
  | i, c :: rest => (i, c) :: charIndices (i + c.utf8Size) rest

/-- The start and the end of a text of `len` bytes, about `max` bytes together, and the
number of characters between them. -/
def truncateMiddle (s : String) (max : ℕ) : String × ℕ × String :=
  let half := max / 2
  let chars := charIndices 0 s.toList
  let start := chars.takeWhile fun c => c.1 < half
  let last := chars.dropWhile fun c => half < s.utf8ByteSize - c.1
  (String.ofList (start.map Prod.snd), chars.length - start.length - last.length,
    String.ofList (last.map Prod.snd))

def hexByte (byte : UInt8) : String :=
  String.ofList [(byte.toNat / 16).digitChar, (byte.toNat % 16).digitChar]

/-- A number padded with zeros after its sign. -/
def zeroPad (width : ℕ) (n : ℤ) : String :=
  let digits := toString n.natAbs
  if n < 0 then "-" ++ times (width - 1 - digits.length) '0' ++ digits
  else times (width - digits.length) '0' ++ digits

namespace PrettyPrinter

variable (pp : PrettyPrinter ι)

def styled (style : Style ι) (text : String) : String :=
  if pp.useColors then pp.paint style text else text

def indent (depth : ℕ) : String :=
  if pp.indentSize = usizeMax then times depth '\t' else times (depth * pp.indentSize) ' '

/-- A new line, indented. -/
def newline (depth : ℕ) : String := "\n" ++ pp.indent depth

def visibleCollectionLen (len : ℕ) : ℕ := pp.maxCollectionLen.elim len (min len)

def collectionEllipsis (omitted : ℕ) (noun : String) : String :=
  pp.styled .comment ("...(" ++ toString omitted ++ " more " ++ noun ++ ")...")

/-- The doc comments, each followed by the indentation of the next line. -/
def docText (doc : List String) (depth : ℕ) : String :=
  String.join (doc.map fun line => pp.styled .comment ("///" ++ line) ++ pp.newline depth)

/-- A string showing beginning...end. -/
def formatTruncatedStr (s : String) (max : ℕ) : String :=
  let (start, omitted, last) := truncateMiddle s max
  "\"" ++ pp.styled .string start ++ "\"...(" ++ toString omitted ++ " chars)...\""
    ++ pp.styled .string last ++ "\""

/-- The configured maximum, where the length exceeds it. -/
def exceeds (len : ℕ) : Option ℕ := pp.maxContentLen.filter fun max => max < len

/-- A `str` or `String`: truncated, or as a raw string where it holds a quote. -/
def formatStrValue (s : String) : String :=
  match pp.exceeds s.utf8ByteSize with
  | some max => pp.formatTruncatedStr s max
  | none =>
    let hashes := rawStringHashes s.toList
    let pad := times (hashes - 1) '#'
    let quoted := "\"" ++ pp.styled .string s ++ "\""
    if hashes > 0 then "r" ++ pad ++ quoted ++ pad else quoted

/-- A dynamic value's string, escaped where it is not painted. -/
def formatString (P : Program ι ν) (s : String) : String :=
  match pp.exceeds s.utf8ByteSize with
  | some max => pp.formatTruncatedStr s max
  | none => if pp.useColors then "\"" ++ pp.paint .string s ++ "\"" else P.escapeDebug s

def escapedBytes (bytes : List UInt8) : String :=
  String.join (bytes.map fun byte => "\\x" ++ hexByte byte)

/-- A dynamic value's bytes, with the middle left out where they are too many. -/
def formatBytes (bytes : List UInt8) : String :=
  match pp.exceeds bytes.length with
  | some max =>
    let half := max / 2
    "b\"" ++ escapedBytes (bytes.take half) ++ "\"...("
      ++ toString (bytes.length - half - half) ++ " bytes)...b\""
      ++ escapedBytes (bytes.drop (bytes.length - half)) ++ "\""
  | none => "b\"" ++ escapedBytes bytes ++ "\""

end PrettyPrinter

namespace DynDateTime

variable (dt : DynDateTime)

def date : String := zeroPad 4 dt.year ++ "-" ++ zeroPad 2 dt.month ++ "-" ++ zeroPad 2 dt.day

def time : String :=
  let hms := zeroPad 2 dt.hour ++ ":" ++ zeroPad 2 dt.minute ++ ":" ++ zeroPad 2 dt.second
  if dt.nanos > 0 then hms ++ "." ++ zeroPad 9 dt.nanos else hms

def offsetText (offsetMinutes : ℤ) : String :=
  if offsetMinutes = 0 then "Z"
  else
    let abs := offsetMinutes.natAbs
    (if offsetMinutes ≥ 0 then "+" else "-") ++ zeroPad 2 (abs / 60 : ℕ) ++ ":"
      ++ zeroPad 2 (abs % 60 : ℕ)

def text : String :=
  match dt.kind with
  | .offset offsetMinutes => dt.date ++ "T" ++ dt.time ++ offsetText offsetMinutes
  | .localDateTime => dt.date ++ "T" ++ dt.time
  | .localDate => dt.date
  | .localTime => dt.time

end DynDateTime

end Facet.Pretty
