import Epistle.Text.Blank
import Epistle.Text.Utf8

/-!
The character encodings that a label can name. The labels of ASCII and Latin-1 all mean
windows-1252, as in the encoding standard of the web; unassigned octets of it are controls.
UTF-7 and the other encodings of that standard are tables of no interest here: a reader may know
any of them, and all that is used of one is that each of its characters takes an octet at least.
-/

namespace Epistle

structure Decoder where
  decode : Octets → Text
  length_le : ∀ bytes, (decode bytes).length ≤ bytes.length

/-- The further encodings that a reader knows. -/
class Charsets where
  /-- The encoding of a label in lower case. -/
  decoder? : Text → Option Decoder

/-- A reader that knows no further ones. -/
instance (priority := low) Charsets.builtin : Charsets := ⟨fun _ => none⟩

inductive Charset where
  | utf8 | windows1252 | utf16le | utf16be
  /-- What labels that no one should use stand for: it hides the text. -/
  | replacement
  | further (decoder : Decoder)

namespace Charset

/-- The windows-1252 characters of the octets 0x80 to 0x9F. -/
def windowsSupplement : List Nat :=
  [0x20AC, 0x81, 0x201A, 0x192, 0x201E, 0x2026, 0x2020, 0x2021,
    0x2C6, 0x2030, 0x160, 0x2039, 0x152, 0x8D, 0x17D, 0x8F,
    0x90, 0x2018, 0x2019, 0x201C, 0x201D, 0x2022, 0x2013, 0x2014,
    0x2DC, 0x2122, 0x161, 0x203A, 0x153, 0x9D, 0x17E, 0x178]

def ofWindows1252 (b : UInt8) : Char :=
  let n := b.toNat
  if 0x80 ≤ n ∧ n < 0xA0 then Char.ofNat (windowsSupplement.getD (n - 0x80) n) else Char.ofNat n

def ofLatin1 (b : UInt8) : Char := Char.ofNat b.toNat

/-- ASCII octets; any other becomes the replacement character. -/
def ofAscii (b : UInt8) : Char := if b.toNat < 0x80 then Char.ofNat b.toNat else Utf8.replacement

/-- The two-octet units of `bytes`; an octet left over is `none`. -/
def units (bigEndian : Bool) : Octets → List (Option Nat)
  | [] => []
  | [_] => [none]
  | a :: b :: rest =>
    some (if bigEndian then a.toNat * 256 + b.toNat else b.toNat * 256 + a.toNat) ::
      units bigEndian rest

/-- Reads UTF-16 units; `lead` is a high surrogate that waits for its partner. A surrogate
without a partner, or an octet without one, becomes one replacement character. -/
def ofUnits (lead : Option Nat) : List (Option Nat) → Text
  | [] => if lead.isSome then [Utf8.replacement] else []
  | none :: _ => [Utf8.replacement]
  | some u :: rest =>
    match lead with
    | some h =>
      if 0xDC00 ≤ u ∧ u < 0xE000 then
        Char.ofNat (0x10000 + (h - 0xD800) * 0x400 + (u - 0xDC00)) :: ofUnits none rest
      else if 0xD800 ≤ u ∧ u < 0xDC00 then Utf8.replacement :: ofUnits (some u) rest
      else Utf8.replacement :: Char.ofNat u :: ofUnits none rest
    | none =>
      if 0xD800 ≤ u ∧ u < 0xDC00 then ofUnits (some u) rest
      else if 0xDC00 ≤ u ∧ u < 0xE000 then Utf8.replacement :: ofUnits none rest
      else Char.ofNat u :: ofUnits none rest

def decode : Charset → Octets → Text
  | utf8, bytes => Utf8.decode bytes
  | windows1252, bytes => bytes.map ofWindows1252
  | utf16le, bytes => ofUnits none (units false bytes)
  | utf16be, bytes => ofUnits none (units true bytes)
  | replacement, bytes => if bytes = [] then [] else [Utf8.replacement]
  | further decoder, bytes => decoder.decode bytes

def utf8Labels : List String :=
  ["utf-8", "utf8", "unicode-1-1-utf-8", "unicode11utf8", "unicode20utf8", "x-unicode20utf8"]

def windows1252Labels : List String :=
  ["ansi_x3.4-1968", "ascii", "cp1252", "cp819", "csisolatin1", "ibm819", "iso-8859-1",
    "iso-ir-100", "iso8859-1", "iso88591", "iso_8859-1", "iso_8859-1:1987", "l1", "latin1",
    "us-ascii", "windows-1252", "x-cp1252"]

def utf16leLabels : List String :=
  ["csunicode", "iso-10646-ucs-2", "ucs-2", "unicode", "unicodefeff", "utf-16", "utf-16le"]

def utf16beLabels : List String := ["unicodefffe", "utf-16be"]

def replacementLabels : List String :=
  ["csiso2022kr", "hz-gb-2312", "iso-2022-cn", "iso-2022-cn-ext", "iso-2022-kr", "replacement"]

def isLabelBlank (c : Char) : Bool := c ∈ ['\t', '\n', '\x0c', '\r', ' ']

/-- Labels are compared without their surrounding white space and up to ASCII case. -/
def normalLabel (label : Text) : Text :=
  Text.lowerAscii (Text.dropEndWhile isLabelBlank (label.dropWhile isLabelBlank))

def isNamed (labels : List String) (label : Text) : Bool :=
  labels.any (·.toList == normalLabel label)

def ofLabel? [Charsets] (label : Text) : Option Charset :=
  if isNamed utf8Labels label then some utf8
  else if isNamed windows1252Labels label then some windows1252
  else if isNamed utf16leLabels label then some utf16le
  else if isNamed utf16beLabels label then some utf16be
  else if isNamed replacementLabels label then none
  else (Charsets.decoder? (normalLabel label)).map further

/-- The encoding of a body, which may also be the replacement. -/
def ofBodyLabel? [Charsets] (label : Text) : Option Charset :=
  if isNamed replacementLabels label then some replacement else ofLabel? label

/-- A byte order mark at the front decides the encoding and is no part of the text. -/
def ofMark? : Octets → Option (Charset × Octets)
  | 0xEF :: 0xBB :: 0xBF :: rest => some (utf8, rest)
  | 0xFF :: 0xFE :: rest => some (utf16le, rest)
  | 0xFE :: 0xFF :: rest => some (utf16be, rest)
  | _ => none

/-- The text of a body labelled `label`: a byte order mark wins over the label, and under an
unknown label only ASCII is kept. -/
def decodeLabelled [Charsets] (label : Text) (bytes : Octets) : Text :=
  match ofBodyLabel? label with
  | none => bytes.map ofAscii
  | some charset =>
    match ofMark? bytes with
    | some (marked, rest) => marked.decode rest
    | none => charset.decode bytes

end Charset
end Epistle
