import Epistle.Text.Charset
import Epistle.Transfer.Base64
import Epistle.Transfer.QuotedPrintable

/-!
Encoded words, `=?charset?encoding?text?=`, which carry any text in a header of printable ASCII.
Writing cuts long text into several words, between characters and as late as the length of a
word allows; reading takes one word at a time.
-/

namespace Epistle
namespace EncodedWord

def longest : Nat := 75

/-- The octets that fit one word: the delimiters and names take twelve characters, and base64
needs whole groups of four. -/
def payload : Nat := (longest - 12) / 4 * 3

/-- Cuts text into runs of whole characters of at most `payload` octets; `run` is the run being
filled. -/
def runsFrom (run : Text) : Text → List Text
  | [] => [run]
  | c :: rest =>
    if Utf8.size run + Utf8.width c > payload then run :: runsFrom [c] rest
    else runsFrom (run ++ [c]) rest

def write (run : Text) : Text :=
  "=?UTF-8?B?".toList ++ Base64.encode (Utf8.encode run) ++ "?=".toList

def encode (t : Text) : Text :=
  if t.all Text.isPrintable then t
  else Text.joinWith [' '] ((runsFrom [] t).map write)

/-- The text between the delimiters in its quoted form: an underscore is a space, and blanks at
the end are part of the text. -/
def decodeQuoted (t : Text) : Octets :=
  let spaced := t.map fun c => if c = '_' then ' ' else c
  let body := Text.trimEnd spaced
  QuotedPrintable.decode (Utf8.encode body) ++ Utf8.encode (spaced.drop body.length)

def decode? [Charsets] (inner : Text) : Option Text := do
  let (label, rest) ← Text.cut? '?' inner
  let (encoding, body) ← Text.cut? '?' rest
  let bytes ←
    if encoding = ['B'] ∨ encoding = ['b'] then Base64.decodeWord? (Utf8.encode body)
    else if encoding = ['Q'] ∨ encoding = ['q'] then some (decodeQuoted body)
    else none
  let charset ← Charset.ofLabel? label
  return charset.decode bytes

end EncodedWord
end Epistle
