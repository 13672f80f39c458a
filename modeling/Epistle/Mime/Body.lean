import Epistle.Mime.Entity
import Epistle.Transfer.LineEnding

/-!
What a leaf holds: its octets with the transfer encoding undone, the text that they stand for, and
what its fields say about how to show it.
-/

namespace Epistle

inductive TransferEncoding where
  | identity | base64 | quotedPrintable
  deriving DecidableEq, Repr

namespace TransferEncoding

/-- Any other name stands for a body as it is. -/
def ofName (name : Text) : TransferEncoding :=
  let name := Case.lower name
  if name = "base64".toList then base64
  else if name = "quoted-printable".toList then quotedPrintable
  else identity

def decode : TransferEncoding → Octets → Except ParseError Octets
  | base64, bytes => match Base64.decodeBody? bytes with
    | some decoded => .ok decoded
    | none => .error .badBase64
  | quotedPrintable, bytes => .ok (QuotedPrintable.decode bytes)
  | identity, bytes => .ok bytes

end TransferEncoding

namespace Leaf

variable [Charsets]

def encoding (l : Leaf) : TransferEncoding :=
  ((Field.textOf? l.fields "Content-Transfer-Encoding").map TransferEncoding.ofName).getD .identity

def data (l : Leaf) : Except ParseError Octets := l.encoding.decode l.body

def text (l : Leaf) : Except ParseError Text :=
  l.data.map (Charset.decodeLabelled l.type.charset)

def disposition (l : Leaf) : Parameterized :=
  ((Field.textOf? l.fields "Content-Disposition").map Parameterized.read).getD ⟨"inline", []⟩

def isAttachment (l : Leaf) : Bool := Case.lower l.disposition.value == "attachment".toList

/-- The name of the file that the content was or should be stored in. -/
def fileName? (l : Leaf) : Option Text :=
  (l.disposition.params.get? "filename").or (l.type.params.get? "name")

/-- The identifier by which other parts refer to this one, without its angle brackets. -/
def contentId? (l : Leaf) : Option Text :=
  ((Field.textOf? l.fields "Content-ID").map fun t =>
    Text.dropEndWhile (· == '>') ((Text.trim t).dropWhile (· == '<'))).filter (· ≠ [])

def typeName (l : Leaf) : Text := Text.lowerAscii l.type.name

end Leaf
end Epistle
