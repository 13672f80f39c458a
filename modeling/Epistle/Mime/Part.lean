import Epistle.Header.EncodedWord
import Epistle.Header.Field
import Epistle.Mime.Mint
import Epistle.Mime.Resource
import Epistle.Text.Quoted

/-!
The body of a letter as a tree of parts, each written as fields of its own and a body. Containers
take their boundaries from the mint, the outer ones first; until then they carry none.
-/

namespace Epistle

structure Message where
  octets : Octets
  deriving DecidableEq, Repr

/-- A part, where `β` is what containers know of their boundary. -/
inductive Part (β : Type) where
  | text (subtype body : Text)
  | resource (resource : Resource) (inPlace : Bool)
  | message (message : Message)
  | multipart (subtype : Text) (boundary : β) (parts : List (Part β))
  deriving Repr

namespace Part

open LineEnding (cr lf crlf)

/-- A container for the parts; one part stands for itself, and none for nothing. -/
def container? (subtype : Text) : List (Part Unit) → Option (Part Unit)
  | [] => none
  | [part] => some part
  | parts => some (.multipart subtype () parts)

mutual

def stamp : Part Unit → Minting (Part Text)
  | .text subtype body => pure (.text subtype body)
  | .resource r inPlace => pure (.resource r inPlace)
  | .message m => pure (.message m)
  | .multipart subtype () parts => do
    let boundary ← Mint.boundary
    let parts ← stampAll parts
    pure (.multipart subtype boundary parts)

def stampAll : List (Part Unit) → Minting (List (Part Text))
  | [] => pure []
  | part :: rest => do
    let part ← stamp part
    let rest ← stampAll rest
    pure (part :: rest)

end

def parameter (name : Text) : Text := Quoted.escape (Text.withoutControls name)

def withParameter (head key : Text) : Option Text → Text
  | none => head
  | some name => head ++ "; ".toList ++ key ++ "=\"".toList ++ name ++ ['"']

def textEncoding (body : Text) : Text :=
  if LineEnding.isSevenBit body then "7bit" else "base64"

def textBody (body : Text) : Octets :=
  if LineEnding.isSevenBit body then LineEnding.expand (Utf8.encode body)
  else Utf8.encode (Base64.encodeWrapped (Utf8.encode body))

def fields : Part Text → List Field
  | .text subtype body =>
    [.ofText "Content-Type" ("text/".toList ++ subtype ++ "; charset=utf-8".toList),
      .ofText "Content-Transfer-Encoding" (textEncoding body)]
  | .resource r inPlace =>
    let name := r.name.map parameter
    let reference := match name with
      | some n => if inPlace then [Field.ofText "Content-ID" (['<'] ++ n ++ ['>'])] else []
      | none => []
    .ofText "Content-Type" (withParameter r.source.contentType "name" name) :: reference ++
      [.ofText "Content-Disposition"
          (withParameter (if inPlace then "inline" else "attachment") "filename" name),
        .ofText "Content-Transfer-Encoding" "base64"]
  | .message _ => [.ofText "Content-Type" "message/rfc822"]
  | .multipart subtype boundary _ =>
    [.ofText "Content-Type"
      (withParameter ("multipart/".toList ++ subtype) "boundary" (some boundary))]

def delimiter (boundary : Text) : Octets := Utf8.encode ("--".toList ++ boundary)

mutual

/-- What stands below the fields of a part and the empty line. -/
def body : Part Text → Octets
  | .text _ body => textBody body
  | .resource r _ => Utf8.encode (Base64.encodeWrapped r.source.data)
  | .message m => m.octets
  | .multipart _ boundary parts => sections boundary parts

def sections (boundary : Text) : List (Part Text) → Octets
  | [] => delimiter boundary ++ [0x2D, 0x2D] ++ crlf
  | part :: rest =>
    delimiter boundary ++ crlf ++
      (Field.writeAll (fields part) ++ crlf ++ body part) ++ crlf ++ sections boundary rest

end

def write (part : Part Text) : Octets := Field.writeAll part.fields ++ crlf ++ part.body

end Part
end Epistle
