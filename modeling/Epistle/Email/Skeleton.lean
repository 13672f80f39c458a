import Epistle.Address.Format
import Epistle.Email.Basic

/-!
The skeleton of a reply: a message that says no more than whom the reply goes to, under which
subject, and which thread it belongs to.
-/

namespace Epistle

variable [Charsets]

namespace Skeleton

/-- Keeps the recipients whose address, ASCII case aside, has not been seen, and remembers them. -/
def keepNew (seen : List Text) : List Recipient → List Recipient × List Text
  | [] => ([], seen)
  | r :: rest =>
    let key := Text.lowerAscii r.address
    if key ∈ seen then keepNew seen rest
    else
      let (kept, seen) := keepNew (seen ++ [key]) rest
      (r :: kept, seen)

/-- Whom a reply goes to, and who gets a copy. -/
def addressees (fs : List Field) (toAll : Bool) : List Recipient × List Recipient :=
  let replyTo := Recipient.ofFields fs "Reply-To"
  let first := if replyTo = [] then Recipient.ofFields fs "From" else replyTo
  let (senders, seen) := keepNew [] first
  if toAll then
    let (others, seen) := keepNew seen (Recipient.ofFields fs "To")
    let (copies, _) := keepNew seen (Recipient.ofFields fs "Cc")
    (senders ++ others, copies)
  else (senders, [])

/-- The subject of a reply, which says so once however often one replies. -/
def subject (s : Text) : Text :=
  if Text.lowerAscii (s.take 4) = "re: ".toList then s else "Re: ".toList ++ s

/-- The identifier of the message that is replied to, if a field may hold it. -/
def messageId? (fs : List Field) : Option Text :=
  ((Field.textOf? fs "Message-ID").map Text.trim).filter fun id => id ≠ [] ∧ !Text.hasControl id

/-- The thread before the message: its references, or else what it replied to. -/
def thread (fs : List Field) : List Text :=
  let refs := (Field.textOf? fs "References").or (Field.textOf? fs "In-Reply-To")
  (Text.words (refs.getD [])).filter fun id => !Text.hasControl id

def placeholderSender : Text := "ignore@ignore.ignore"
def placeholderBody : Text := "ignore"

def listField (name : Text) (rs : List Recipient) : List Field :=
  if rs = [] then [] else [Field.ofText name (Recipient.formatAll rs)]

def subjectField (fs : List Field) : List Field :=
  ((Field.textOf? fs "Subject").map fun s =>
    Field.ofText "Subject" (EncodedWord.encode (subject s))).toList

def threadFields (fs : List Field) : List Field :=
  match messageId? fs with
  | none => []
  | some id =>
    [Field.ofText "In-Reply-To" id,
      Field.ofText "References" (Text.joinWith [' '] (thread fs ++ [id]))]

def fields (fs : List Field) (toAll : Bool) : List Field :=
  let (direct, copies) := addressees fs toAll
  [Field.ofText "From" placeholderSender] ++ listField "To" direct ++ listField "Cc" copies ++
    subjectField fs ++ threadFields fs ++
    [Field.ofText "MIME-Version" "1.0", Field.ofText "Content-Type" "text/plain; charset=utf-8"]

end Skeleton

/-- The skeleton of a reply to `m`; a message without fields has none. -/
def Message.reply (m : Message) (toAll : Bool) : Except ReadError Message :=
  match Field.readBlock m.octets with
  | .error e => .error (.malformed e)
  | .ok ([], _) => .error .noFields
  | .ok (fs, _) =>
    .ok ⟨Field.writeAll (Skeleton.fields fs toAll) ++ LineEnding.crlf ++
      Utf8.encode Skeleton.placeholderBody⟩

def Message.header (m : Message) (name : Text) : Except ReadError (Option Text) :=
  match Field.readBlock m.octets with
  | .error e => .error (.malformed e)
  | .ok (fs, _) => .ok (Field.textOf? fs name)

def Message.subject (m : Message) : Except ReadError (Option Text) := m.header "Subject"

def Message.display (m : Message) : Text := Utf8.decode m.octets

end Epistle
