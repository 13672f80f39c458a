import Epistle.Address.Format
import Epistle.Email.Basic
import Epistle.Header.Name

/-!
A letter as a message. The fields come in a fixed order, custom ones by name, and blind copies are
mentioned nowhere. The body is the alternative of the texts, with the images they refer to around
it, and the attachments and the forwarded message around those.
-/

namespace Epistle
namespace Email

def part (e : Email) : Part Unit :=
  let texts := (e.text.map (Part.text "plain")).toList ++ (e.html.map (Part.text "html")).toList
  let related := (Part.container? "alternative" texts).toList ++
    e.images.map fun r => .resource r true
  let mixed := (Part.container? "related" related).toList ++
    (e.attachments.map fun r => .resource r false) ++ (e.forwarded.map Part.message).toList
  (Part.container? "mixed" mixed).getD (.text "plain" [])

def domainOf? (address : Text) : Option Text :=
  if '@' ∈ address then some (address.reverse.takeWhile (· ≠ '@')).reverse else none

/-- The domain that generated identifiers belong to. -/
def domain (e : Email) : Text :=
  (e.sender.bind fun r => domainOf? r.address).getD "missive.local"

/-- The identifier of the message, generated unless the letter has one. -/
def messageId (e : Email) : Minting Text :=
  match e.id.filter (fun id => !Text.hasControl id) with
  | some id => pure id
  | none => Mint.messageId e.domain

def mailboxField (name : Text) (r : Option Recipient) : List Field :=
  (r.map fun r => Field.ofText name r.format).toList

def listField (e : Email) (role : Role) : List Field :=
  let list := Recipient.formatAll (e.recipients.ofRole role)
  if list = [] then [] else [Field.ofText role.fieldName list]

def subjectField (subject : Option Text) : List Field :=
  (subject.map fun s => Field.ofText "Subject" (EncodedWord.encode s)).toList

/-- The custom headers that are shown. -/
def shownHeaders (e : Email) : List (Text × Text) :=
  e.headers.filter fun (n, _) => !FieldName.isStructural n && FieldName.isValid n

def customFields (e : Email) : List Field :=
  e.shownHeaders.map fun (n, v) => Field.ofText n (EncodedWord.encode v)

def fields (e : Email) (id date : Text) : List Field :=
  [Field.ofText "Message-ID" id, Field.ofText "Date" date] ++
    mailboxField "From" e.sender ++ mailboxField "Reply-To" e.replyTo ++
    listField e .direct ++ listField e .copy ++ subjectField e.subject ++
    mailboxField "Disposition-Notification-To" (e.resolve e.disposition) ++
    mailboxField "Return-Receipt-To" (e.resolve e.receipt) ++
    customFields e ++ [Field.ofText "MIME-Version" "1.0"]

def render (e : Email) : Minting Message := do
  let id ← e.messageId
  let now ← Mint.readClock
  let part ← e.part.stamp
  return ⟨Field.writeAll (e.fields id (Date.format now)) ++ part.write⟩

end Email
end Epistle
