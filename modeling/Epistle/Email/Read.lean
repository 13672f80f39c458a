import Epistle.Address.Format
import Epistle.Email.Compose
import Epistle.Mime.Body

/-!
A message as a letter. Fields that a letter has a place for are put there, and the others become
custom headers. Of the leaves of the body the first texts and the first message that is no
attachment fill their places, and all that is left becomes an image or an attachment.
-/

namespace Epistle

/-- The places that the leaves of a body fill, each once. -/
structure Slots where
  text : Option Text
  html : Option Text
  forwarded : Option Message
  deriving DecidableEq, Repr

namespace Slots

def empty : Slots := ⟨none, none, none⟩

end Slots

namespace Email

variable [Charsets]

/-- A change that a message asks for may be refused only because the message is unusable. -/
def orUnusable (x : Except Rejection Email) : Except ReadError Email := x.mapError .unusable

def readParty (fs : List Field) (name : Text) (party : Party) (e : Email) : Email :=
  match Recipient.ofFields fs name with
  | [] => e
  | r :: _ => e.setRecipient party r

def readRecipients (fs : List Field) (role : Role) (e : Email) : Except ReadError Email :=
  match Recipient.ofFields fs role.fieldName with
  | [] => .ok e
  | rs => orUnusable (e.addRecipients role rs)

def readSubject (fs : List Field) (e : Email) : Except ReadError Email :=
  match Field.textOf? fs "Subject" with
  | some s => if Text.allBlank s then .ok e else orUnusable (e.setSubject s)
  | none => .ok e

/-- A notice field without a mailbox asks for a standard notice. -/
def readNotice (fs : List Field) (name : Text) (kind : NoticeKind) (e : Email) : Email :=
  match Field.find? fs name with
  | none => e
  | some f =>
    match Recipient.ofField f with
    | [] => e.requestNotice kind
    | r :: _ => e.requestNoticeTo kind r

/-- A field that the letter has no place for becomes a custom header, unless its name cannot be
one or its value is blank. -/
def readHeader (e : Email) (f : Field) : Except ReadError Email :=
  if FieldName.isStructural f.key || !FieldName.isValid f.key then .ok e
  else
    let value := Text.withoutControls f.text
    if Text.allBlank value then .ok e else orUnusable (e.addHeader f.key value)

def readFields (fs : List Field) (e : Email) : Except ReadError Email := do
  let e := e.readParty fs "From" .sender
  let e := e.readParty fs "Reply-To" .replyTo
  let e := e.readParty fs "Return-Path" .bounceTo
  let e ← e.readRecipients fs .direct
  let e ← e.readRecipients fs .copy
  let e ← e.readRecipients fs .blind
  let e ← e.readSubject fs
  let e := e.readNotice fs "Disposition-Notification-To" .disposition
  let e := e.readNotice fs "Return-Receipt-To" .receipt
  fs.foldlM readHeader e

/-- The text of a leaf with plain line feeds; an empty text fills no place. -/
def leafText (l : Leaf) : Except ReadError (Option Text) :=
  match l.text with
  | .error e => .error (.malformed e)
  | .ok t => .ok (some (LineEnding.collapse t) |>.filter (· ≠ []))

def readResource (e : Email) (l : Leaf) : Except ReadError Email :=
  match l.data with
  | .error err => .error (.malformed err)
  | .ok [] => .ok e
  | .ok data =>
    match DataSource.make data l.typeName with
    | .error r => .error (.unusable r)
    | .ok source =>
      match l.contentId? with
      | some id =>
        if l.isAttachment then .ok (e.attachSource l.fileName? source)
        else orUnusable (e.embedSource (some id) source)
      | none => .ok (e.attachSource l.fileName? source)

def readLeaf : Email × Slots → Leaf → Except ReadError (Email × Slots)
  | (e, slots), l =>
    let inPlace := !l.isAttachment
    if inPlace ∧ l.typeName = "text/plain".toList ∧ slots.text = none then
      (leafText l).map fun t => (e, { slots with text := t })
    else if inPlace ∧ l.typeName = "text/html".toList ∧ slots.html = none then
      (leafText l).map fun t => (e, { slots with html := t })
    else if inPlace ∧ l.typeName = "message/rfc822".toList ∧ slots.forwarded = none then
      match l.data with
      | .error err => .error (.malformed err)
      | .ok data => .ok (e, { slots with forwarded := some ⟨data⟩ })
    else (readResource e l).map fun e => (e, slots)

def ofEntity (entity : Entity) : Except ReadError Email := do
  let e ← readFields entity.fields ∅
  let (e, slots) ← entity.leaves.foldlM readLeaf (e, Slots.empty)
  return { e with text := slots.text, html := slots.html, forwarded := slots.forwarded }

/-- The letter that a message is. Its identifier is not carried over. -/
def ofMessage (m : Message) : Except ReadError Email :=
  match Entity.read false m.octets with
  | .error e => .error (.malformed e)
  | .ok entity => ofEntity entity

end Email
end Epistle
