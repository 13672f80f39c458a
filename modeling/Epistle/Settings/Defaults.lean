import Epistle.Email.Compose
import Epistle.Settings.Datum

/-!
What a new letter starts with: configured recipients for each place, and a subject.
-/

namespace Epistle

/-- A configured name and address; for the roles of recipients the address may be a list. -/
structure DefaultRecipient where
  name : Option Text
  address : Text
  deriving DecidableEq, Repr

structure Defaults where
  sender : Option DefaultRecipient
  replyTo : Option DefaultRecipient
  bounceTo : Option DefaultRecipient
  direct : Option DefaultRecipient
  copies : Option DefaultRecipient
  blind : Option DefaultRecipient
  subject : Option Text
  deriving DecidableEq, Repr

namespace DefaultRecipient

def ofDatum? (exact : Bool) (d : Datum) : Option DefaultRecipient := do
  let fs ← d.fields? exact ["name", "address"] 2
  return ⟨← Datum.optional Datum.text? (Datum.field fs "name"),
    ← (Datum.field fs "address").bind Datum.text?⟩

def toDatum (d : DefaultRecipient) : Datum :=
  .record [("name", Datum.ofOption .text d.name), ("address", .text d.address)]

end DefaultRecipient

namespace Defaults

def isEmpty (d : Defaults) : Bool :=
  d.sender.isNone && d.replyTo.isNone && d.bounceTo.isNone && d.direct.isNone &&
    d.copies.isNone && d.blind.isNone && d.subject.isNone

def names : List Text :=
  ["from", "reply_to", "bounce_to", "to", "cc", "bcc", "subject"].map String.toList

def ofDatum? (exact : Bool) (d : Datum) : Option Defaults := do
  let fs ← d.fields? exact names 0
  let recipient (name : Text) :=
    Datum.optional (DefaultRecipient.ofDatum? exact) (Datum.field fs name)
  return ⟨← recipient "from", ← recipient "reply_to", ← recipient "bounce_to", ← recipient "to",
    ← recipient "cc", ← recipient "bcc", ← Datum.optional Datum.text? (Datum.field fs "subject")⟩

def toDatum (d : Defaults) : Datum :=
  let recipient := Datum.ofOption DefaultRecipient.toDatum
  .record [("from", recipient d.sender), ("reply_to", recipient d.replyTo),
    ("bounce_to", recipient d.bounceTo), ("to", recipient d.direct),
    ("cc", recipient d.copies), ("bcc", recipient d.blind),
    ("subject", Datum.ofOption .text d.subject)]

end Defaults

namespace Email

/-- Runs a step for a configured value, if there is one. -/
def given (x : Option α) (step : α → Email → Except Rejection Email) (e : Email) :
    Except Rejection Email :=
  match x with
  | none => .ok e
  | some a => step a e

def setDefaultParty (party : Party) (field : Argument) (d : DefaultRecipient) (e : Email) :
    Except Rejection Email :=
  (Recipient.interpret d.name d.address field).map fun r => e.setRecipient party r

def addDefaultList (role : Role) (d : DefaultRecipient) (e : Email) : Except Rejection Email :=
  e.addList role d.name d.address

/-- A new letter with the defaults filled in. -/
def ofDefaults (d : Defaults) : Except Rejection Email := do
  let e : Email := ∅
  let e ← e.given d.sender (setDefaultParty .sender .defaultSender)
  let e ← e.given d.replyTo (setDefaultParty .replyTo .defaultReplyTo)
  let e ← e.given d.bounceTo (setDefaultParty .bounceTo .defaultBounceTo)
  let e ← e.given d.direct (addDefaultList .direct)
  let e ← e.given d.copies (addDefaultList .copy)
  let e ← e.given d.blind (addDefaultList .blind)
  e.given d.subject setSubject

end Email
end Epistle
