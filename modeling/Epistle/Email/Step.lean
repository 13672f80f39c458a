import Epistle.Email.Reply

/-!
The steps that a program takes in writing a letter, and the letter after any number of them. A step
that is refused is passed over, and the next goes on from the letter as it was left.
-/

namespace Epistle

variable [Charsets]

/-- The setter where other steps read the clock. -/
def Setter.toPriming (s : Setter) : Priming := ExceptT.mk fun e =>
  let (result, e') := Id.run (s.perform e)
  pure (result.mapError .rejected, e')

namespace Email

inductive Step where
  | setId (id : Option Text)
  | setParty (party : Party) (name : Option Text) (address : Text)
  | setRecipient (party : Party) (recipient : Recipient)
  | setSubject (subject : Text)
  | setText (text : Option Text)
  | prependText (text : Text)
  | appendText (text : Text)
  | setHtml (html : Option Text)
  | prependHtml (html : Text)
  | appendHtml (html : Text)
  | addList (role : Role) (name : Option Text) (list : Text)
  | addAddresses (role : Role) (name : Option Text) (addresses : List Text)
  | addRecipients (role : Role) (recipients : List Recipient)
  | embed (name : Text) (data : Octets) (contentType : Text)
  | embedSource (name : Option Text) (source : DataSource)
  | embedAll (images : List Resource)
  | addHeader (name value : Text)
  | addHeaders (headers : List (Text × Text))
  | attach (name : Option Text) (data : Octets) (contentType : Text)
  | attachSource (name : Option Text) (source : DataSource)
  | attachAll (resources : List Resource)
  | signWith (key : SigningKey) (domain selector : Text)
  | requestNotice (kind : NoticeKind)
  | requestNoticeTo (kind : NoticeKind) (recipient : Recipient)
  | requestNoticeAt (kind : NoticeKind) (address : Text)
  | reply (parent : Parent) (toAll : Bool) (template : Text)
  | forward (parent : Parent)

namespace Step

def program : Step → Priming
  | setId id => (Setter.setId id).toPriming
  | setParty party name address => (Setter.setParty party name address).toPriming
  | setRecipient party r => modify fun e => e.setRecipient party r
  | setSubject subject => (Setter.setSubject subject).toPriming
  | setText text => modify fun e => e.setText text
  | prependText text => modify fun e => e.prependText text
  | appendText text => modify fun e => e.appendText text
  | setHtml html => modify fun e => e.setHtml html
  | prependHtml html => modify fun e => e.prependHtml html
  | appendHtml html => modify fun e => e.appendHtml html
  | addList role name list => (Setter.addList role name list).toPriming
  | addAddresses role name addresses => (Setter.addAddresses role name addresses).toPriming
  | addRecipients role rs => (Setter.addRecipients role rs).toPriming
  | embed name data contentType => (Setter.embed name data contentType).toPriming
  | embedSource name source => (Setter.embedSource name source).toPriming
  | embedAll images => (Setter.embedAll images).toPriming
  | addHeader name value => (Setter.addHeader name value).toPriming
  | addHeaders headers => (Setter.addHeaders headers).toPriming
  | attach name data contentType => (Setter.attach name data contentType).toPriming
  | attachSource name source => modify fun e => e.attachSource name source
  | attachAll resources => modify fun e => e.attachAll resources
  | signWith key domain selector => (Setter.signWith key domain selector).toPriming
  | requestNotice kind => modify fun e => e.requestNotice kind
  | requestNoticeTo kind r => modify fun e => e.requestNoticeTo kind r
  | requestNoticeAt kind address => (Setter.requestNoticeAt kind address).toPriming
  | reply parent toAll template => .reply parent toAll template
  | forward parent => .forward parent

/-- The letter after the step, or why the step was refused. -/
def apply (e : Email) (s : Step) : Minting (Except ComposeError Email) := s.program.attempt e

/-- The letter after the step, whether or not the step was refused. -/
def perform (e : Email) (s : Step) : Minting Email := do
  let (_, e') ← s.program.perform e
  return e'

end Step

def performAll (e : Email) (steps : List Step) : Minting Email := steps.foldlM Step.perform e

end Email
end Epistle
