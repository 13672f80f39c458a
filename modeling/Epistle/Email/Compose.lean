import Epistle.Address.Entries
import Epistle.Email.Basic
import Epistle.Header.Name

/-!
Writing a letter step by step. A step is a program that may be refused on its way, and then leaves
the letter as it had written it by that time. Most are given by what they check and then write.
-/

namespace Epistle

/-- The roles that a letter has one recipient for. -/
inductive Party where
  | sender | replyTo | bounceTo
  deriving DecidableEq, Repr

/-- The two notices that a sender can ask for. -/
inductive NoticeKind where
  | disposition | receipt
  deriving DecidableEq, Repr

/-- The recipient that an address such as `a@x` or `Name <a@x>` means; `field` is blamed when
there is none. -/
def Recipient.interpret (name : Option Text) (address : Text) (field : Argument) :
    Except Rejection Recipient :=
  if Text.allBlank address then .error (.missing field)
  else Entries.interpret name address none

def Party.argument : Party → Argument
  | sender => .sender
  | replyTo => .replyTo
  | bounceTo => .bounceTo

def NoticeKind.argument : NoticeKind → Argument
  | disposition => .dispositionTarget
  | receipt => .receiptTarget

/-- Programs that write a letter and may be refused; what was written before stays written. -/
abbrev Writing (m : Type → Type) (ε : Type) := ExceptT ε (StateT Email m)

namespace Writing

variable {m : Type → Type} [Monad m] {ε : Type}

/-- How the program ends, and the letter that it leaves. -/
def perform (w : Writing m ε Unit) (e : Email) : m (Except ε Unit × Email) := w.run.run e

/-- The letter that the program leaves, unless it is refused. -/
def attempt (w : Writing m ε Unit) (e : Email) : m (Except ε Email) := do
  let (result, e') ← w.perform e
  return result.map fun _ => e'

end Writing

namespace Email

def setRecipient (party : Party) (r : Recipient) (e : Email) : Email :=
  let r := r.withRole none
  match party with
  | .sender => { e with sender := some r }
  | .replyTo => { e with replyTo := some r }
  | .bounceTo => { e with bounceTo := some r }

def setText (text : Option Text) (e : Email) : Email := { e with text }

def setHtml (html : Option Text) (e : Email) : Email := { e with html }

def prependText (t : Text) (e : Email) : Email := { e with text := some (t ++ e.text.getD []) }

def appendText (t : Text) (e : Email) : Email := { e with text := some (e.text.getD [] ++ t) }

def prependHtml (t : Text) (e : Email) : Email := { e with html := some (t ++ e.html.getD []) }

def appendHtml (t : Text) (e : Email) : Email := { e with html := some (e.html.getD [] ++ t) }

def extendRecipients (rs : List Recipient) (e : Email) : Email :=
  { e with recipients := e.recipients.extend rs }

def pushImage (r : Resource) (e : Email) : Email := { e with images := e.images ++ [r] }

/-- Attaches a source; a name beyond printable ASCII is kept as encoded words. -/
def attachSource (name : Option Text) (source : DataSource) (e : Email) : Email :=
  { e with attachments := e.attachments ++ [.make (name.map EncodedWord.encode) source] }

def attachAll (resources : List Resource) (e : Email) : Email :=
  { e with attachments := e.attachments ++ resources }

def setNotice (kind : NoticeKind) (n : Notice) (e : Email) : Email :=
  match kind with
  | .disposition => { e with disposition := n }
  | .receipt => { e with receipt := n }

/-- Asks for a notice to whoever receives the replies. -/
def requestNotice (kind : NoticeKind) (e : Email) : Email := e.setNotice kind .standard

def requestNoticeTo (kind : NoticeKind) (r : Recipient) (e : Email) : Email :=
  e.setNotice kind (.toward (r.withRole none))

def isLineBreak (c : Char) : Bool := c == '\r' || c == '\n'

def checkHeader (name value : Text) : Except Rejection (Text × Text) :=
  if Text.allBlank name then .error (.missing .headerName)
  else if !FieldName.isValid name then .error (.invalid .headerName)
  else if value = [] then .error (.missing .headerValue)
  else if value.any isLineBreak then .error (.invalid .headerValue)
  else .ok (name, value)

end Email

/-- A step that needs nothing but the letter. -/
abbrev Setter := Writing Id Rejection Unit

namespace Setter

/-- Sets the identifier of the message; an empty one is kept. -/
def setId (id : Option Text) : Setter :=
  if id.any Text.hasControl then throw (.invalid .id) else modify fun e => { e with id }

/-- A given name wins over one in the address. -/
def setParty (party : Party) (name : Option Text) (address : Text) : Setter := do
  let r ← Recipient.interpret name address party.argument
  modify fun e => e.setRecipient party r

def setSubject (subject : Text) : Setter :=
  if subject = [] then throw (.missing .subject)
  else modify fun e => { e with subject := some subject }

/-- Adds every entry of a separated list. -/
def addList (role : Role) (name : Option Text) (list : Text) : Setter := do
  let rs ← Entries.parse name list (some role)
  modify fun e => e.extendRecipients rs

/-- Adds each address as it stands. -/
def addAddresses (role : Role) (name : Option Text) (addresses : List Text) : Setter := do
  let made : Except Rejection (List Recipient) :=
    addresses.mapM fun a => Recipient.make name a (some role)
  let rs ← made
  if rs = [] then throw (.missing .addresses) else modify fun e => e.extendRecipients rs

/-- Adds copies of the recipients in the given role. -/
def addRecipients (role : Role) (rs : List Recipient) : Setter :=
  if rs = [] then throw (.missing .recipients)
  else modify fun e => e.extendRecipients (rs.map (·.withRole (some role)))

/-- Embeds an image that the HTML text can refer to by name. -/
def embed (name : Text) (data : Octets) (contentType : Text) : Setter :=
  if name = [] then throw (.missing .imageName)
  else do
    let source ← DataSource.make data contentType
    modify fun e => e.pushImage (.make (some name) source)

/-- Embeds a source under the given name or else its own. -/
def embedSource (name : Option Text) (source : DataSource) : Setter :=
  match (name.filter (· ≠ [])).or (source.name.filter (· ≠ [])) with
  | some n => modify fun e => e.pushImage (.make (some n) source)
  | none => throw .unnamedImage

def embedAll (images : List Resource) : Setter :=
  if images.any (·.name.isNone) then throw .unnamedImage
  else modify fun e => { e with images := e.images ++ images }

/-- Sets a custom header, whose earlier value is lost. -/
def addHeader (name value : Text) : Setter := do
  let (n, v) ← Email.checkHeader name value
  modify fun e => { e with headers := e.headers.set n v }

def addHeaders (headers : List (Text × Text)) : Setter := do
  let checked : Except Rejection (List (Text × Text)) :=
    headers.mapM fun (n, v) => Email.checkHeader n v
  let hs ← checked
  modify fun e => { e with headers := e.headers.setAll hs }

def attach (name : Option Text) (data : Octets) (contentType : Text) : Setter := do
  let source ← DataSource.make data contentType
  modify fun e => e.attachSource name source

def signWith (key : SigningKey) (domain selector : Text) : Setter := do
  let signing ← Signing.make key domain selector
  modify fun e => { e with signing := some signing }

def requestNoticeAt (kind : NoticeKind) (address : Text) : Setter := do
  let r ← Recipient.interpret none address kind.argument
  modify fun e => e.requestNoticeTo kind r

end Setter

namespace Email

def setId (id : Option Text) : Email → Except Rejection Email := (Setter.setId id).attempt

def setParty (party : Party) (name : Option Text) (address : Text) :
    Email → Except Rejection Email := (Setter.setParty party name address).attempt

def setSubject (subject : Text) : Email → Except Rejection Email :=
  (Setter.setSubject subject).attempt

def addList (role : Role) (name : Option Text) (list : Text) : Email → Except Rejection Email :=
  (Setter.addList role name list).attempt

def addAddresses (role : Role) (name : Option Text) (addresses : List Text) :
    Email → Except Rejection Email := (Setter.addAddresses role name addresses).attempt

def addRecipients (role : Role) (rs : List Recipient) : Email → Except Rejection Email :=
  (Setter.addRecipients role rs).attempt

def embed (name : Text) (data : Octets) (contentType : Text) : Email → Except Rejection Email :=
  (Setter.embed name data contentType).attempt

def embedSource (name : Option Text) (source : DataSource) : Email → Except Rejection Email :=
  (Setter.embedSource name source).attempt

def embedAll (images : List Resource) : Email → Except Rejection Email :=
  (Setter.embedAll images).attempt

def addHeader (name value : Text) : Email → Except Rejection Email :=
  (Setter.addHeader name value).attempt

def addHeaders (headers : List (Text × Text)) : Email → Except Rejection Email :=
  (Setter.addHeaders headers).attempt

def attach (name : Option Text) (data : Octets) (contentType : Text) :
    Email → Except Rejection Email := (Setter.attach name data contentType).attempt

def signWith (key : SigningKey) (domain selector : Text) : Email → Except Rejection Email :=
  (Setter.signWith key domain selector).attempt

def requestNoticeAt (kind : NoticeKind) (address : Text) : Email → Except Rejection Email :=
  (Setter.requestNoticeAt kind address).attempt

end Email
end Epistle
