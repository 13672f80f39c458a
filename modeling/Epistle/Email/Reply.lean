import Epistle.Email.Read
import Epistle.Email.Render
import Epistle.Email.Skeleton

/-!
Replies and forwards. What is replied to may be a letter written here or a message received from
elsewhere; a reply quotes its texts, joins its thread and goes to the addressees of its skeleton.
-/

namespace Epistle

variable [Charsets]

inductive Parent where
  | email (e : Email)
  | message (m : Message)
  deriving DecidableEq, Repr

namespace Parent

def asMessage : Parent → Minting Message
  | email e => e.render
  | message m => pure m

def asEmail : Parent → Except ReadError Email
  | email e => .ok e
  | message m => Email.ofMessage m

end Parent

namespace Quotation

def placeholder : Text := "%s"

/-- How often the placeholder stands in `template`, from the left and without overlaps. -/
def countPlaceholders : Text → Nat
  | [] => 0
  | '%' :: 's' :: rest => countPlaceholders rest + 1
  | _ :: rest => countPlaceholders rest

def fill (template quoted : Text) : Text :=
  match Text.cutAt? placeholder template with
  | some (before, after) => before ++ quoted ++ after
  | none => template

/-- Each line behind a mark. -/
def markLines (t : Text) : Text := (Text.linesWithEnds t).flatMap fun line => "> ".toList ++ line

/-- How HTML is quoted unless the sender wants it otherwise. -/
def standardTemplate : Text :=
  "<blockquote style=\"color: gray; border-left: 1px solid #4f4f4f; padding-left: 1cm\">%s</blockquote>"

end Quotation

namespace Email

def skeletonOf (parent : Message) (toAll : Bool) : Except ReadError Email :=
  match parent.reply toAll with
  | .error e => .error e
  | .ok skeleton => ofMessage skeleton

def quoteText (text : Option Text) (e : Email) : Email :=
  match text.filter (· ≠ []) with
  | some t => e.appendText (Quotation.markLines t)
  | none => e

def quoteHtml (template : Text) (html : Option Text) (e : Email) : Email :=
  match html.filter (· ≠ []) with
  | some h => e.appendHtml (Quotation.fill template h)
  | none => e

/-- Takes from the skeleton and the letter replied to what a reply needs. -/
def adoptReply (template : Text) (skeleton repliedTo e : Email) : Email :=
  let e := { e with subject := skeleton.subject.or e.subject }
  let e := e.extendRecipients (skeleton.recipients.entries.map (·.withRole (some .direct)))
  let e := e.quoteText repliedTo.text
  let e := e.quoteHtml template repliedTo.html
  { e with
    headers := e.headers.setAll skeleton.headers
    images := e.images ++ repliedTo.images }

end Email

/-- A step that may render other letters on its way. -/
abbrev Priming := Writing Minting ComposeError Unit

namespace Priming

/-- Makes a letter a reply to `parent`; `template` says how HTML is quoted and must hold one
placeholder. -/
def reply (parent : Parent) (toAll : Bool) (template : Text) : Priming :=
  if Quotation.countPlaceholders template ≠ 1 then throw (.badTemplate template)
  else do
    let message ← parent.asMessage
    let skeleton ← (Email.skeletonOf message toAll).mapError ComposeError.replyFailed
    let repliedTo ← parent.asEmail.mapError ComposeError.replyFailed
    modify (Email.adoptReply template skeleton repliedTo)

def forward (parent : Parent) : Priming := do
  let message ← parent.asMessage
  let subject ← message.subject.mapError ComposeError.forwardFailed
  modify fun e => { e with
    subject := some ("Fwd: ".toList ++ subject.getD [])
    forwarded := some message }

end Priming

namespace Email

def primeReply (parent : Parent) (toAll : Bool) (template : Text) :
    Email → Minting (Except ComposeError Email) := (Priming.reply parent toAll template).attempt

def primeForward (parent : Parent) : Email → Minting (Except ComposeError Email) :=
  (Priming.forward parent).attempt

end Email
end Epistle
