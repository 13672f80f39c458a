import Epistle.Text.Basic

/-!
The ways in which composing and reading letters can fail, each with its wording. A rejection blames
the caller's value, a parse error the octets, and a reading error a message taken as a whole.
-/

namespace Epistle

/-- What a rejected value was given for. -/
inductive Argument where
  | address | name | entry | list | addresses | recipients
  | data | contentType | imageName | subject | id | headerName | headerValue
  | sender | replyTo | bounceTo | defaultSender | defaultReplyTo | defaultBounceTo
  | dispositionTarget | receiptTarget
  | signingKey | signingDomain | signingSelector
  deriving DecidableEq, Repr

def Argument.label : Argument → String
  | address => "address"
  | name => "name"
  | entry => "emailAddress"
  | list => "emailAddressList"
  | addresses => "emailAddresses"
  | recipients => "recipients"
  | data => "data"
  | contentType => "mimetype"
  | imageName => "imagename"
  | subject => "subject"
  | id => "id"
  | headerName => "headerName"
  | headerValue => "headerValue"
  | sender => "fromAddress"
  | replyTo => "replyToAddress"
  | bounceTo => "bounceToAddress"
  | defaultSender => "defaultFromAddress"
  | defaultReplyTo => "defaultReplyToAddress"
  | defaultBounceTo => "defaultBounceToAddress"
  | dispositionTarget => "dispositionNotificationToAddress"
  | receiptTarget => "returnReceiptToAddress"
  | signingKey => "dkimPrivateKey"
  | signingDomain => "signingDomain"
  | signingSelector => "dkimSelector"

/-- A value that cannot be taken: nothing was given, it holds characters that no header may hold,
or an image has no name to be referred to by. -/
inductive Rejection where
  | missing (argument : Argument)
  | invalid (argument : Argument)
  | unnamedImage
  deriving DecidableEq, Repr

def Rejection.message : Rejection → String
  | missing a => "Missing required argument: " ++ a.label
  | invalid a => "Invalid characters in argument: " ++ a.label
  | unnamedImage => "No name given for embedded image nor passed inside the data source"

/-- Why octets are no message. -/
inductive ParseError where
  | leadingSpace | loneReturn | badBase64
  deriving DecidableEq, Repr

def ParseError.message : ParseError → String
  | leadingSpace =>
    "Header cannot start with a space; it is likely an overhanging line from a previous header"
  | loneReturn => "Headers were followed by an unexpected lone CR character!"
  | badBase64 => "Base64 decode error"

/-- Why a message cannot be turned into a letter or a reply. -/
inductive ReadError where
  | malformed (cause : ParseError)
  | unusable (cause : Rejection)
  | noFields
  deriving DecidableEq, Repr

def ReadError.message : ReadError → String
  | malformed e => "Failed to parse message: " ++ e.message
  | unusable r => "Invalid message structure: " ++ r.message
  | noFields => "Invalid message structure: message has no headers to reply to"

/-- Why a letter could not be changed as asked. -/
inductive ComposeError where
  | rejected (cause : Rejection)
  | badTemplate (template : Text)
  | replyFailed (cause : ReadError)
  | forwardFailed (cause : ReadError)
  deriving DecidableEq, Repr

namespace ComposeError

def message : ComposeError → String
  | rejected r => r.message
  | badTemplate t =>
    "Invalid quoting template, expected exactly one %s placeholder: " ++ String.ofList t
  | replyFailed e => "Unable to parse message to produce a reply for: " ++ e.message
  | forwardFailed e => e.message

/-- The caller could have known better. -/
def blamesCaller : ComposeError → Bool
  | rejected .unnamedImage => false
  | rejected _ => true
  | badTemplate _ => true
  | replyFailed _ => false
  | forwardFailed _ => false

end ComposeError
end Epistle
