import Epistle.Address.Entries
import Epistle.Header.EncodedWord

/-!
Recipients in address fields. Writing quotes printable names and encodes all others; reading takes
the field as an address list, or, where it is none, entry by entry, and drops what is no recipient.
-/

namespace Epistle
namespace Recipient

def format (r : Recipient) : Text :=
  match r.name with
  | none => r.address
  | some name =>
    let shown :=
      if name.all Text.isPrintable then ['"'] ++ Quoted.escape name ++ ['"']
      else EncodedWord.encode name
    shown ++ " <".toList ++ r.address ++ ['>']

def formatAll (rs : List Recipient) : Text := Text.joinWith ", ".toList (rs.map format)

/-- Takes one pair of angle brackets off an address. -/
def withoutBrackets (t : Text) : Text :=
  match t with
  | '<' :: rest => if rest.getLast? = some '>' then rest.dropLast else t
  | _ => t

/-- The recipient of a mailbox. A null path, and whatever makes no recipient, is none. -/
def ofMailbox? (name : Option Text) (address : Text) : Option Recipient :=
  let address := Text.trim (withoutBrackets (Text.trim address))
  if address = [] then none
  else (make (name.map Text.withoutControls) address none).toOption

/-- The recipients of an address field, groups flattened. -/
def ofField [Charsets] (f : Field) : List Recipient :=
  match AddressList.ofField? f with
  | some entries =>
    (entries.flatMap AddressEntry.mailboxes).filterMap fun m => ofMailbox? m.name m.address
  | none =>
    (Entries.split f.text).filterMap fun entry =>
      match Entries.interpret none entry none with
      | .ok r => ofMailbox? r.name r.address
      | .error _ => none

def ofFields [Charsets] (fs : List Field) (name : Text) : List Recipient :=
  ((Field.find? fs name).map ofField).getD []

end Recipient
end Epistle
