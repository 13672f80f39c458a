import Epistle.Address.Recipient
import Epistle.Mime.Part
import Epistle.Signing
import Epistle.Text.Dictionary

/-!
The letter itself, complete or still being written: whom it is from and for, what it says and
carries, and what its sender asks to be told.
-/

namespace Epistle

/-- Whether the sender asks for a notice, and whether it should go to someone in particular. -/
structure Notice where
  isRequested : Bool
  explicit? : Option Recipient
  deriving DecidableEq, Repr

structure Email where
  id : Option Text
  sender : Option Recipient
  replyTo : Option Recipient
  bounceTo : Option Recipient
  subject : Option Text
  text : Option Text
  html : Option Text
  recipients : RecipientList
  images : List Resource
  attachments : List Resource
  headers : Dictionary
  signing : Option Signing
  disposition : Notice
  receipt : Notice
  forwarded : Option Message
  deriving DecidableEq, Repr

namespace Notice

def off : Notice := ⟨false, none⟩

def standard : Notice := ⟨true, none⟩

def toward (recipient : Recipient) : Notice := ⟨true, some recipient⟩

end Notice

namespace Email

def empty : Email :=
  ⟨none, none, none, none, none, none, none, ∅, [], [], [], none, .off, .off, none⟩

instance : EmptyCollection Email := ⟨empty⟩

/-- Where a notice goes: one for no one in particular follows the replies, or else returns to the
sender. -/
def resolve (e : Email) (n : Notice) : Option Recipient :=
  if n.isRequested then (n.explicit?.or e.replyTo).or e.sender else none

end Email
end Epistle
