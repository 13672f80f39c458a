import Epistle.Error
import Epistle.Text.Blank
import Epistle.Text.Quoted

/-!
Recipients and the list of them that a letter keeps. Two recipients count as equal when address and
role agree, so a list keeps the first name that an address was given under in each role.
-/

namespace Epistle

/-- How a letter reaches a recipient: addressed directly, as a copy, or as a copy that the others do
not hear of. -/
inductive Role where
  | direct | copy | blind
  deriving DecidableEq, Repr

def Role.fieldName : Role → Text
  | direct => "To"
  | copy => "Cc"
  | blind => "Bcc"

structure Recipient where
  name : Option Text
  address : Text
  role : Option Role
  deriving DecidableEq, Repr

namespace Recipient

/-- A recipient with its address trimmed; an empty name is none. -/
def make (name : Option Text) (address : Text) (role : Option Role) : Except Rejection Recipient :=
  let address := Text.trim address
  if address = [] then .error (.missing .address)
  else if Text.hasControl address then .error (.invalid .address)
  else if name.any Text.hasControl then .error (.invalid .name)
  else .ok ⟨name.filter (· ≠ []), address, role⟩

def withRole (r : Recipient) (role : Option Role) : Recipient := { r with role }

/-- Equality of recipients: the name takes no part in it. -/
def same (a b : Recipient) : Bool := a.address == b.address && a.role == b.role

def display (r : Recipient) : Text :=
  match r.name with
  | some name => ['"'] ++ Quoted.escape name ++ "\" <".toList ++ r.address ++ ['>']
  | none => r.address

end Recipient

/-- Recipients in the order of their first insertion. -/
structure RecipientList where
  entries : List Recipient
  deriving DecidableEq, Repr

namespace RecipientList

def empty : RecipientList := ⟨[]⟩

instance : EmptyCollection RecipientList := ⟨empty⟩

def contains (l : RecipientList) (r : Recipient) : Bool := l.entries.any r.same

/-- Adds `r` unless an equal recipient is there, and says whether it did. -/
def insert (l : RecipientList) (r : Recipient) : RecipientList × Bool :=
  if l.contains r then (l, false) else (⟨l.entries ++ [r]⟩, true)

def extend (l : RecipientList) (rs : List Recipient) : RecipientList :=
  rs.foldl (fun acc r => (acc.insert r).1) l

def ofList (rs : List Recipient) : RecipientList := empty.extend rs

def ofRole (l : RecipientList) (role : Role) : List Recipient :=
  l.entries.filter (·.role == some role)

/-- The same recipients in the same order, names aside. -/
def same (a b : RecipientList) : Bool :=
  a.entries.length == b.entries.length && (a.entries.zip b.entries).all fun (x, y) => x.same y

def display (l : RecipientList) : Text :=
  Text.joinWith ", ".toList (l.entries.map Recipient.display)

end RecipientList
end Epistle
