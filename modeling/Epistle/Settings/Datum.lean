import Epistle.Address.Recipient
import Epistle.Mime.Resource

/-!
Values of configuration and exchange formats, and how the values of this library are written in
them. A record may also be given as the list of its fields in order; fields that nothing names are
ignored, and absent optional ones count as null.
-/

namespace Epistle

inductive Datum where
  | null
  | bool (b : Bool)
  | int (n : Int)
  | text (t : Text)
  | list (items : List Datum)
  | record (fields : List (Text × Datum))
  /-- A scalar that no value here is made of, such as a date. -/
  | other
  deriving Repr

namespace Datum

/-- The fields of `d` by name. A list must give the first `required` names a value; if `exact`, it
may not go on behind the last. -/
def fields? (exact : Bool) (names : List Text) (required : Nat) :
    Datum → Option (List (Text × Datum))
  | record fields => some fields
  | list items =>
    if items.length < required ∨ (exact ∧ names.length < items.length) then none
    else some (names.zip items)
  | _ => none

def text? : Datum → Option Text
  | text t => some t
  | _ => none

/-- A number below `bound`. -/
def below? (bound : Nat) : Datum → Option Nat
  | int n => if 0 ≤ n ∧ n < bound then some n.toNat else none
  | _ => none

/-- Null and absence are no value; anything else must be one. -/
def optional (read : Datum → Option α) : Option Datum → Option (Option α)
  | none => some none
  | some null => some none
  | some d => (read d).map some

def field (fields : List (Text × Datum)) (name : Text) : Option Datum := fields.lookup name

def ofOption (write : α → Datum) : Option α → Datum
  | none => null
  | some a => write a

end Datum

namespace Role

def word : Role → Text
  | direct => "to"
  | copy => "cc"
  | blind => "bcc"

def ofWord? (t : Text) : Option Role := [direct, copy, blind].find? (·.word == t)

/-- A role is its word, or a record whose one field has that name and no value. -/
def ofDatum? : Datum → Option Role
  | .text t => ofWord? t
  | .record [(t, .null)] => ofWord? t
  | _ => none

def toDatum (r : Role) : Datum := .text r.word

end Role

namespace Recipient

/-- Any recipient with fields of the right kinds; nothing else is checked. -/
def ofDatum? (d : Datum) : Option Recipient := do
  let fs ← d.fields? true ["name", "address", "kind"] 3
  return ⟨← Datum.optional Datum.text? (Datum.field fs "name"),
    ← (Datum.field fs "address").bind Datum.text?,
    ← Datum.optional Role.ofDatum? (Datum.field fs "kind")⟩

def toDatum (r : Recipient) : Datum :=
  .record [("name", Datum.ofOption .text r.name), ("address", .text r.address),
    ("kind", Datum.ofOption Role.toDatum r.role)]

end Recipient

namespace RecipientList

/-- The recipients as they are listed, repetitions included. -/
def ofDatum? : Datum → Option RecipientList
  | .list items => (items.mapM Recipient.ofDatum?).map RecipientList.mk
  | _ => none

def toDatum (l : RecipientList) : Datum := .list (l.entries.map Recipient.toDatum)

end RecipientList

namespace DataSource

def octet? (d : Datum) : Option UInt8 := (d.below? 256).map UInt8.ofNat

def octets? : Datum → Option Octets
  | .list items => items.mapM octet?
  | _ => none

/-- Any source with fields of the right kinds; nothing else is checked. -/
def ofDatum? (d : Datum) : Option DataSource := do
  let fs ← d.fields? true ["name", "content_type", "data"] 3
  return ⟨← Datum.optional Datum.text? (Datum.field fs "name"),
    ← (Datum.field fs "content_type").bind Datum.text?,
    ← (Datum.field fs "data").bind octets?⟩

def toDatum (s : DataSource) : Datum :=
  .record [("name", Datum.ofOption .text s.name), ("content_type", .text s.contentType),
    ("data", .list (s.data.map fun b => .int b.toNat))]

end DataSource

namespace Resource

def ofDatum? (d : Datum) : Option Resource := do
  let fs ← d.fields? true ["name", "data_source"] 2
  return ⟨← Datum.optional Datum.text? (Datum.field fs "name"),
    ← (Datum.field fs "data_source").bind DataSource.ofDatum?⟩

def toDatum (r : Resource) : Datum :=
  .record [("name", Datum.ofOption .text r.given), ("data_source", r.source.toDatum)]

end Resource
end Epistle
