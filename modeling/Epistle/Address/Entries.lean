import Epistle.Address.Mailbox
import Epistle.Address.Recipient

/-!
Address lists as people type them: entries separated by commas or semicolons, each an address or a
mailbox with a display name. A separator inside quotes or angle brackets separates nothing.
-/

namespace Epistle
namespace Entries

structure Scan where
  inQuotes : Bool
  inBrackets : Bool
  afterBackslash : Bool
  deriving DecidableEq, Repr

namespace Scan

def init : Scan := ⟨false, false, false⟩

def outside (s : Scan) : Bool := !s.inQuotes && !s.inBrackets

def step (s : Scan) (c : Char) : Scan :=
  let backslash := c == '\\' && !s.afterBackslash
  if c = '"' ∧ ¬ s.afterBackslash then ⟨!s.inQuotes, s.inBrackets, backslash⟩
  else if c = '<' ∧ ¬ s.inQuotes then ⟨s.inQuotes, true, backslash⟩
  else if c = '>' ∧ ¬ s.inQuotes then ⟨s.inQuotes, false, backslash⟩
  else ⟨s.inQuotes, s.inBrackets, backslash⟩

end Scan

def isSeparator (c : Char) : Bool := c == ',' || c == ';'

/-- The pieces between separators; `piece` is the one being read. -/
def piecesFrom (s : Scan) (piece : Text) : Text → List Text
  | [] => [piece]
  | c :: rest =>
    if isSeparator c ∧ s.outside then piece :: piecesFrom (s.step c) [] rest
    else piecesFrom (s.step c) (piece ++ [c]) rest

/-- The entries of a list, trimmed; empty ones do not count. -/
def split (list : Text) : List Text :=
  ((piecesFrom Scan.init [] list).map Text.trim).filter (· ≠ [])

/-- The recipient that one entry means. A given name wins over the one in the entry, and an entry
that is not a single mailbox is an address as it stands. -/
def interpret (name : Option Text) (entry : Text) (role : Option Role) :
    Except Rejection Recipient :=
  let entry := Text.trim entry
  if entry = [] then .error (.missing .entry)
  else
    match AddressList.ofText? entry with
    | some (.single box :: _) => Recipient.make (name.or box.name) box.address role
    | _ => Recipient.make name entry role

def parse (name : Option Text) (list : Text) (role : Option Role) :
    Except Rejection (List Recipient) :=
  match split list with
  | [] => .error (.missing .list)
  | entries => entries.mapM fun entry => interpret name entry role

end Entries
end Epistle
