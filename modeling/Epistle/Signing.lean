import Epistle.Error
import Epistle.Text.Blank

/-!
What a letter is to be signed with. The key may stand ready, lie in a file, or come from a reader
that all copies of a letter share; a reader is known here by a number, and what it still holds is
kept apart in a `KeyStore`.
-/

namespace Epistle

inductive SigningKey where
  | octets (bytes : Octets)
  | file (path : Text)
  | reader (id : Nat)
  deriving DecidableEq, Repr

namespace SigningKey

/-- A reader counts as present before it is read. -/
def isMissing : SigningKey → Bool
  | octets bytes => bytes.isEmpty
  | file path => path.isEmpty
  | reader _ => false

end SigningKey

structure Signing where
  key : SigningKey
  domain : Text
  selector : Text
  deriving DecidableEq, Repr

def Signing.make (key : SigningKey) (domain selector : Text) : Except Rejection Signing :=
  if key.isMissing then .error (.missing .signingKey)
  else if Text.allBlank domain then .error (.missing .signingDomain)
  else if Text.allBlank selector then .error (.missing .signingSelector)
  else .ok ⟨key, domain, selector⟩

/-- What the readers still hold, by number. -/
structure KeyStore where
  contents : List Octets
  deriving DecidableEq, Repr

namespace KeyStore

def empty : KeyStore := ⟨[]⟩

/-- A new reader over `bytes`. -/
def add (s : KeyStore) (bytes : Octets) : KeyStore × SigningKey :=
  (⟨s.contents ++ [bytes]⟩, .reader s.contents.length)

/-- Reads a reader to its end, which leaves nothing for the next. -/
def drain (s : KeyStore) (id : Nat) : KeyStore × Octets :=
  (⟨s.contents.set id []⟩, s.contents.getD id [])

end KeyStore
end Epistle
