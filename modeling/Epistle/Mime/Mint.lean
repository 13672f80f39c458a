import Epistle.Mime.Date

/-!
The source of what makes a message unique: a counter that every generated value takes a number
from, and a clock that may show any instant at each reading. Whatever the clock shows, the numbers
keep boundaries and message identifiers apart.
-/

namespace Epistle

/-- The next number, and the instants that the clock will show. -/
structure Mint where
  counter : UInt64
  clock : Nat → Date.Instant

/-- A computation that may take numbers and read the clock. -/
abbrev Minting := StateM Mint

namespace Mint

def readClock : Minting Date.Instant := fun m =>
  (m.clock 0, { m with clock := fun i => m.clock (i + 1) })

def takeNumber : Minting UInt64 := fun m => (m.counter, { m with counter := m.counter + 1 })

def boundaryText (number : UInt64) (now : Date.Instant) : Text :=
  "----=_Part_".toList ++ Date.digits number.toNat ++ ['_'] ++ Date.digits (now / 1000)

def boundary : Minting Text := do
  let number ← takeNumber
  let now ← readClock
  return boundaryText number now

def messageIdText (number : UInt64) (now : Date.Instant) (domain : Text) : Text :=
  ['<'] ++ Date.digits now ++ ['.'] ++ Date.digits number.toNat ++ ['@'] ++ domain ++ ['>']

/-- An identifier within `domain`. -/
def messageId (domain : Text) : Minting Text := do
  let now ← readClock
  let number ← takeNumber
  return messageIdText number now domain

end Mint
end Epistle
