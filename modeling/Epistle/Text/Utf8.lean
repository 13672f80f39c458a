import Epistle.Text.Basic

/-!
UTF-8. The decoder reads one octet at a time and keeps what it has seen of an unfinished
character; an octet that cannot continue it ends the damaged sequence, which counts as one
malformed place, and is read again as a first octet.
-/

namespace Epistle
namespace Utf8

def encodeChar (c : Char) : Octets :=
  let n := c.toNat
  if n < 0x80 then [UInt8.ofNat n]
  else if n < 0x800 then [UInt8.ofNat (0xC0 + n / 64), UInt8.ofNat (0x80 + n % 64)]
  else if n < 0x10000 then
    [UInt8.ofNat (0xE0 + n / 4096), UInt8.ofNat (0x80 + n / 64 % 64), UInt8.ofNat (0x80 + n % 64)]
  else
    [UInt8.ofNat (0xF0 + n / 262144), UInt8.ofNat (0x80 + n / 4096 % 64),
      UInt8.ofNat (0x80 + n / 64 % 64), UInt8.ofNat (0x80 + n % 64)]

def encode (t : Text) : Octets := t.flatMap encodeChar

def width (c : Char) : Nat := (encodeChar c).length

def size (t : Text) : Nat := (encode t).length

/-- What is known of an unfinished character: how many octets it still needs, the value of its
bits so far, and the range that its next octet must lie in. -/
structure Pending where
  needed : Nat
  value : Nat
  low : Nat
  high : Nat
  deriving DecidableEq, Repr

/-- The state after the first octet `n` of a character that needs more octets. -/
def Pending.ofLead? (n : Nat) : Option Pending :=
  if 0xC2 ≤ n ∧ n ≤ 0xDF then some ⟨1, n - 0xC0, 0x80, 0xBF⟩
  else if n = 0xE0 then some ⟨2, 0, 0xA0, 0xBF⟩
  else if n = 0xED then some ⟨2, 0xD, 0x80, 0x9F⟩
  else if 0xE1 ≤ n ∧ n ≤ 0xEF then some ⟨2, n - 0xE0, 0x80, 0xBF⟩
  else if n = 0xF0 then some ⟨3, 0, 0x90, 0xBF⟩
  else if n = 0xF4 then some ⟨3, 4, 0x80, 0x8F⟩
  else if 0xF1 ≤ n ∧ n ≤ 0xF3 then some ⟨3, n - 0xF0, 0x80, 0xBF⟩
  else none

/-- The characters that one octet `n` completes, and the state after it, when no character is
unfinished. A malformed place is `none`. -/
def first (n : Nat) : List (Option Char) × Option Pending :=
  if n < 0x80 then ([some (Char.ofNat n)], none)
  else match Pending.ofLead? n with
    | some p => ([], some p)
    | none => ([none], none)

def next (state : Option Pending) (n : Nat) : List (Option Char) × Option Pending :=
  match state with
  | none => first n
  | some p =>
    if p.low ≤ n ∧ n ≤ p.high then
      let value := p.value * 64 + (n - 0x80)
      if p.needed = 1 then ([some (Char.ofNat value)], none)
      else ([], some ⟨p.needed - 1, value, 0x80, 0xBF⟩)
    else (none :: (first n).1, (first n).2)

/-- The characters of `bytes`, with `none` at each malformed place. -/
def readFrom (state : Option Pending) : Octets → List (Option Char)
  | [] => if state.isSome then [none] else []
  | b :: rest => (next state b.toNat).1 ++ readFrom (next state b.toNat).2 rest

def decode? (bytes : Octets) : Option Text := (readFrom none bytes).mapM id

def replacement : Char := Char.ofNat 0xFFFD

/-- The text of any octets; a malformed place becomes one replacement character. -/
def decode (bytes : Octets) : Text := (readFrom none bytes).map (·.getD replacement)

end Utf8
end Epistle
