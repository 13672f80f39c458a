import Epistle.Text.Basic

/-!
Base64 in its standard alphabet. Writing pads the last group; reading takes groups of four
symbols one by one, so padded groups may follow each other, and does not look at the bits that
padding leaves over.
-/

namespace Epistle
namespace Base64

def symbol (n : Nat) : Char :=
  if n < 26 then Char.ofNat (0x41 + n)
  else if n < 52 then Char.ofNat (0x61 + (n - 26))
  else if n < 62 then Char.ofNat (0x30 + (n - 52))
  else if n = 62 then '+' else '/'

/-- The six bits of a symbol, given by its code. -/
def value? (n : Nat) : Option Nat :=
  if 0x41 ≤ n ∧ n ≤ 0x5A then some (n - 0x41)
  else if 0x61 ≤ n ∧ n ≤ 0x7A then some (n - 0x61 + 26)
  else if 0x30 ≤ n ∧ n ≤ 0x39 then some (n - 0x30 + 52)
  else if n = 0x2B then some 62
  else if n = 0x2F then some 63
  else none

def encode : Octets → Text
  | [] => []
  | [a] => [symbol (a.toNat / 4), symbol (a.toNat % 4 * 16), '=', '=']
  | [a, b] =>
    [symbol (a.toNat / 4), symbol (a.toNat % 4 * 16 + b.toNat / 16), symbol (b.toNat % 16 * 4), '=']
  | a :: b :: c :: rest =>
    symbol (a.toNat / 4) :: symbol (a.toNat % 4 * 16 + b.toNat / 16) ::
      symbol (b.toNat % 16 * 4 + c.toNat / 64) :: symbol (c.toNat % 64) :: encode rest

/-- The longest line of a wrapped body, its ending not counted. -/
def lineLength : Nat := 76

/-- `t` in lines of `lineLength` characters, the last one shorter if need be, each ended by
CRLF; `room` counts what still fits on the line being written. -/
def wrapFrom (room : Nat) : Text → Text
  | [] => if room = lineLength then [] else ['\r', '\n']
  | c :: rest =>
    match room with
    | 0 => '\r' :: '\n' :: c :: wrapFrom (lineLength - 1) rest
    | left + 1 => c :: wrapFrom left rest

def encodeWrapped (bytes : Octets) : Text := wrapFrom lineLength (encode bytes)

def isPad (b : UInt8) : Bool := b == 0x3D

/-- The octets of one group of four. Padding may stand for the last symbol or the last two. -/
def decodeGroup? (a b c d : UInt8) : Option Octets := do
  let i ← value? a.toNat
  let j ← value? b.toNat
  let x := UInt8.ofNat (i * 4 + j / 16)
  if isPad c && isPad d then return [x]
  let k ← value? c.toNat
  let y := UInt8.ofNat (j % 16 * 16 + k / 4)
  if isPad d then return [x, y]
  let l ← value? d.toNat
  return [x, y, UInt8.ofNat (k % 4 * 64 + l)]

def decodeGroups? : Octets → Option Octets
  | [] => some []
  | a :: b :: c :: d :: rest => do
    let front ← decodeGroup? a b c d
    let back ← decodeGroups? rest
    return front ++ back
  | _ => none

def isLineBreak (b : UInt8) : Bool := b == 0x0D || b == 0x0A

def isBlankOctet (b : UInt8) : Bool :=
  b == 0x20 || b == 0x09 || b == 0x0A || b == 0x0C || b == 0x0D

/-- The octets of a single word, within which only line breaks are passed over. -/
def decodeWord? (bytes : Octets) : Option Octets :=
  decodeGroups? (bytes.filter fun b => !isLineBreak b)

/-- The octets of a body, within which white space is passed over. -/
def decodeBody? (bytes : Octets) : Option Octets :=
  decodeGroups? (bytes.filter fun b => !isBlankOctet b)

end Base64
end Epistle
