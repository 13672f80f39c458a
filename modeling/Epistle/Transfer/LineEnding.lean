import Epistle.Text.Split

/-!
Line endings of text bodies. On the wire a line ends with CRLF; inside a letter it ends with LF.
-/

namespace Epistle
namespace LineEnding

def cr : UInt8 := 0x0D
def lf : UInt8 := 0x0A
def crlf : Octets := [cr, lf]

/-- Puts a CR in front of every LF that has none; `last` is the octet before. -/
def expandFrom (last : UInt8) : Octets → Octets
  | [] => []
  | b :: rest =>
    if b = lf ∧ last ≠ cr then cr :: b :: expandFrom b rest else b :: expandFrom b rest

def expand (bytes : Octets) : Octets := expandFrom 0 bytes

/-- Every `cr` in front of an `lf` goes, from the left; the same on octets and on characters. -/
def collapseWith [DecidableEq α] (cr lf : α) : List α → List α
  | [] => []
  | [c] => [c]
  | c :: d :: rest =>
    if c = cr ∧ d = lf then lf :: collapseWith cr lf rest
    else c :: collapseWith cr lf (d :: rest)

def collapse (t : Text) : Text := collapseWith '\r' '\n' t

/-- The longest line that may travel without a transfer encoding, its ending not counted. -/
def longestLine : Nat := 998

/-- ASCII that may stand in a line as it is. -/
def isPlain (c : Char) : Bool :=
  Text.isPrintable c || c = '\r' || c = '\n' || c = '\t'

def isSevenBit (t : Text) : Bool :=
  t.all isPlain && (Text.lines t).all fun line => line.length ≤ longestLine

end LineEnding
end Epistle
