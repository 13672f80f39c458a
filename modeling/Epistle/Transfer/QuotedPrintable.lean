import Epistle.Text.Charset
import Epistle.Text.Split

/-!
Quoted-printable as lenient readers take it: octets outside printable ASCII, tab and line breaks
are passed over, blanks at the end of a line are dropped, and an equals sign without two
hexadecimal digits behind it stands for itself.
-/

namespace Epistle

def hexValue? (c : Char) : Option Nat :=
  if '0' ≤ c ∧ c ≤ '9' then some (c.toNat - '0'.toNat)
  else if 'a' ≤ c ∧ c ≤ 'f' then some (c.toNat - 'a'.toNat + 10)
  else if 'A' ≤ c ∧ c ≤ 'F' then some (c.toNat - 'A'.toNat + 10)
  else none

namespace QuotedPrintable

def isKept (b : UInt8) : Bool :=
  b == 0x09 || b == 0x0A || b == 0x0D || (0x20 ≤ b.toNat && b.toNat ≤ 0x7E)

def octet (c : Char) : UInt8 := UInt8.ofNat c.toNat

/-- The octets of one line, and whether a line break follows them: an equals sign at the end of
the line joins it to the next. -/
def decodeLine : Text → Octets × Bool
  | [] => ([], true)
  | ['='] => ([], false)
  | ['=', c] => ([octet '=', octet c], true)
  | '=' :: c :: d :: rest =>
    let (bytes, ends) := decodeLine rest
    match hexValue? c, hexValue? d with
    | some i, some j => (UInt8.ofNat (i * 16 + j) :: bytes, ends)
    | _, _ => (octet '=' :: octet c :: octet d :: bytes, ends)
  | c :: rest =>
    let (bytes, ends) := decodeLine rest
    (octet c :: bytes, ends)

/-- Joins the decoded lines. The break behind the last line is kept only if `closed`. -/
def join (closed : Bool) : List (Octets × Bool) → Octets
  | [] => []
  | [(bytes, ends)] => bytes ++ if ends && closed then [0x0D, 0x0A] else []
  | (bytes, ends) :: rest => bytes ++ (if ends then [0x0D, 0x0A] else []) ++ join closed rest

def decode (bytes : Octets) : Octets :=
  let kept : Text := (bytes.filter isKept).map Charset.ofLatin1
  join (kept.getLast? == some '\n')
    ((Text.lines kept).map fun line => decodeLine (Text.trimEnd line))

end QuotedPrintable
end Epistle
