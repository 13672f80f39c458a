import Epistle.Mime.Resource
import Epistle.Mime.Part

/-!
Values shown for inspection. Text stands in double quotes, with escapes for what would not show,
and content is shown by its length alone.
-/

namespace Epistle
namespace Literal

def hexDigit (n : Nat) : Char := if n < 10 then Char.ofNat (0x30 + n) else Char.ofNat (0x57 + n)

def hexDigits (n : Nat) : Text :=
  if n < 16 then [hexDigit n] else [hexDigit (n / 16), hexDigit (n % 16)]

/-- One character between double quotes. -/
def escapeChar (c : Char) : Text :=
  match c with
  | '"' => ['\\', '"']
  | '\\' => ['\\', '\\']
  | '\n' => ['\\', 'n']
  | '\r' => ['\\', 'r']
  | '\t' => ['\\', 't']
  | _ =>
    if c.toNat = 0 then ['\\', '0']
    else if Text.isControl c then ['\\', 'u', '\x7b'] ++ hexDigits c.toNat ++ ['\x7d']
    else [c]

def quote (t : Text) : Text := ['"'] ++ t.flatMap escapeChar ++ ['"']

def optional : Option Text → Text
  | none => "None"
  | some t => "Some(".toList ++ quote t ++ [')']

/-- Labelled values in braces. -/
def record (label : Text) (fields : List (Text × Text)) : Text :=
  label ++ [' ', '\x7b', ' '] ++
    Text.joinWith ", ".toList (fields.map fun (n, v) => n ++ ": ".toList ++ v) ++ [' ', '\x7d']

end Literal

def DataSource.describe (s : DataSource) : Text :=
  Literal.record "DataSource" [("name", Literal.optional s.name),
    ("content_type", Literal.quote s.contentType), ("len", Date.digits s.data.length)]

def Message.describe (m : Message) : Text :=
  Literal.record "MimeMessage" [("len", Date.digits m.octets.length)]

end Epistle
