/-!
Text and octets are lists, so that every law about them is an induction. Character classes are
stated here once: control characters, ASCII, and the comparison of names that ignores ASCII case.
-/

namespace Epistle

abbrev Text := List Char

abbrev Octets := List UInt8

/-- A literal may stand where text is expected. -/
instance : Coe String Text := ⟨String.toList⟩

namespace Text

def isAscii (c : Char) : Bool := c.toNat < 0x80

/-- The control characters of ASCII and of the supplement that follows it. -/
def isControl (c : Char) : Bool := c.toNat < 0x20 || (0x7F ≤ c.toNat && c.toNat < 0xA0)

def hasControl (t : Text) : Bool := t.any isControl

/-- ASCII from the space to the tilde. -/
def isPrintable (c : Char) : Bool := 0x20 ≤ c.toNat && c.toNat < 0x7F

/-- Controls become spaces, so that the text fits on one line. -/
def withoutControls (t : Text) : Text := t.map fun c => if isControl c then ' ' else c

def lowerAscii (t : Text) : Text := t.map Char.toLower

/-- Equality up to ASCII case, as field names are compared. -/
def sameName (a b : Text) : Bool := lowerAscii a == lowerAscii b

/-- The texts one after another, with `sep` between neighbours. -/
def joinWith (sep : Text) : List Text → Text
  | [] => []
  | [t] => t
  | t :: rest => t ++ sep ++ joinWith sep rest

end Text
end Epistle
