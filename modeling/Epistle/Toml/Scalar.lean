import Epistle.Text.Split
import Epistle.Transfer.QuotedPrintable

/-!
The scalars of TOML documents and the keys in front of them. Every reader takes the text that its
value begins and returns what is left; numbers and dates are read whole, since the next character
decides what they are.
-/

namespace Epistle
namespace Toml

def isSpace (c : Char) : Bool := c == ' ' || c == '\t'

def skipSpaces (t : Text) : Text := t.dropWhile isSpace

def afterBreak? : Text → Option Text
  | '\n' :: rest => some rest
  | '\r' :: '\n' :: rest => some rest
  | _ => none

/-- A tab and everything visible, but no other control character. -/
def isPlain (c : Char) : Bool := c == '\t' || (0x20 ≤ c.toNat && c.toNat != 0x7F)

def after? (t text : Text) : Option Text :=
  if t.isPrefixOf text then some (text.drop t.length) else none

/-- The character that `count` hexadecimal digits number; surrogates number none. -/
def hexChar? (count : Nat) (t : Text) : Option (Char × Text) := do
  let digits := t.take count
  if digits.length < count then none
  else
    let n ← digits.foldlM (fun n c => (hexValue? c).map (n * 16 + ·)) 0
    if n < 0xD800 ∨ (0xDFFF < n ∧ n < 0x110000) then some (Char.ofNat n, t.drop count) else none

def escape? : Text → Option (Char × Text)
  | 'b' :: rest => some ('\x08', rest)
  | 't' :: rest => some ('\t', rest)
  | 'n' :: rest => some ('\n', rest)
  | 'f' :: rest => some ('\x0c', rest)
  | 'r' :: rest => some ('\r', rest)
  | '"' :: rest => some ('"', rest)
  | '\\' :: rest => some ('\\', rest)
  | 'u' :: rest => hexChar? 4 rest
  | 'U' :: rest => hexChar? 8 rest
  | _ => none

def basic? (acc : Text) : Nat → Text → Option (Text × Text)
  | 0, _ => none
  | fuel + 1, t =>
    match t with
    | '"' :: rest => some (acc, rest)
    | '\\' :: rest => (escape? rest).bind fun (c, rest) => basic? (acc ++ [c]) fuel rest
    | c :: rest => if isPlain c then basic? (acc ++ [c]) fuel rest else none
    | [] => none

def literal? (t : Text) : Option (Text × Text) :=
  let inside := t.takeWhile fun c => c != '\'' && isPlain c
  match t.drop inside.length with
  | '\'' :: rest => some (inside, rest)
  | _ => none

/-- The end of a string between tripled quotes, of which `t` shows the first: up to two more of
them belong to the string. -/
def tripleEnd? (quote : Char) (t : Text) : Option (Text × Text) :=
  let run := (t.takeWhile (· == quote)).length
  if run < 3 then none
  else
    let extra := min (run - 3) 2
    some (List.replicate extra quote, t.drop (extra + 3))

def skipBreaks : Text → Text
  | ' ' :: rest => skipBreaks rest
  | '\t' :: rest => skipBreaks rest
  | '\n' :: rest => skipBreaks rest
  | '\r' :: '\n' :: rest => skipBreaks rest
  | t => t

/-- What follows a backslash at the end of a line: the next visible character. -/
def joinLines? (t : Text) : Option Text := (afterBreak? (skipSpaces t)).map skipBreaks

/-- The inside of a string between tripled quotes; `escapes` says whether a backslash does. -/
def triple? (quote : Char) (escapes : Bool) (acc : Text) : Nat → Text → Option (Text × Text)
  | 0, _ => none
  | fuel + 1, t =>
    match tripleEnd? quote t with
    | some (extra, rest) => some (acc ++ extra, rest)
    | none =>
      match afterBreak? t with
      | some rest => triple? quote escapes (acc ++ ['\n']) fuel rest
      | none =>
        match t with
        | [] => none
        | c :: rest =>
          if escapes ∧ c = '\\' then
            match joinLines? rest with
            | some rest => triple? quote escapes acc fuel rest
            | none =>
              (escape? rest).bind fun (c, rest) => triple? quote escapes (acc ++ [c]) fuel rest
          else if isPlain c then triple? quote escapes (acc ++ [c]) fuel rest
          else none

/-- A line break right behind the opening quotes does not count. -/
def skipFirstBreak (t : Text) : Text := (afterBreak? t).getD t

def string? (t : Text) : Option (Text × Text) :=
  match after? "\"\"\"" t, after? "'''" t with
  | some rest, _ => triple? '"' true [] (rest.length + 1) (skipFirstBreak rest)
  | none, some rest => triple? '\'' false [] (rest.length + 1) (skipFirstBreak rest)
  | none, none =>
    match t with
    | '"' :: rest => basic? [] (rest.length + 1) rest
    | '\'' :: rest => literal? rest
    | _ => none

def isBareKey (c : Char) : Bool := c.isAlphanum || c == '-' || c == '_'

def simpleKey? (t : Text) : Option (Text × Text) :=
  match t with
  | '"' :: rest => basic? [] (rest.length + 1) rest
  | '\'' :: rest => literal? rest
  | _ =>
    let key := t.takeWhile isBareKey
    if key = [] then none else some (key, t.drop key.length)

def keys? : Nat → Text → Option (List Text × Text)
  | 0, _ => none
  | fuel + 1, t =>
    match simpleKey? (skipSpaces t) with
    | none => none
    | some (k, rest) =>
      match skipSpaces rest with
      | '.' :: rest => (keys? fuel rest).map fun (ks, rest) => (k :: ks, rest)
      | rest => some ([k], rest)

/-- Values inside values, and tables inside tables, go no deeper than this. -/
def deepest : Nat := 79

def path? (t : Text) : Option (List Text × Text) :=
  (keys? (t.length + 1) t).filter fun (path, _) => path.length ≤ deepest

/-- Digits with single underscores between them. -/
def isDigits (digit : Char → Bool) : Text → Bool
  | [] => false
  | [c] => digit c
  | c :: '_' :: rest => digit c && isDigits digit rest
  | c :: rest => digit c && isDigits digit rest

def isHexDigit (c : Char) : Bool := (hexValue? c).isSome

def number (base : Nat) (t : Text) : Nat :=
  t.foldl (fun n c => match hexValue? c with
    | some d => n * base + d
    | none => n) 0

def withoutSign : Text → Text
  | '+' :: rest => rest
  | '-' :: rest => rest
  | t => t

def noLeadingZero : Text → Bool
  | ['0'] => true
  | '0' :: _ => false
  | _ => true

def integer? (t : Text) : Option Int :=
  let radix (base : Nat) (digit : Char → Bool) (body : Text) : Option Int :=
    if isDigits digit body ∧ number base body < Nat.pow 2 63 then some (number base body) else none
  match t with
  | '0' :: 'x' :: body => radix 16 isHexDigit body
  | '0' :: 'o' :: body => radix 8 (fun c => '0' ≤ c && c ≤ '7') body
  | '0' :: 'b' :: body => radix 2 (fun c => c == '0' || c == '1') body
  | _ =>
    let body := withoutSign t
    if isDigits Char.isDigit body && noLeadingZero body then
      let n : Int := if t.head? = some '-' then -(number 10 body : Int) else number 10 body
      if -(Nat.pow 2 63 : Int) ≤ n ∧ n < Nat.pow 2 63 then some n else none
    else none

def isExponent (c : Char) : Bool := c == 'e' || c == 'E'

/-- A number with a fraction or an exponent, its sign aside: `mantissa` times ten to the power
`exponent`. -/
structure Decimal where
  mantissa : Nat
  exponent : Int
  deriving DecidableEq, Repr

namespace Decimal

def power? (t : Text) : Option Int :=
  let body := withoutSign t
  if isDigits Char.isDigit body then
    some (if t.head? = some '-' then -(number 10 body : Int) else number 10 body)
  else none

def read? (t : Text) : Option Decimal :=
  let isPart (c : Char) : Bool := c.isDigit || c == '_'
  let whole := t.takeWhile isPart
  if !(isDigits Char.isDigit whole && noLeadingZero whole) then none
  else
    match t.drop whole.length with
    | '.' :: rest =>
      let fraction := rest.takeWhile isPart
      if !isDigits Char.isDigit fraction then none
      else
        let mantissa := number 10 (whole ++ fraction)
        let shift : Int := (fraction.filter Char.isDigit).length
        match rest.drop fraction.length with
        | [] => some ⟨mantissa, -shift⟩
        | e :: rest =>
          if isExponent e then (power? rest).map fun p => ⟨mantissa, p - shift⟩ else none
    | e :: rest => if isExponent e then (power? rest).map fun p => ⟨number 10 whole, p⟩ else none
    | [] => none

/-- Numbers from here on are nearer to two to the power 1024 than to any double. -/
def bound : Nat := Nat.pow 2 1024 - Nat.pow 2 970

/-- The nearest double is not infinite. The bound has 309 digits and begins with a one, so only
numbers of 309 digits in front of the point have to be compared with it. -/
def isFinite (d : Decimal) : Bool :=
  let size : Int := (toString d.mantissa).length + d.exponent
  if d.mantissa = 0 ∨ size < 309 then true
  else if 309 < size then false
  else if 0 ≤ d.exponent then d.mantissa * Nat.pow 10 d.exponent.toNat < bound
  else d.mantissa < bound * Nat.pow 10 (-d.exponent).toNat

end Decimal

def isSpecialFloat (t : Text) : Bool :=
  let body := withoutSign t
  body == "inf".toList || body == "nan".toList

/-- What `t` says as a floating-point number, if it is one: whether that number may stand in a
document. Only numbers that are too large for a double may not, and those only without a minus. -/
def float? (t : Text) : Option Bool :=
  if isSpecialFloat t then some true
  else (Decimal.read? (withoutSign t)).map fun d => t.head? = some '-' || d.isFinite

/-- The number that `t` spells in exactly `width` digits. -/
def fixed? (width : Nat) (t : Text) : Option Nat :=
  if t.length = width ∧ t.all Char.isDigit then some (number 10 t) else none

def isLeap (y : Nat) : Bool := y % 4 == 0 && (y % 100 != 0 || y % 400 == 0)

def monthLength (y m : Nat) : Nat :=
  if m = 2 then (if isLeap y then 29 else 28)
  else if m ∈ [4, 6, 9, 11] then 30 else 31

def isDate (t : Text) : Bool :=
  match t with
  | [a, b, c, d, '-', e, f, '-', g, h] =>
    match fixed? 4 [a, b, c, d], fixed? 2 [e, f], fixed? 2 [g, h] with
    | some y, some m, some day => 1 ≤ m && m ≤ 12 && 1 ≤ day && day ≤ monthLength y m
    | _, _, _ => false
  | _ => false

def isMinute (a b c d : Char) : Bool :=
  match fixed? 2 [a, b], fixed? 2 [c, d] with
  | some h, some m => h ≤ 23 && m ≤ 59
  | _, _ => false

def isOffset : Text → Bool
  | [] => true
  | ['Z'] => true
  | ['z'] => true
  | [s, a, b, ':', c, d] => (s == '+' || s == '-') && isMinute a b c d
  | _ => false

/-- A time of day; `offset` says whether a distance from universal time may follow. -/
def isTime (offset : Bool) (t : Text) : Bool :=
  match t with
  | a :: b :: ':' :: c :: d :: ':' :: e :: f :: rest =>
    let second := match fixed? 2 [e, f] with
      | some s => s ≤ 60
      | none => false
    let rest := match rest with
      | '.' :: c :: more => if c.isDigit then more.dropWhile Char.isDigit else rest
      | _ => rest
    isMinute a b c d && second && if offset then isOffset rest else rest.isEmpty
  | _ => false

def isMoment (t : Text) : Bool :=
  let date := t.take 10
  if isDate date then
    match t.drop 10 with
    | [] => true
    | c :: time => (c == 'T' || c == 't' || c == ' ') && isTime true time
  else isTime false t

def isAtomChar (c : Char) : Bool :=
  c.isAlphanum || c == '+' || c == '-' || c == '_' || c == '.' || c == ':'

/-- The longest run that may be a number or a date; one space may stand between a date and a
time. -/
def atom (t : Text) : Text × Text :=
  let run := t.takeWhile isAtomChar
  let rest := t.drop run.length
  match rest with
  | ' ' :: d :: more =>
    if isDate run ∧ d.isDigit then
      let time := (d :: more).takeWhile isAtomChar
      (run ++ ' ' :: time, rest.drop (time.length + 1))
    else (run, rest)
  | _ => (run, rest)

end Toml
end Epistle
