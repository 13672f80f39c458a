import Epistle.Text.Case
import Epistle.Text.Charset
import Epistle.Text.Dictionary
import Epistle.Text.Split
import Epistle.Transfer.Percent

/-!
Values with parameters, such as `text/plain; charset=utf-8`. A parameter may name a character set
and be percent-encoded, which a star behind its name says, and it may come in numbered pieces.
-/

namespace Epistle

/-- Parameters by name, in the order of their names, each name once. -/
abbrev Parameters := Dictionary

namespace Parameters

def withoutEnd? (e t : Text) : Option Text :=
  if e.isSuffixOf t then some (t.take (t.length - e.length)) else none

def unquote (t : Text) : Text :=
  match t with
  | '"' :: c :: rest => if (c :: rest).getLast? = some '"' then (c :: rest).dropLast else t
  | _ => t

def ofPiece? (piece : Text) : Option (Text × Text) :=
  (Text.cut? '=' piece).map fun (name, value) =>
    (Case.lower (Text.trim name), unquote (Text.trim value))

/-- The names of encoded parameters, stars dropped, that no plain parameter already answers. -/
def encodedNames (ps : Parameters) : List Text :=
  (ps.filterMap fun (n, _) => withoutEnd? ['*'] n).filter fun n => !ps.has n

/-- How an encoded parameter is read: the label of its character set, and whether its value
begins with that label. -/
structure Encoding where
  label : Text
  labelled : Bool
  deriving DecidableEq, Repr

def labelOf (ps : Parameters) (name : Text) : Text :=
  (((ps.get? (name ++ ['*'])).getD []).takeWhile (· ≠ '\''))

def setEncoding (name : Text) (e : Encoding) (es : List (Text × Encoding)) :
    List (Text × Encoding) :=
  (name, e) :: es.filter (·.1 ≠ name)

def encodings (ps : Parameters) : List (Text × Encoding) :=
  let names := encodedNames ps
  -- The first of the numbered pieces names the character set of all of them.
  names.foldl (fun es name =>
    match withoutEnd? "*0".toList name with
    | some base =>
      (names.filter fun n => (base ++ ['*']).isPrefixOf n).foldl
        (fun es n => setEncoding n ⟨labelOf ps name, n == name⟩ es) es
    | none =>
      if es.any (·.1 == name) then es else setEncoding name ⟨labelOf ps name, true⟩ es) []

def afterLabel (value : Text) : Text :=
  match Text.cut? '\'' value with
  | none => []
  | some (_, rest) => ((Text.cut? '\'' rest).map Prod.snd).getD []

def decodeAll [Charsets] (ps : Parameters) : Parameters :=
  (encodings ps).foldl (fun acc (name, e) =>
    match Charset.ofLabel? e.label with
    -- A parameter in an unknown character set stays as it is, star included.
    | none => acc
    | some charset =>
      let starred := name ++ ['*']
      let value := (acc.get? starred).getD []
      let bytes := Percent.decode (Utf8.encode (if e.labelled then afterLabel value else value))
      (acc.remove starred).set name (charset.decode bytes)) ps

/-- The numbered pieces of `base` from number `i` on, joined, and the parameters without them. -/
def takePieces (base : Text) (ps : Parameters) : Nat → Nat → Text × Parameters
  | _, 0 => ([], ps)
  | i, left + 1 =>
    let name := base ++ '*' :: (toString i).toList
    match ps.get? name with
    | none => ([], ps)
    | some piece =>
      let (more, rest) := takePieces base (ps.remove name) (i + 1) left
      (piece ++ more, rest)

def joinAll (ps : Parameters) : Parameters :=
  let bases := (ps.filterMap fun (n, _) => withoutEnd? "*0".toList n).filter fun n => !ps.has n
  bases.foldl (fun acc base =>
    let (value, rest) := takePieces base acc 0 acc.length
    rest.set base value) ps

end Parameters

structure Parameterized where
  value : Text
  params : Parameters
  deriving DecidableEq, Repr

def Parameterized.read [Charsets] (t : Text) : Parameterized :=
  match Text.splitAll ';' t with
  | [] => ⟨[], []⟩
  | value :: pieces =>
    ⟨Text.trim value,
      Parameters.joinAll (Parameters.decodeAll
        (Dictionary.ofList (pieces.filterMap Parameters.ofPiece?)))⟩

end Epistle
