import Epistle.Toml.Scalar
import Epistle.Toml.Table

/-!
TOML documents: values, inline tables and arrays, and the lines that set them under headers. Values
nest to a fixed depth.
-/

namespace Epistle
namespace Toml

def skipComment (t : Text) : Text :=
  match t with
  | '#' :: rest => rest.dropWhile isPlain
  | _ => t

/-- Skips blanks, line breaks and comments, as between the items of an array. -/
def skipLines : Nat → Text → Text
  | 0, t => t
  | fuel + 1, t =>
    let t := skipComment (skipSpaces t)
    match afterBreak? t with
    | some rest => skipLines fuel rest
    | none => t

def filler (t : Text) : Text := skipLines t.length t

/-- A word, a number or a date. -/
def atom? (t : Text) : Option (Datum × Text) :=
  let (run, rest) := atom t
  if run = "true".toList then some (.bool true, rest)
  else if run = "false".toList then some (.bool false, rest)
  else if isMoment run then some (.other, rest)
  else
    match float? run with
    | some fits => if fits then some (.other, rest) else none
    | none => (integer? run).map fun n => (.int n, rest)

mutual

/-- One value; `depth` counts how much deeper values may nest. -/
def value? : (fuel depth : Nat) → Text → Option (Datum × Text)
  | 0, _, _ => none
  | fuel + 1, depth, t =>
    match t with
    | '"' :: _ => (string? t).map fun (s, rest) => (.text s, rest)
    | '\'' :: _ => (string? t).map fun (s, rest) => (.text s, rest)
    | '[' :: rest =>
      if depth = 0 then none
      else (items? fuel (depth - 1) (filler rest)).map fun (ds, rest) => (.list ds, rest)
    | '{' :: rest =>
      if depth = 0 then none
      else
        match skipSpaces rest with
        | '}' :: rest => some (.record [], rest)
        | rest => (pairs? fuel (depth - 1) [] rest).map fun (es, rest) =>
          (.record (entriesToDatum es), rest)
    | _ => atom? t

/-- The items of an array up to its bracket; a comma may stand behind the last. -/
def items? : (fuel depth : Nat) → Text → Option (List Datum × Text)
  | 0, _, _ => none
  | fuel + 1, depth, t =>
    match t with
    | ']' :: rest => some ([], rest)
    | _ =>
      match value? fuel depth t with
      | none => none
      | some (d, rest) =>
        match filler rest with
        | ',' :: rest => (items? fuel depth (filler rest)).map fun (ds, rest) => (d :: ds, rest)
        | ']' :: rest => some ([d], rest)
        | _ => none

/-- The pairs of an inline table up to its brace, on one line. -/
def pairs? : (fuel depth : Nat) → Entries → Text → Option (Entries × Text)
  | 0, _, _, _ => none
  | fuel + 1, depth, es, t =>
    match path? t with
    | some (path, '=' :: rest) =>
      match value? fuel depth (skipSpaces rest) with
      | none => none
      | some (d, rest) =>
        match add path d .header es, skipSpaces rest with
        | some es, ',' :: rest => pairs? fuel depth es (skipSpaces rest)
        | some es, '}' :: rest => some (es, rest)
        | _, _ => none
    | _ => none

end

structure Document where
  header : List Text
  entries : Entries

def lineEnd? (t : Text) : Option Text :=
  match skipComment (skipSpaces t) with
  | [] => some []
  | rest => afterBreak? rest

def statement? (doc : Document) (t : Text) : Option (Document × Text) :=
  match t with
  | '[' :: '[' :: rest =>
    match path? rest with
    | some (path, ']' :: ']' :: rest) =>
      (openItem path doc.entries).map fun es => (⟨path, es⟩, rest)
    | _ => none
  | '[' :: rest =>
    match path? rest with
    | some (path, ']' :: rest) =>
      (openTable path doc.entries).map fun es => (⟨path, es⟩, rest)
    | _ => none
  | _ =>
    match path? t with
    | some (path, '=' :: rest) =>
      match value? (rest.length + 1) deepest (skipSpaces rest) with
      | some (d, rest) =>
        (addUnder doc.header path d doc.entries).map fun es => ({ doc with entries := es }, rest)
      | none => none
    | _ => none

def line? (doc : Document) (t : Text) : Option (Document × Text) :=
  let t := skipSpaces t
  match lineEnd? t with
  | some rest => some (doc, rest)
  | none =>
    (statement? doc t).bind fun (doc, rest) => (lineEnd? rest).map fun rest => (doc, rest)

def lines? : Nat → Document → Text → Option Document
  | _, doc, [] => some doc
  | 0, _, _ => none
  | fuel + 1, doc, t => (line? doc t).bind fun (doc, rest) => lines? fuel doc rest

/-- A byte order mark in front of a document is no part of it. -/
def skipMark (t : Text) : Text :=
  match t with
  | c :: rest => if c.toNat = 0xFEFF then rest else t
  | [] => []

def read? (t : Text) : Option Datum :=
  let t := skipMark t
  (lines? t.length ⟨[], []⟩ t).map fun doc => .record (entriesToDatum doc.entries)

end Toml

end Epistle
