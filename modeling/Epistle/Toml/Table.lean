import Epistle.Settings.Datum

/-!
The tables of a TOML document while it is being read. A table may be defined once, by a header or
by keys with dots; a table that only stands on the way to another may still be defined later.
-/

namespace Epistle
namespace Toml

/-- How a table came to be: by its own header, on the way of a header, or on the way of a key. -/
inductive Origin where
  | header | passage | dotted
  deriving DecidableEq, Repr

inductive Node where
  | value (d : Datum)
  | table (origin : Origin) (entries : List (Text × Node))
  | tables (items : List (List (Text × Node)))

abbrev Entries := List (Text × Node)

def put (key : Text) (node : Node) : Entries → Entries
  | [] => [(key, node)]
  | (k, n) :: rest => if k = key then (key, node) :: rest else (k, n) :: put key node rest

/-- Changes the table that `path` leads to, in the last one of a list of tables; tables that are
not there are made. Keys with dots do not lead through tables that have a header. -/
def change (byKey : Bool) (f : Origin → Entries → Option Entries) :
    List Text → Origin → Entries → Option Entries
  | [], origin, es => f origin es
  | key :: path, _, es =>
    match es.lookup key with
    | none =>
      let origin := if byKey then .dotted else .passage
      (change byKey f path origin []).map fun t => put key (.table origin t) es
    | some (.value _) => none
    | some (.table origin t) =>
      if byKey ∧ origin = .header then none
      else (change byKey f path origin t).map fun t => put key (.table origin t) es
    | some (.tables items) =>
      match items.getLast? with
      | none => none
      | some t =>
        (change byKey f path .header t).map fun t => put key (.tables (items.dropLast ++ [t])) es

def add (path : List Text) (d : Datum) (origin : Origin) (es : Entries) : Option Entries :=
  match path.getLast? with
  | none => none
  | some key =>
    let way := path.dropLast
    let insert (origin : Origin) (es : Entries) : Option Entries :=
      if (es.lookup key).isSome ∨ (way ≠ [] ∧ origin ≠ .dotted) then none
      else some (put key (.value d) es)
    change true insert way origin es

def addUnder (header path : List Text) (d : Datum) (es : Entries) : Option Entries :=
  change false (add path d) header .header es

/-- Begins the table that a header names. -/
def openTable (header : List Text) (es : Entries) : Option Entries :=
  match header.getLast? with
  | none => none
  | some key =>
    change false (fun _ es =>
      match es.lookup key with
      | none => some (put key (.table .header []) es)
      | some (.table .passage t) => some (put key (.table .header t) es)
      | some _ => none) header.dropLast .header es

/-- Begins one more table of the list that a header names. -/
def openItem (header : List Text) (es : Entries) : Option Entries :=
  match header.getLast? with
  | none => none
  | some key =>
    change false (fun _ es =>
      match es.lookup key with
      | none => some (put key (.tables [[]]) es)
      | some (.tables items) => some (put key (.tables (items ++ [[]])) es)
      | some _ => none) header.dropLast .header es

mutual

def Node.toDatum : Node → Datum
  | .value d => d
  | .table _ es => .record (entriesToDatum es)
  | .tables items => .list (itemsToDatum items)

def entriesToDatum : List (Text × Node) → List (Text × Datum)
  | [] => []
  | (k, n) :: rest => (k, n.toDatum) :: entriesToDatum rest

def itemsToDatum : List (List (Text × Node)) → List Datum
  | [] => []
  | es :: rest => .record (entriesToDatum es) :: itemsToDatum rest

end

end Toml
end Epistle
