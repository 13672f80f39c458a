import Epistle.Text.Basic

/-!
Texts by name. A dictionary keeps its entries in the order of their names, each name once, and the
last value given for a name counts.
-/

namespace Epistle

abbrev Dictionary := List (Text × Text)

namespace Dictionary

def get? (d : Dictionary) (name : Text) : Option Text := d.lookup name

def has (d : Dictionary) (name : Text) : Bool := (d.get? name).isSome

/-- Sets `name`, whose earlier value is lost. -/
def set (name value : Text) : Dictionary → Dictionary
  | [] => [(name, value)]
  | (n, v) :: rest =>
    if n = name then (name, value) :: rest
    else if name < n then (name, value) :: (n, v) :: rest
    else (n, v) :: set name value rest

def setAll (d : Dictionary) (entries : List (Text × Text)) : Dictionary :=
  entries.foldl (fun acc (n, v) => acc.set n v) d

def ofList (entries : List (Text × Text)) : Dictionary := setAll [] entries

def remove (d : Dictionary) (name : Text) : Dictionary := d.filter (·.1 ≠ name)

end Dictionary
end Epistle
