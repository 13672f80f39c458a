import Epistle.Text.Basic

/-!
The date line of a message, in universal time. Days are counted from the first of March of year
zero, so that the leap day ends the year it belongs to.
-/

namespace Epistle
namespace Date

/-- Microseconds since the beginning of 1970. -/
abbrev Instant := Nat

structure Day where
  year : Nat
  month : Nat
  day : Nat
  deriving DecidableEq, Repr

/-- The day that comes `n` days after the first of January 1970. -/
def Day.ofEpochDays (n : Nat) : Day :=
  let z := n + 719468
  let era := z / 146097
  let doe := z % 146097
  let yoe := (doe - doe / 1460 + doe / 36524 - doe / 146096) / 365
  let doy := doe - (365 * yoe + yoe / 4 - yoe / 100)
  let mp := (5 * doy + 2) / 153
  let month := if mp < 10 then mp + 3 else mp - 9
  ⟨yoe + era * 400 + (if month ≤ 2 then 1 else 0), month, doy - (153 * mp + 2) / 5 + 1⟩

def weekdays : List String := ["Thu", "Fri", "Sat", "Sun", "Mon", "Tue", "Wed"]

def months : List String :=
  ["Jan", "Feb", "Mar", "Apr", "May", "Jun", "Jul", "Aug", "Sep", "Oct", "Nov", "Dec"]

def digits (n : Nat) : Text := (toString n).toList

def padded (width n : Nat) : Text :=
  let d := digits n
  List.replicate (width - d.length) '0' ++ d

def format (t : Instant) : Text :=
  let seconds := t / 1000000
  let days := seconds / 86400
  let time := seconds % 86400
  let d := Day.ofEpochDays days
  (weekdays.getD (days % 7) "").toList ++ ", ".toList ++ digits d.day ++ [' '] ++
    (months.getD (d.month - 1) "").toList ++ [' '] ++ padded 4 d.year ++ [' '] ++
    padded 2 (time / 3600) ++ [':'] ++ padded 2 (time / 60 % 60) ++ [':'] ++ padded 2 (time % 60) ++
    " +0000".toList

end Date
end Epistle
