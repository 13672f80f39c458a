import Epistle.Text.Basic

/-!
The inside of a quoted string: a backslash stands before each backslash and each quote.
-/

namespace Epistle
namespace Quoted

def escapeChar (c : Char) : Text := if c = '\\' || c = '"' then ['\\', c] else [c]

def escape (t : Text) : Text := t.flatMap escapeChar

end Quoted
end Epistle
