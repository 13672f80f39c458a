import Epistle.Address.Recipient

/-!
Content that a letter carries besides its text: octets with their type and a name of their own,
and such a source under the name that the letter gives it.
-/

namespace Epistle

structure DataSource where
  name : Option Text
  contentType : Text
  data : Octets
  deriving DecidableEq, Repr

namespace DataSource

def make (data : Octets) (contentType : Text) : Except Rejection DataSource :=
  if data = [] then .error (.missing .data)
  else if Text.allBlank contentType then .error (.missing .contentType)
  else if Text.hasControl contentType then .error (.invalid .contentType)
  else .ok ⟨none, Text.trim contentType, data⟩

def withName (s : DataSource) (name : Option Text) : DataSource :=
  { s with name := name.filter (· ≠ []) }

/-- What follows the last dot of a file name; a dot in front of everything else begins no
extension. -/
def extension (fileName : Text) : Text :=
  let tail := fileName.reverse.takeWhile (· ≠ '.')
  if tail.length + 1 < fileName.length then tail.reverse else []

def typeOfFile (fileName : Text) : Text :=
  let types : List (String × String) :=
    [("txt", "text/plain"), ("html", "text/html"), ("htm", "text/html"),
      ("pdf", "application/pdf"), ("jpg", "image/jpeg"), ("jpeg", "image/jpeg"),
      ("png", "image/png"), ("gif", "image/gif"), ("svg", "image/svg+xml"),
      ("zip", "application/zip"), ("json", "application/json"), ("xml", "application/xml"),
      ("eml", "message/rfc822")]
  let ext := Text.lowerAscii (extension fileName)
  ((types.find? fun (e, _) => e.toList == ext).map fun (_, t) => t.toList).getD
    "application/octet-stream"

def ofFile (fileName : Text) (data : Octets) : Except Rejection DataSource :=
  (make data (typeOfFile fileName)).map (·.withName (some fileName))

end DataSource

structure Resource where
  given : Option Text
  source : DataSource
  deriving DecidableEq, Repr

namespace Resource

/-- An empty name is none. -/
def make (name : Option Text) (source : DataSource) : Resource := ⟨name.filter (· ≠ []), source⟩

def name (r : Resource) : Option Text := r.given.or r.source.name

end Resource
end Epistle
