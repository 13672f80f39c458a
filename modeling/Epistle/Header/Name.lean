import Epistle.Header.Field

/-!
Names of header fields: which characters they may have, and which fields belong to the structure of
a message and are therefore never carried as custom fields.
-/

namespace Epistle
namespace FieldName

/-- Printable ASCII without the space and the colon. -/
def isNameChar (c : Char) : Bool := 33 ≤ c.toNat && c.toNat ≤ 126 && c != ':'

def isValid (name : Text) : Bool := name != [] && name.all isNameChar

/-- The fields that have a place of their own in a letter. -/
def reserved : List Text :=
  ["Message-ID", "Date", "From", "Reply-To", "To", "Cc", "Bcc", "Subject", "MIME-Version",
    "Disposition-Notification-To", "Return-Receipt-To", "Return-Path", "Received"].map String.toList

def isStructural (name : Text) : Bool :=
  "content-".toList.isPrefixOf (Text.lowerAscii name) || reserved.any (Text.sameName · name)

end FieldName
end Epistle
