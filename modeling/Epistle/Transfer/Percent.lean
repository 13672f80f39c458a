import Epistle.Transfer.QuotedPrintable

/-!
Percent-encoded octets. A percent sign without two hexadecimal digits behind it stands for itself.
-/

namespace Epistle
namespace Percent

def hexOctet? (b : UInt8) : Option Nat := hexValue? (Charset.ofLatin1 b)

/-- The octets that `bytes` stands for. -/
def decode : Octets → Octets
  | [] => []
  | 0x25 :: rest =>
    match rest with
    | [] => [0x25]
    | a :: tail =>
      match hexOctet? a with
      | none => 0x25 :: decode (a :: tail)
      | some i =>
        match tail with
        | [] => [0x25, a]
        | b :: more =>
          match hexOctet? b with
          | none => 0x25 :: a :: decode (b :: more)
          | some j => UInt8.ofNat (i * 16 + j) :: decode more
  | b :: rest => b :: decode rest

end Percent
end Epistle
