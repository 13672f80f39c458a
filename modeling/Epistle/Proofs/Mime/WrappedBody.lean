import Epistle.Proofs.Mime.Reading
import Epistle.Proofs.Transfer.Alphabet

/-!
Bodies of wrapped base64. All lines are full but the last, and only the last can end with padding.
An entity that declares such a body to be base64 holds the octets it was made from, whether the
last line break was left to the body or was taken for part of the delimiter behind it.
-/
namespace Epistle
namespace Base64

open LineEnding (crlf)

variable {data : Octets}

/-- The lines of a wrapped body, without their endings. -/
structure IsWrapped (data : Octets) (lines : List Text) : Prop where
  standard : IsStandard data lines.flatten
  empty : lines = [] ↔ data = []
  full : ∀ line ∈ lines.dropLast, line.length = 76 ∧ ∀ c ∈ line, c ∈ alphabet
  last : ∀ line, lines.getLast? = some line → 1 ≤ line.length ∧ line.length ≤ 76 ∧ IsPadded line

theorem encode_eq_nil : encode data = [] ↔ data = [] := by
  have hlength := (encode_standard data).length_eq
  rw [← List.length_eq_zero_iff, ← List.length_eq_zero_iff, hlength]
  omega

theorem length_flatten_full {full : List Text} (h : ∀ line ∈ full, line.length = 76) :
    full.flatten.length = full.length * 76 := by
  rw [List.length_flatten, List.map_eq_replicate_iff.2 h, List.sum_replicate_nat]

/-- The last line holds whole groups, so the padding does not reach the line before it. -/
theorem exists_wrapped (data : Octets) : ∃ lines,
    encodeWrapped data = lines.flatMap (· ++ ['\r', '\n']) ∧ IsWrapped data lines := by
  have hstandard := encode_standard data
  by_cases hne : encode data = []
  · have hdata := encode_eq_nil.1 hne
    rw [hne] at hstandard
    refine ⟨[], ?_, hstandard, ⟨fun _ => hdata, fun _ => rfl⟩, by simp, by simp⟩
    rw [encodeWrapped, hne]
    rfl
  · obtain ⟨full, last, hlines, hflatten, hfull, hlast, hshort⟩ := exists_full_lines hne
    have hpositive : 0 < last.length := List.length_pos_iff.2 hlast
    have hgroups : 2 ≤ last.length := by
      have htotal := congrArg List.length hflatten
      rw [List.length_append, length_flatten_full hfull, hstandard.length_eq] at htotal
      omega
    have hpadded := hstandard.padded
    rw [← hflatten] at hpadded hstandard
    obtain ⟨hsymbols, hend⟩ := hpadded.append hgroups
    refine ⟨full ++ [last], hlines, by simpa using hstandard, ?_, ?_, ?_⟩
    · simpa using fun hdata => hne (encode_eq_nil.2 hdata)
    · rw [List.dropLast_concat]
      exact fun line hline => ⟨hfull line hline, fun c hc =>
        hsymbols c (List.mem_flatten_of_mem hline hc)⟩
    · rw [List.getLast?_concat]
      rintro line ⟨⟩
      exact ⟨hpositive, hshort, hend⟩

/-- Every line ends with a line break, and so does the body. -/
theorem exists_append_crlf (hne : data ≠ []) :
    ∃ front, Utf8.encode (encodeWrapped data) = front ++ crlf := by
  obtain ⟨lines, hlines, hwrapped⟩ := exists_wrapped data
  have hlast : lines ≠ [] := fun hnil => hne (hwrapped.empty.1 hnil)
  obtain ⟨front, last, rfl⟩ := (List.eq_nil_or_concat' lines).resolve_left hlast
  refine ⟨Utf8.encode (front.flatMap (· ++ ['\r', '\n']) ++ last), ?_⟩
  rw [hlines, List.flatMap_append, List.flatMap_singleton, ← List.append_assoc,
    Utf8.encode_append]
  rfl

theorem trimBreak_encodeWrapped (hne : data ≠ []) :
    Delimiter.trimBreak (Utf8.encode (encodeWrapped data)) ++ crlf =
      Utf8.encode (encodeWrapped data) := by
  obtain ⟨front, hfront⟩ := exists_append_crlf hne
  rw [hfront, Delimiter.trimBreak_append_crlf]

theorem decodeBody?_append_crlf (bytes : Octets) :
    decodeBody? (bytes ++ crlf) = decodeBody? bytes := by
  have hbreak : crlf.filter (fun b => !isBlankOctet b) = [] := by decide
  rw [decodeBody?, List.filter_append, hbreak, List.append_nil, decodeBody?]

theorem decodeBody?_trimBreak (data : Octets) :
    decodeBody? (Delimiter.trimBreak (Utf8.encode (encodeWrapped data))) = some data := by
  by_cases hne : data = []
  · rw [hne]
    rfl
  · rw [← decodeBody?_append_crlf, trimBreak_encodeWrapped hne, decodeBody?_encodeWrapped]

end Base64

namespace Leaf

open LineEnding (crlf)

/-- The fields name base64 as the transfer encoding, in letters of any case. -/
def DeclaresBase64 [Charsets] (fs : List Field) : Prop :=
  ∃ value, Field.textOf? fs "Content-Transfer-Encoding" = some value ∧
    Case.lower value = "base64".toList

theorem data_declared [Charsets] {fs : List Field} (h : DeclaresBase64 fs) {body octets : Octets}
    (hbody : Base64.decodeBody? body = some octets) (type : MediaType) :
    data ⟨fs, type, body⟩ = .ok octets := by
  obtain ⟨value, hvalue, hname⟩ := h
  rw [Leaf.data, Leaf.encoding, hvalue, Option.map_some, Option.getD_some,
    TransferEncoding.ofName, hname, if_pos rfl, TransferEncoding.decode, hbody]

/-- Octets are wrapped in lines of 76 symbols and come back from a message that declares them to be
base64, with their last line break and without it. -/
theorem data_wrapped [Charsets] (octets : Octets) :
    (∃ lines, Base64.encodeWrapped octets = lines.flatMap (· ++ ['\r', '\n']) ∧
      Base64.IsWrapped octets lines) ∧
    (octets ≠ [] → Delimiter.trimBreak (Utf8.encode (Base64.encodeWrapped octets)) ++ crlf =
      Utf8.encode (Base64.encodeWrapped octets)) ∧
    ∀ inDigest message fs body, Field.readBlock message = .ok (fs, body) → DeclaresBase64 fs →
      (body = Utf8.encode (Base64.encodeWrapped octets) ∨
        body = Delimiter.trimBreak (Utf8.encode (Base64.encodeWrapped octets))) →
      Leaf.data ⟨fs, MediaType.ofFields inDigest fs, body⟩ = .ok octets ∧
      ((MediaType.ofFields inDigest fs).isMultipart = false →
        Entity.read inDigest message = .ok (.leaf ⟨fs, MediaType.ofFields inDigest fs, body⟩)) := by
  refine ⟨Base64.exists_wrapped octets, Base64.trimBreak_encodeWrapped, ?_⟩
  intro inDigest message fs body hblock hdeclared hbody
  have hdecoded : Base64.decodeBody? body = some octets := by
    rcases hbody with rfl | rfl
    · exact Base64.decodeBody?_encodeWrapped octets
    · exact Base64.decodeBody?_trimBreak octets
  exact ⟨data_declared hdeclared hdecoded _, Entity.read_leaf hblock⟩

/-- One octet more than fits on a line. -/
def zeros : Octets := List.replicate 58 0

def shouted : List Field := Field.ofPairs [("Content-Transfer-Encoding", some "BASE64")]

/-- Below the fields of `shouted`, without the line break at the end. -/
def shortened : Octets :=
  Field.writeAll shouted ++ crlf ++ Delimiter.trimBreak (Utf8.encode (Base64.encodeWrapped zeros))

theorem data_wrapped_zeros :
    Base64.encodeWrapped zeros = List.replicate 76 'A' ++ "\r\nAA==\r\n".toList ∧
    (∃ lines, Base64.encodeWrapped zeros = lines.flatMap (· ++ ['\r', '\n']) ∧
      Base64.IsWrapped zeros lines) ∧
    ∃ leaf, Entity.read false shortened = .ok (.leaf leaf) ∧ leaf.data = .ok zeros := by
  have hclean : ∀ f ∈ shouted, f.Clean := by
    refine Field.ofPairs_clean (by decide) fun p hp v hv => ?_
    rw [List.mem_singleton.1 hp] at hv
    cases hv
    decide
  have hblock := Field.readBlock_writeAll hclean
    (Delimiter.trimBreak (Utf8.encode (Base64.encodeWrapped zeros)))
  have hdeclared : DeclaresBase64 (shouted.map Field.stripped) := by
    refine ⟨"BASE64", ?_, by decide⟩
    refine Field.textOf?_plain (by decide) List.mem_cons_self (by decide) (by decide) ?_
    rintro c ⟨⟩
    decide
  obtain ⟨hlines, -, hread⟩ := data_wrapped zeros
  obtain ⟨hdata, hleaf⟩ := hread false shortened _ _ hblock hdeclared (.inr rfl)
  exact ⟨by decide, hlines, _, hleaf (by decide), hdata⟩

end Leaf
end Epistle
