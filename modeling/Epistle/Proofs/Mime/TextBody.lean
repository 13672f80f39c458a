import Epistle.Proofs.Mime.Part
import Epistle.Proofs.Transfer.Base64
import Epistle.Proofs.Transfer.WireLines

/-!
What the octets of a text look like under the transfer encoding that its part declares. Text that is
declared to be 7bit travels in lines of ASCII that are short enough and end with CRLF, unless the
text itself holds a carriage return that no line feed follows; such a return is sent as it is.
-/
namespace Epistle
namespace Part

open LineEnding (cr lf crlf Leads Trails wireLines)

/-- The part announces the transfer encoding of its body. -/
def Declares (part : Part Text) (encoding : Text) : Prop :=
  Field.ofText "Content-Transfer-Encoding" encoding ∈ part.fields

instance (part : Part Text) (encoding : Text) : Decidable (part.Declares encoding) :=
  inferInstanceAs (Decidable (_ ∈ _))

variable {subtype body encoding : Text}

theorem declares_text (h : Declares (.text subtype body) encoding) :
    encoding = textEncoding body := by
  have hname : Utf8.encode "Content-Transfer-Encoding" ≠ Utf8.encode "Content-Type" := by decide
  rcases List.mem_cons.1 h with h | h
  · exact absurd (congrArg Field.name h) hname
  · have hvalue := congrArg (fun f => Utf8.decode f.value) (List.mem_singleton.1 h)
    simpa only [Field.ofText, Utf8.decode_encode] using hvalue

theorem isSevenBit_of_declares (h : Declares (.text subtype body) "7bit") :
    LineEnding.isSevenBit body := by
  have hencoding := declares_text h
  rw [textEncoding] at hencoding
  split at hencoding
  · assumption
  · exact absurd hencoding (by decide)

theorem not_isSevenBit_of_declares (h : Declares (.text subtype body) "base64") :
    ¬ LineEnding.isSevenBit body := by
  have hencoding := declares_text h
  rw [textEncoding] at hencoding
  split at hencoding
  · exact absurd hencoding (by decide)
  · assumption

theorem octets_plain (h : body.all LineEnding.isPlain) :
    ∀ b ∈ LineEnding.expand (Utf8.encode body), b ≠ 0 ∧ b.toNat < 0x80 := by
  have hascii := LineEnding.toNat_of_all_isPlain h
  have hnul : ∀ c ∈ body, c ≠ '\x00' := by
    rintro c hc rfl
    exact absurd (List.all_eq_true.1 h _ hc) (by decide)
  intro b hb
  refine ⟨?_, LineEnding.toNat_of_mem_expandFrom (LineEnding.toNat_of_mem_encode hascii) b hb⟩
  rcases LineEnding.mem_expandFrom hb with rfl | hb
  · decide
  · rintro rfl
    refine Utf8.not_mem_encode (by decide) ?_ hb
    exact fun c hc hn => hnul c hc (Char.toNat_inj.1 hn)

/-- A text is sent in octets that suit the encoding it declares. A carriage return stands alone on
the wire exactly if it does in a text that is sent as it is. -/
theorem octets_text (subtype body : Text) :
    (Declares (.text subtype body) "7bit" →
      (∀ b ∈ (Part.text subtype body).body, b ≠ 0 ∧ b.toNat < 0x80) ∧
      Trails cr lf (Part.text subtype body).body ∧
      (∀ line ∈ wireLines (Part.text subtype body).body, line.length ≤ 998) ∧
      (Leads cr lf (Part.text subtype body).body ↔ Leads '\r' '\n' body)) ∧
    (Declares (.text subtype body) "base64" → ∃ lines : List Text,
      (Part.text subtype body).body = Utf8.encode (lines.flatMap (· ++ ['\r', '\n'])) ∧
      ∀ line ∈ lines, 1 ≤ line.length ∧ line.length ≤ 76 ∧ ∀ c ∈ line, Base64.isDigit c) := by
  have hbody : (Part.text subtype body).body = textBody body := rfl
  rw [hbody]
  constructor
  · intro h
    have hseven := isSevenBit_of_declares h
    rw [textBody, if_pos hseven]
    rw [LineEnding.isSevenBit, Bool.and_eq_true] at hseven
    obtain ⟨hplain, hshort⟩ := hseven
    have hascii := LineEnding.toNat_of_all_isPlain hplain
    refine ⟨octets_plain hplain, LineEnding.trails_expand _, ?_, LineEnding.leads_expand hascii⟩
    refine LineEnding.length_wireLines hascii fun line hl => ?_
    exact of_decide_eq_true (List.all_eq_true.1 hshort line hl)
  · intro h
    rw [textBody, if_neg (not_isSevenBit_of_declares h)]
    obtain ⟨lines, hlines, hflatten, hlength⟩ :=
      Base64.exists_lines (Base64.encode (Utf8.encode body))
    refine ⟨lines, congrArg Utf8.encode hlines, fun line hl => ?_⟩
    obtain ⟨hne, hle⟩ := hlength line hl
    refine ⟨List.length_pos_iff.2 hne, hle, fun c hc => ?_⟩
    have hmem : c ∈ Base64.encode (Utf8.encode body) := hflatten ▸ List.mem_flatten_of_mem hl hc
    exact Base64.isDigit_of_mem_encode hmem

/-- A note with a tab and with line endings of both kinds, and one that is no ASCII. -/
theorem octets_text_notes :
    Declares (.text "plain" "Dear\tJane,\nyours\r\n") "7bit" ∧
      Leads cr lf (Part.text "plain" "Dear\tJane,\nyours\r\n").body ∧
      Trails cr lf (Part.text "plain" "Dear\tJane,\nyours\r\n").body ∧
      (∀ line ∈ wireLines (Part.text "plain" "Dear\tJane,\nyours\r\n").body,
        line.length ≤ 998) ∧
    Declares (.text "html" "Zoë") "base64" ∧ ∃ lines : List Text,
      (Part.text "html" "Zoë").body = Utf8.encode (lines.flatMap (· ++ ['\r', '\n'])) ∧
      ∀ line ∈ lines, 1 ≤ line.length ∧ line.length ≤ 76 ∧ ∀ c ∈ line, Base64.isDigit c := by
  have hseven : Declares (.text "plain" "Dear\tJane,\nyours\r\n") "7bit" := by decide
  have hbase : Declares (.text "html" "Zoë") "base64" := by decide
  have hpaired : Leads '\r' '\n' "Dear\tJane,\nyours\r\n".toList := by
    simp [LineEnding.leads_cons, LineEnding.leads_nil]
  obtain ⟨-, htrails, hlines, hleads⟩ := (octets_text _ _).1 hseven
  exact ⟨hseven, hleads.2 hpaired, htrails, hlines, hbase, (octets_text _ _).2 hbase⟩

/-- A carriage return inside a line passes for plain text and is sent alone. -/
theorem lone_return_sent :
    Declares (.text "plain" "a\rb") "7bit" ∧ ¬ Leads cr lf (Part.text "plain" "a\rb").body := by
  refine ⟨by decide, fun h => ?_⟩
  have hnext := h [0x61] [0x62] (by decide)
  cases hnext

end Part
end Epistle
