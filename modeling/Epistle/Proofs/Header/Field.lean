import Epistle.Proofs.Header.Block
import Epistle.Proofs.Header.Token

/-!
Fields written from text. A valid name and a value on one line make a field that is read back
under that name with that value, only the spaces in front of the value lost.
-/
namespace Epistle

namespace FieldName

/-- The name alone if there is such a field. -/
def shown (name : Text) (present : Bool) : List Text := if present then [name] else []

theorem toNat_of_mem {name : Text} (h : isValid name) {c : Char} (hc : c ∈ name) :
    33 ≤ c.toNat ∧ c.toNat ≤ 126 ∧ c ≠ ':' := by
  simp only [isValid, Bool.and_eq_true, List.all_eq_true, isNameChar, decide_eq_true_eq,
    bne_iff_ne] at h
  exact ⟨(h.2 c hc).1.1, (h.2 c hc).1.2, (h.2 c hc).2⟩

theorem ne_nil_of_isValid {name : Text} (h : isValid name) : name ≠ [] := by
  rintro rfl
  exact absurd h (by decide)

theorem encode_eq {name : Text} (h : isValid name) :
    Utf8.encode name = name.map fun c => UInt8.ofNat c.toNat := by
  apply Utf8.encode_ascii
  intro c hc
  have hc := toNat_of_mem h hc
  omega

/-- Names are ordered as their octets are. -/
theorem encode_lt {a b : Text} (ha : isValid a) (hb : isValid b) (h : a < b) :
    Utf8.encode a < Utf8.encode b := by
  refine Utf8.encode_lt_of_ascii ?_ ?_ h
  · intro c hc
    have hc := toNat_of_mem ha hc
    omega
  · intro c hc
    have hc := toNat_of_mem hb hc
    omega

end FieldName

namespace Field

open LineEnding (cr lf)

theorem isBreak_of_mem_encode {value : Text} (h : Text.OneLine value) {b : UInt8}
    (hb : b ∈ Utf8.encode value) : isBreak b = false := by
  simp only [isBreak, Bool.or_eq_false_iff, beq_eq_false_iff_ne]
  constructor
  · rintro rfl
    refine Utf8.not_mem_encode (by decide) ?_ hb
    intro c hc he
    exact (h c hc).1 (Char.toNat_inj.1 he)
  · rintro rfl
    refine Utf8.not_mem_encode (by decide) ?_ hb
    intro c hc he
    exact (h c hc).2 (Char.toNat_inj.1 he)

theorem ofText_clean {name value : Text} (hn : FieldName.isValid name) (hv : Text.OneLine value) :
    (ofText name value).Clean := by
  refine ⟨?_, ?_, fun b hb => isBreak_of_mem_encode hv hb⟩
  · exact fun h => FieldName.ne_nil_of_isValid hn (Utf8.encode_eq_nil.1 h)
  · intro b hb
    rw [ofText, FieldName.encode_eq hn] at hb
    obtain ⟨c, hc, rfl⟩ := List.mem_map.1 hb
    obtain ⟨hlow, hhigh, hcolon⟩ := FieldName.toNat_of_mem hn hc
    have hnat : (UInt8.ofNat c.toNat).toNat = c.toNat :=
      UInt8.toNat_ofNat_of_lt' (by simp only [UInt8.size]; omega)
    simp only [isNameOctet, Bool.and_eq_true, decide_eq_true_eq, bne_iff_ne, hnat]
    refine ⟨⟨hlow, hhigh⟩, ?_⟩
    intro he
    apply hcolon
    rw [← Char.toNat_inj, ← hnat, he]
    rfl

theorem key_ofText {name : Text} (h : FieldName.isValid name) (value : Text) :
    (ofText name value).key = name := by
  simp only [key, ofText, FieldName.encode_eq h, List.map_map]
  conv => rhs; rw [← List.map_id name]
  apply List.map_congr_left
  intro c hc
  have hc := FieldName.toNat_of_mem h hc
  simp only [Function.comp, Charset.ofLatin1, id]
  rw [UInt8.toNat_ofNat_of_lt' (by simp only [UInt8.size]; omega), Char.ofNat_toNat]

theorem key_stripped (f : Field) : f.stripped.key = f.key := rfl

theorem keys_stripped (fs : List Field) : (fs.map stripped).map key = fs.map key := by
  rw [List.map_map]
  rfl

theorem dropWhile_space_encode (value : Text) :
    (Utf8.encode value).dropWhile (· == space) = Utf8.encode (value.dropWhile (· == ' ')) := by
  induction value with
  | nil => rfl
  | cons c value ih =>
      by_cases hc : c = ' '
      · subst hc
        exact ih
      · rw [List.dropWhile_cons_of_neg (by simpa using hc), Utf8.encode_cons]
        cases hw : Utf8.encodeChar c with
        | nil => exact absurd hw (Utf8.encodeChar_ne_nil c)
        | cons b w =>
            have hb : b ≠ space := by
              rintro rfl
              apply hc
              have hn := Utf8.toNat_of_mem_encodeChar (c := c) (hw ▸ List.mem_cons_self) (by decide)
              exact Char.toNat_inj.1 hn
            rw [List.cons_append, List.dropWhile_cons_of_neg (by simpa using hb)]

theorem stripped_ofText (name value : Text) :
    (ofText name value).stripped = ofText name (value.dropWhile (· == ' ')) := by
  simp only [stripped, ofText, dropWhile_space_encode]

/-- A value that does not begin with a blank is read back as it is. -/
theorem stripped_eq_self (name : Text) {value : Text}
    (h : ∀ c, value.head? = some c → Text.isBlank c = false) :
    (ofText name value).stripped = ofText name value := by
  rw [stripped_ofText]
  cases value with
  | nil => rfl
  | cons c value =>
      have hc : c ≠ ' ' := by
        rintro rfl
        exact absurd (h ' ' rfl) (by decide)
      rw [List.dropWhile_cons_of_neg (by simpa using hc)]

theorem raw_ofText (name value : Text) : (ofText name value).raw = value := by
  simp only [raw, ofText, Utf8.decode?_encode, Option.getD_some]

theorem text_ofText [Charsets] (name value : Text) :
    (ofText name value).text = Token.decodeValue value := by
  rw [text, raw_ofText]

theorem text_encode [Charsets] (name : Text) {t : Text} (ht : Text.trim t = t)
    (hplain : t.all Text.isPrintable → Token.Spelling.Plain t) :
    (ofText name (EncodedWord.encode t)).stripped.text = t := by
  have hstart := Text.isBlank_head_of_trim ht
  rw [stripped_eq_self name (EncodedWord.isBlank_head_encode hstart), text_ofText,
    Token.decodeValue_encode hplain hstart]

theorem find?_append (fs gs : List Field) (name : Text) :
    find? (fs ++ gs) name = (find? fs name).or (find? gs name) := List.find?_append

theorem find?_eq_none {fs : List Field} {name : Text}
    (h : ∀ key ∈ fs.map Field.key, Text.sameName key name = false) : find? fs name = none := by
  rw [find?, List.find?_eq_none]
  intro f hf
  have hf := h f.key (List.mem_map_of_mem hf)
  simpa using hf

theorem find?_cons {f : Field} {name : Text} (h : Text.sameName f.key name = true)
    (fs : List Field) : find? (f :: fs) name = some f := List.find?_cons_of_pos h

theorem find?_stripped (fs : List Field) (name : Text) :
    find? (fs.map stripped) name = (find? fs name).map stripped := by
  rw [find?, List.find?_map]
  rfl

end Field
end Epistle
