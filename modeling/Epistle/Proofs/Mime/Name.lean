import Epistle.Mime.Part
import Epistle.Proofs.Address.Format
import Epistle.Proofs.Header.Parameter
import Epistle.Proofs.Header.Token

/-!
Names in quoted parameters. A name that holds no quote, backslash or control character is written
as it is, or in encoded words that the reader of the value takes out of the quotes again.
-/
namespace Epistle

theorem Quoted.escape_eq_self {t : Text} (h : ∀ c ∈ t, c ≠ '\\' ∧ c ≠ '"') : escape t = t := by
  induction t with
  | nil => rfl
  | cons c t ih =>
      obtain ⟨⟨hslash, hquote⟩, ht⟩ := List.forall_mem_cons.1 h
      have hone : escapeChar c = [c] := by simp [escapeChar, hslash, hquote]
      have hcons : escape (c :: t) = escapeChar c ++ escape t := rfl
      rw [hcons, hone, ih ht]
      rfl

/-- Each backslash and each quote takes one more character. -/
theorem Quoted.length_escape (t : Text) :
    (escape t).length = t.length + t.countP fun c => c = '\\' || c = '"' := by
  induction t with
  | nil => rfl
  | cons c t ih =>
      have hcons : escape (c :: t) = escapeChar c ++ escape t := rfl
      rw [hcons, List.length_append, ih, List.countP_cons, List.length_cons, escapeChar]
      split
      · simp only [List.length_cons, List.length_nil]
        omega
      · simp only [List.length_cons, List.length_nil]
        omega

theorem Quoted.escape_eq_self_iff {t : Text} : escape t = t ↔ ∀ c ∈ t, c ≠ '\\' ∧ c ≠ '"' := by
  refine ⟨fun h => ?_, escape_eq_self⟩
  have hlength := length_escape t
  rw [h, Nat.left_eq_add, List.countP_eq_zero] at hlength
  intro c hc
  simpa [not_or] using hlength c hc

theorem Quoted.escape_ne_nil {t : Text} (h : t ≠ []) : escape t ≠ [] := by
  rw [← List.length_pos_iff] at h ⊢
  exact h.trans_le (length_escape t ▸ Nat.le_add_right _ _)

theorem Base64.ne_of_isDigit {c : Char} (h : isDigit c) : c ≠ '\\' ∧ c ≠ '"' := by
  constructor
  · rintro rfl
    exact absurd h (by decide)
  · rintro rfl
    exact absurd h (by decide)

theorem EncodedWord.ne_of_mem_write {run : Text} {c : Char} (h : c ∈ write run) :
    c ≠ '\\' ∧ c ≠ '"' := by
  rcases mem_write h with h | rfl | rfl
  · exact Base64.ne_of_isDigit h
  · decide
  · decide

theorem EncodedWord.ne_of_mem_words {t : Text} (ht : ¬ t.all Text.isPrintable) {c : Char}
    (h : c ∈ encode t) : c ≠ '\\' ∧ c ≠ '"' := by
  rw [encode, if_neg ht] at h
  rcases Text.mem_joinWith h with h | ⟨w, hw, h⟩
  · rw [List.mem_singleton.1 h]
    decide
  · obtain ⟨run, -, rfl⟩ := List.mem_map.1 hw
    exact ne_of_mem_write h

theorem EncodedWord.ne_of_mem_encode {t : Text} (ht : ∀ c ∈ t, c ≠ '\\' ∧ c ≠ '"') {c : Char}
    (h : c ∈ encode t) : c ≠ '\\' ∧ c ≠ '"' := by
  by_cases hp : t.all Text.isPrintable
  · rw [encode, if_pos hp] at h
    exact ht c h
  · exact ne_of_mem_words hp h

namespace Part

open Token (Spelling)
open Token.Spelling (Plain Starts Ends Joins WordsValid ofRuns kept tail)
open Parameters (IsPlainName)

/-- A name without control characters, quotes and backslashes is its own parameter. -/
theorem parameter_eq_self {name : Text} (hcontrol : Text.hasControl name = false)
    (h : ∀ c ∈ name, c ≠ '\\' ∧ c ≠ '"') : parameter name = name := by
  rw [parameter, Text.withoutControls_eq_self hcontrol, Quoted.escape_eq_self h]

/-- What a value is up to the quote that opens the name. -/
structure Front (t : Text) : Prop where
  plain : Plain t
  ascii : ∀ c ∈ t, Text.isAscii c
  line : Text.OneLine t
  start : ∀ c, t.head? = some c → Text.isBlank c = false
  quote : t.getLast? = some '"'

variable {front name : Text}

theorem Front.ne_nil (h : Front front) : front ≠ [] := by
  rintro rfl
  cases h.quote

theorem Front.head_append (h : Front front) (rest : Text) :
    ∀ c, (front ++ rest).head? = some c → Text.isBlank c = false := by
  obtain ⟨d, more, hd⟩ := List.exists_cons_of_ne_nil h.ne_nil
  intro c hc
  apply h.start
  rw [hd] at hc ⊢
  exact hc

theorem Front.plain_append (h : Front front) {rest : Text} (hrest : Plain rest) :
    Plain (front ++ rest) := by
  rw [Plain, Text.lacks_append]
  refine ⟨h.plain, hrest, ?_⟩
  intro hlast
  rw [h.quote] at hlast
  exact absurd hlast (by decide)

theorem plain_quote (h : Plain name) : Plain (name ++ ['"']) := by
  rw [Plain, Text.lacks_append]
  exact ⟨h, trivial, fun _ => by decide⟩

/-- A plain name is read as it stands between the quotes. -/
theorem decodeValue_plainName [Charsets] (hf : Front front) (h : Plain name)
    (hl : Text.OneLine name) :
    Token.decodeValue (front ++ name ++ ['"']) = front ++ name ++ ['"'] := by
  rw [List.append_assoc]
  have hquote : Text.OneLine ['"'] := by decide
  refine Token.decodeValue_plain (hf.plain_append (plain_quote h)) ?_ (hf.head_append _)
  simp only [Text.oneLine_append]
  exact ⟨hf.line, hl, hquote⟩

/-- A name in encoded words is read between the quotes as the name. -/
theorem decodeValue_words [Charsets] (hf : Front front) (h : ¬ name.all Text.isPrintable) :
    Token.decodeValue (front ++ EncodedWord.encode name ++ ['"']) = front ++ name ++ ['"'] := by
  have hruns := EncodedWord.runsFrom_ne_nil [] name
  have hself : Spelling.line ⟨front, ofRuns ['"'] [] (EncodedWord.runsFrom [] name)⟩ =
      front ++ EncodedWord.encode name ++ ['"'] := by
    rw [EncodedWord.encode, if_neg h, Spelling.line, Token.Spelling.tail_ofRuns hruns]
    simp [tail]
  have hends : Ends front := by
    intro c hc
    rw [hf.quote] at hc
    cases hc
    decide
  have hstarts : Starts ['"'] := by
    rintro c ⟨⟩
    decide
  have hvalid : Spelling.Valid ⟨front, ofRuns ['"'] [] (EncodedWord.runsFrom [] name)⟩ :=
    ⟨hf.plain, fun _ => ⟨hf.ascii, hends⟩,
      Token.Spelling.wordsValid_ofRuns trivial hstarts (fun hne => absurd rfl hne) trivial⟩
  have hquote : Text.OneLine ['"'] := by decide
  have hline : Text.OneLine (front ++ EncodedWord.encode name ++ ['"']) := by
    simp only [Text.oneLine_append]
    exact ⟨⟨hf.line, EncodedWord.oneLine_encode name⟩, hquote⟩
  have hstart := hf.head_append (EncodedWord.encode name ++ ['"'])
  rw [← List.append_assoc] at hstart
  have hdecode := Token.decodeValue_line hvalid (by rwa [hself]) (by rwa [hself])
  rw [hself] at hdecode
  have hkept : kept ['"'] = ['"'] := by decide
  have hflatten := EncodedWord.flatten_runsFrom [] name
  rw [hdecode, Spelling.text,
    Token.Spelling.flatMap_ofRuns (fun _ _ => rfl) Token.Spelling.kept_blank hruns, hkept]
  simpa [List.flatMap_id'] using hflatten

/-- The header form of a name is read between the quotes as the name. -/
theorem decodeValue_name [Charsets] (hf : Front front) (hcontrol : Text.hasControl name = false)
    (hplain : name.all Text.isAscii → Plain name) :
    Token.decodeValue (front ++ EncodedWord.encode name ++ ['"']) = front ++ name ++ ['"'] := by
  by_cases hp : name.all Text.isPrintable
  · have hself : EncodedWord.encode name = name := by rw [EncodedWord.encode, if_pos hp]
    have hascii : name.all Text.isAscii := by
      rw [List.all_eq_true] at hp ⊢
      exact fun c hc => Token.isAscii_of_isPrintable (hp c hc)
    rw [hself]
    exact decodeValue_plainName hf (hplain hascii) (Text.oneLine_of_hasControl hcontrol)
  · exact decodeValue_words hf hp

/-- Names without control characters and marks of words have different header forms. -/
theorem encode_inj [Charsets] {a b : Text} (ha : Text.hasControl a = false ∧ Plain a)
    (hb : Text.hasControl b = false ∧ Plain b) :
    EncodedWord.encode a = EncodedWord.encode b ↔ a = b := by
  refine ⟨fun h => ?_, congrArg _⟩
  have hfront : Front ['"'] := ⟨trivial, by decide, by decide, by rintro c ⟨⟩; decide, rfl⟩
  have hquoted := decodeValue_name hfront ha.1 fun _ => ha.2
  rw [h, decodeValue_name hfront hb.1 fun _ => hb.2] at hquoted
  exact (List.append_cancel_left (List.append_cancel_right hquoted)).symm

end Part
end Epistle
