import Epistle.Mime.Entity
import Epistle.Proofs.Mime.Name

/-!
Media types in small letters, alone or with a quoted parameter behind them. They are read as they
were written, whatever stands in the parameter.
-/
namespace Epistle
namespace MediaType

open Parameters (IsPlainName)

/-- A small character that may stand in a type or a subtype. -/
def isTokenChar (c : Char) : Bool :=
  Text.isPrintable c && c.toLower == c && !(" ()<>@,;:\\\"/[]?=".toList).contains c

/-- A type and a subtype in small letters. -/
def IsSimple (t : Text) : Prop :=
  ∃ kind subtype, t = kind ++ '/' :: subtype ∧ ∀ c ∈ kind ++ subtype, isTokenChar c

/-- The characters of types and of the words that say how to show a part. -/
def isValueChar (c : Char) : Bool := isTokenChar c || c == '/'

/-- A value that needs no quotes. -/
structure IsValue (t : Text) : Prop where
  ne_nil : t ≠ []
  chars : ∀ c ∈ t, isValueChar c

variable {c : Char} {t key : Text}

theorem isPrintable_of_isTokenChar (h : isTokenChar c) : Text.isPrintable c := by
  simp only [isTokenChar, Bool.and_eq_true] at h
  exact h.1.1

theorem toLower_of_isTokenChar (h : isTokenChar c) : c.toLower = c := by
  simp only [isTokenChar, Bool.and_eq_true, beq_iff_eq] at h
  exact h.1.2

theorem ne_of_isTokenChar (h : isTokenChar c) : c ≠ ' ' ∧ c ≠ ';' ∧ c ≠ '=' := by
  refine ⟨?_, ?_, ?_⟩
  all_goals
    rintro rfl
    exact absurd h (by decide)

theorem IsSimple.isValue (h : IsSimple t) : IsValue t := by
  obtain ⟨kind, subtype, rfl, hchars⟩ := h
  refine ⟨by simp, ?_⟩
  intro c hc
  rw [isValueChar, Bool.or_eq_true, beq_iff_eq]
  rcases List.mem_append.1 hc with hc | hc
  · exact .inl (hchars c (List.mem_append_left _ hc))
  · rcases List.mem_cons.1 hc with rfl | hc
    · exact .inr rfl
    · exact .inl (hchars c (List.mem_append_right _ hc))

/-- What a value needs no quotes for. -/
theorem isValueChar_cases (h : isValueChar c) :
    Text.isPrintable c ∧ c.toLower = c ∧ c ≠ ' ' ∧ c ≠ ';' ∧ c ≠ '=' := by
  rw [isValueChar, Bool.or_eq_true, beq_iff_eq] at h
  rcases h with h | rfl
  · exact ⟨isPrintable_of_isTokenChar h, toLower_of_isTokenChar h, ne_of_isTokenChar h⟩
  · decide

theorem isBlank_of_isValueChar (h : isValueChar c) : Text.isBlank c = false := by
  obtain ⟨hprintable, -, hspace, -⟩ := isValueChar_cases h
  have hnat : c.toNat ≠ 0x20 := fun hn => hspace (Char.toNat_inj.1 hn)
  simp only [Text.isPrintable, Bool.and_eq_true, decide_eq_true_eq] at hprintable
  simp only [Text.isBlank, Bool.or_eq_false_iff, Bool.and_eq_false_iff, decide_eq_false_iff_not,
    beq_eq_false_iff_ne]
  omega

namespace IsValue

theorem start (h : IsValue t) : ∀ c, t.head? = some c → Text.isBlank c = false :=
  fun c hc => isBlank_of_isValueChar (h.chars c (List.mem_of_head? hc))

theorem trim (h : IsValue t) : Text.trim t = t :=
  Text.trim_eq_self h.start fun c hc =>
    isBlank_of_isValueChar (h.chars c (List.mem_of_getLast? hc))

theorem ascii (h : IsValue t) : ∀ c ∈ t, Text.isAscii c :=
  fun c hc => Token.isAscii_of_isPrintable (isValueChar_cases (h.chars c hc)).1

theorem oneLine (h : IsValue t) : Text.OneLine t :=
  Text.oneLine_of_isPrintable fun c hc => (isValueChar_cases (h.chars c hc)).1

theorem semicolon (h : IsValue t) : ';' ∉ t :=
  fun hc => (isValueChar_cases (h.chars _ hc)).2.2.2.1 rfl

theorem equals (h : IsValue t) : '=' ∉ t :=
  fun hc => (isValueChar_cases (h.chars _ hc)).2.2.2.2 rfl

theorem lower (h : IsValue t) : Case.lower t = t := by
  apply Case.lower_small
  intro c hc
  simp [Case.isSmall, h.ascii c hc, (isValueChar_cases (h.chars c hc)).2.1]

theorem lowerAscii (h : IsValue t) : Text.lowerAscii t = t := by
  rw [Text.lowerAscii]
  conv => rhs; rw [← List.map_id t]
  exact List.map_congr_left fun c hc => (isValueChar_cases (h.chars c hc)).2.1

/-- A value and the beginning of a parameter. -/
theorem front (h : IsValue t) (hkey : IsPlainName key) (hline : Text.OneLine key) :
    Part.Front (t ++ "; ".toList ++ key ++ "=\"".toList) := by
  have hsep : Text.OneLine "; ".toList := by decide
  have hopen : Text.OneLine "=\"".toList := by decide
  have hnone : '=' ∉ t ++ "; ".toList ++ key := by
    simp only [List.mem_append, not_or]
    exact ⟨⟨h.equals, by decide⟩, hkey.equals⟩
  have hascii : ∀ c ∈ key, Text.isAscii c := by
    intro c hc
    have hsmall := hkey.small c hc
    rw [Case.isSmall, Bool.and_eq_true] at hsmall
    exact hsmall.1
  refine ⟨?_, ?_, ?_, ?_, ?_⟩
  · rw [Token.Spelling.Plain, Text.lacks_append]
    exact ⟨Text.lacks_of_not_mem_left hnone, by decide, fun _ => by decide⟩
  · simp only [List.forall_mem_append]
    exact ⟨⟨⟨h.ascii, by decide⟩, hascii⟩, by decide⟩
  · simp only [Text.oneLine_append]
    exact ⟨⟨⟨h.oneLine, hsep⟩, hline⟩, hopen⟩
  · obtain ⟨d, more, rfl⟩ := List.exists_cons_of_ne_nil h.ne_nil
    exact h.start
  · rw [List.getLast?_append]
    rfl

end IsValue

theorem ofValue_alone [Charsets] (h : IsValue t) : ofValue t = ⟨t, []⟩ := by
  rw [ofValue, Parameterized.read_alone h.semicolon h.trim]
  simp only [h.lower]

theorem name_ofValue [Charsets] (h : IsValue t) {more : Text}
    (hmore : ∀ c, more.head? = some c → c = ';') : (ofValue (t ++ more)).name = t := by
  rw [ofValue]
  simp only [Parameterized.value_read h.semicolon h.trim hmore, h.lower]

theorem ofValue_quoted [Charsets] (h : IsValue t) (hkey : IsPlainName key) {text : Text}
    (htext : ';' ∉ text) :
    ofValue (t ++ "; ".toList ++ key ++ "=\"".toList ++ text ++ ['"']) = ⟨t, [(key, text)]⟩ := by
  rw [ofValue, Parameterized.read_quoted h.semicolon h.trim hkey htext]
  simp only [h.lower]

theorem lowerAscii_name [Charsets] (inDigest : Bool) (fs : List Field) :
    Text.lowerAscii (ofFields inDigest fs).name = (ofFields inDigest fs).name := by
  rw [ofFields]
  cases Field.textOf? fs "Content-Type" with
  | none => cases inDigest <;> rfl
  | some value => exact Case.lowerAscii_lower _

end MediaType
end Epistle
