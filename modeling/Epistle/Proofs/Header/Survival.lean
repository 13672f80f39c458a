import Epistle.Proofs.Header.Field

/-!
Which texts survive a header. Text that is not printable ASCII is written in words and always comes
back. Printable text is written as it is, so that it stays readable, and a reader that finds a word
in it takes it for one; the word stands for less text than it is, so what is read is then not what
was written.
-/
namespace Epistle

namespace Base64

theorem length_decodeGroup? {a b c d : UInt8} {bytes : Octets}
    (h : decodeGroup? a b c d = some bytes) : bytes.length ≤ 3 := by
  simp only [decodeGroup?, Option.bind_eq_bind, Option.bind_eq_some_iff] at h
  obtain ⟨i, -, j, -, h⟩ := h
  split at h
  · cases h
    simp
  · obtain ⟨k, -, h⟩ := Option.bind_eq_some_iff.1 h
    split at h
    · cases h
      simp
    · obtain ⟨l, -, h⟩ := Option.bind_eq_some_iff.1 h
      cases h
      simp

theorem length_decodeGroups? {bytes out : Octets} (h : decodeGroups? bytes = some out) :
    out.length ≤ bytes.length := by
  fun_induction decodeGroups? bytes generalizing out with
  | case1 =>
      cases h
      exact Nat.le_refl 0
  | case2 a b c d rest ih =>
      obtain ⟨front, hfront, h⟩ := Option.bind_eq_some_iff.1 h
      obtain ⟨back, hback, h⟩ := Option.bind_eq_some_iff.1 h
      cases h
      have hgroup := length_decodeGroup? hfront
      have hrest := ih hback
      simp only [List.length_append, List.length_cons]
      omega
  | case3 => cases h

theorem length_decodeWord? {bytes out : Octets} (h : decodeWord? bytes = some out) :
    out.length ≤ bytes.length :=
  (length_decodeGroups? h).trans (List.length_filter_le _ _)

end Base64

namespace QuotedPrintable

theorem length_decodeLine (t : Text) : (decodeLine t).1.length ≤ t.length := by
  fun_induction decodeLine t with
  | case1 | case2 | case3 => simp
  | case4 =>
      simp_all
      omega
  | case5 | case6 => simp_all

theorem octet_printable {c : Char} (h : Text.isPrintable c) :
    isKept (UInt8.ofNat c.toNat) ∧ Charset.ofLatin1 (UInt8.ofNat c.toNat) = c := by
  have hrange : 0x20 ≤ c.toNat ∧ c.toNat < 0x7F := by simpa [Text.isPrintable] using h
  have hnat : (UInt8.ofNat c.toNat).toNat = c.toNat :=
    UInt8.toNat_ofNat_of_lt' (by simp only [UInt8.size]; omega)
  refine ⟨?_, ?_⟩
  · simp only [isKept, hnat, Bool.or_eq_true, Bool.and_eq_true, decide_eq_true_eq]
    omega
  · rw [Charset.ofLatin1, hnat, Char.ofNat_toNat]

/-- Printable text is one line, of which nothing is passed over. -/
theorem length_decode {t : Text} (h : ∀ c ∈ t, Text.isPrintable c) :
    (decode (Utf8.encode t)).length ≤ t.length := by
  have hoctets : Utf8.encode t = t.map fun c => UInt8.ofNat c.toNat :=
    Utf8.encode_ascii fun c hc => by
      have hascii := Token.isAscii_of_isPrintable (h c hc)
      simpa [Text.isAscii] using hascii
  have hall : (Utf8.encode t).filter isKept = Utf8.encode t := by
    rw [hoctets, List.filter_eq_self]
    intro b hb
    obtain ⟨c, hc, rfl⟩ := List.mem_map.1 hb
    exact (octet_printable (h c hc)).1
  have hkept : (Utf8.encode t).map Charset.ofLatin1 = t := by
    rw [hoctets, List.map_map]
    conv => rhs; rw [← List.map_id t]
    exact List.map_congr_left fun c hc => (octet_printable (h c hc)).2
  by_cases hne : t = []
  · subst hne
    exact Nat.le_refl 0
  · have hline := Text.oneLine_of_isPrintable h
    have hlast : (t.getLast? == some '\n') = false := by
      rw [beq_eq_false_iff_ne]
      intro hlast
      exact (hline '\n' (List.mem_of_getLast? hlast)).2 rfl
    have hdecode : decode (Utf8.encode t) = (decodeLine (Text.trimEnd t)).1 := by
      simp [decode, hall, hkept, Text.lines_of_oneLine hline hne, hlast, join]
    obtain ⟨tail, htail⟩ := Text.dropEndWhile_append Text.isBlank t
    have htrim := congrArg List.length htail
    rw [List.length_append] at htrim
    have hshort := length_decodeLine (Text.trimEnd t)
    rw [hdecode]
    rw [Text.trimEnd] at hshort ⊢
    omega

end QuotedPrintable

namespace Utf8

/-- An octet completes a character, waits, or ends a damaged sequence that has waited. -/
theorem length_next (state : Option Pending) (n : Nat) :
    (next state n).1.length + (if (next state n).2.isSome then 1 else 0) ≤
      1 + if state.isSome then 1 else 0 := by
  have hfirst : (first n).1.length + (if (first n).2.isSome then 1 else 0) ≤ 1 := by
    rw [first]
    split
    · simp
    · split <;> simp
  cases state with
  | none => exact hfirst
  | some p =>
      rw [next]
      split
      · dsimp only
        split <;> simp
      · simp only [List.length_cons, Option.isSome_some, if_true]
        omega

theorem length_readFrom (state : Option Pending) (bytes : Octets) :
    (readFrom state bytes).length ≤ bytes.length + if state.isSome then 1 else 0 := by
  induction bytes generalizing state with
  | nil =>
      rw [readFrom]
      split <;> simp
  | cons b rest ih =>
      have hstep := length_next state b.toNat
      have hrest := ih (next state b.toNat).2
      rw [readFrom, List.length_append, List.length_cons]
      omega

theorem length_decode (bytes : Octets) : (decode bytes).length ≤ bytes.length := by
  rw [decode, List.length_map]
  exact length_readFrom none bytes

end Utf8

namespace Charset

theorem length_units (bigEndian : Bool) (bytes : Octets) :
    (units bigEndian bytes).length ≤ bytes.length := by
  fun_induction units bigEndian bytes with
  | case1 => simp
  | case2 => simp
  | case3 a b rest ih => simp; omega

theorem length_ofUnits (lead : Option Nat) (us : List (Option Nat)) :
    (ofUnits lead us).length ≤ us.length + if lead.isSome then 1 else 0 := by
  fun_induction ofUnits lead us with
  | case1 => simp_all
  | _ => simp_all; try omega

/-- No charset has more characters than octets. -/
theorem length_decode (charset : Charset) (bytes : Octets) :
    (charset.decode bytes).length ≤ bytes.length := by
  cases charset with
  | utf8 => exact Utf8.length_decode bytes
  | windows1252 => exact (List.length_map _).le
  | utf16le => exact (length_ofUnits none _).trans (length_units false bytes)
  | utf16be => exact (length_ofUnits none _).trans (length_units true bytes)
  | replacement => cases bytes <;> simp [decode]
  | further decoder => exact decoder.length_le bytes

end Charset

namespace EncodedWord

theorem length_decodeQuoted {t : Text} (h : ∀ c ∈ t, Text.isPrintable c) :
    (decodeQuoted t).length ≤ t.length := by
  have hspaced : ∀ c ∈ t.map (fun c => if c = '_' then ' ' else c), Text.isPrintable c := by
    intro c hc
    obtain ⟨d, hd, rfl⟩ := List.mem_map.1 hc
    split
    · decide
    · exact h d hd
  generalize hs : t.map (fun c => if c = '_' then ' ' else c) = spaced at hspaced
  have hlength : spaced.length = t.length := by rw [← hs, List.length_map]
  obtain ⟨tail, htail⟩ := Text.dropEndWhile_append Text.isBlank spaced
  have hbody : ∀ c ∈ Text.trimEnd spaced, Text.isPrintable c :=
    fun c hc => hspaced c (Text.trimEnd_subset spaced hc)
  have hrest : (Utf8.encode (spaced.drop (Text.trimEnd spaced).length)).length =
      spaced.length - (Text.trimEnd spaced).length := by
    have hsize : ∀ c ∈ spaced.drop (Text.trimEnd spaced).length, Text.isAscii c :=
      fun c hc => Token.isAscii_of_isPrintable (hspaced c (List.mem_of_mem_drop hc))
    have happlied := Token.size_ascii hsize
    rwa [Utf8.size, List.length_drop] at happlied
  have hshort := QuotedPrintable.length_decode hbody
  have htrim := congrArg List.length htail
  rw [List.length_append, ← Text.trimEnd] at htrim
  have hdecode : decodeQuoted t = QuotedPrintable.decode (Utf8.encode (Text.trimEnd spaced)) ++
      Utf8.encode (spaced.drop (Text.trimEnd spaced).length) := by
    rw [decodeQuoted, hs]
  rw [hdecode, List.length_append, hrest]
  omega

/-- A word of printable text stands for less than it is. -/
theorem length_decode? [Charsets] {inner t : Text} (h : ∀ c ∈ inner, Text.isPrintable c)
    (hdecode : decode? inner = some t) : t.length < inner.length := by
  simp only [decode?, Option.bind_eq_bind, Option.bind_eq_some_iff] at hdecode
  obtain ⟨⟨label, rest⟩, hlabel, ⟨encoding, body⟩, hencoding, hdecode⟩ := hdecode
  dsimp only at hencoding hdecode
  have hinner : inner = label ++ '?' :: (encoding ++ '?' :: body) := by
    rw [Text.cut?_eq hlabel, Text.cut?_eq hencoding]
  have hbody : ∀ c ∈ body, Text.isPrintable c := fun c hc => h c (by simp [hinner, hc])
  have hsize : (Utf8.encode body).length = body.length :=
    Token.size_ascii fun c hc => Token.isAscii_of_isPrintable (hbody c hc)
  have hbytes : ∃ bytes : Octets, bytes.length ≤ body.length ∧
      ∃ charset : Charset, charset.decode bytes = t := by
    split at hdecode
    · obtain ⟨bytes, hbytes, hdecode⟩ := Option.bind_eq_some_iff.1 hdecode
      obtain ⟨charset, -, ht⟩ := Option.bind_eq_some_iff.1 hdecode
      exact ⟨bytes, hsize ▸ Base64.length_decodeWord? hbytes, charset, Option.some.inj ht⟩
    · split at hdecode
      · obtain ⟨bytes, hbytes, hdecode⟩ := Option.bind_eq_some_iff.1 hdecode
        obtain ⟨charset, -, ht⟩ := Option.bind_eq_some_iff.1 hdecode
        cases hbytes
        exact ⟨_, length_decodeQuoted hbody, charset, Option.some.inj ht⟩
      · cases hdecode
  obtain ⟨bytes, hlength, charset, rfl⟩ := hbytes
  have htext := charset.length_decode bytes
  have htotal := congrArg List.length hinner
  simp only [List.length_append, List.length_cons] at htotal
  omega

end EncodedWord

namespace Token

/-- The tokens of a line, in order, and the line that they were read from. -/
inductive Spells [Charsets] : List Token → Text → Prop
  | nil : Spells [] []
  | text (t : Text) {ts : List Token} {rest : Text} :
      Spells ts rest → Spells (.text t :: ts) (t ++ rest)
  | blank (t : Text) {ts : List Token} {rest : Text} :
      Spells ts rest → Spells (.blank t :: ts) (t ++ rest)
  | word {inner t : Text} {ts : List Token} {rest : Text} :
      EncodedWord.decode? inner = some t → Spells ts rest →
      Spells (.word t :: ts) ("=?".toList ++ inner ++ "?=".toList ++ rest)

theorem Spells.blankOrText [Charsets] (t : Text) {ts : List Token} {rest : Text}
    (h : Spells ts rest) : Spells (Token.blankOrText t :: ts) (t ++ rest) := by
  rw [Token.blankOrText]
  split
  · exact h.blank t
  · exact h.text t

theorem spells_ofLineFrom [Charsets] (line : Text) (offset : Nat) (rest : Text) :
    Spells (ofLineFrom line offset rest) rest := by
  fun_induction ofLineFrom line offset rest with
  | case1 offset rest hcut =>
      have hlast := Spells.nil.blankOrText rest
      rwa [List.append_nil] at hlast
  | case2 offset rest before after hcut start hedge ih =>
      rw [Text.cutAt?_eq hcut]
      exact ih.text _
  | case3 offset rest before after hcut start hedge ih ihword =>
      rw [Text.cutAt?_eq hcut, List.append_assoc]
      apply Spells.blankOrText
      split
      · exact ih.text _
      · rename_i inner tail hend
        have htail := ihword inner tail hend
        rw [wordEnd?_eq hend, ← List.append_assoc, ← List.append_assoc]
        dsimp only
        split
        · rename_i t hdecode
          exact htail.word hdecode
        · exact htail.text _

theorem spells_ofLine [Charsets] (line : Text) : Spells (ofLine line) line :=
  spells_ofLineFrom line 0 line

variable {ts : List Token} {t w : Text}

theorem Spells.place [Charsets] (h : Spells ts t) (hw : Token.word w ∈ ts) : ∃ before inner after,
    t = before ++ "=?".toList ++ inner ++ "?=".toList ++ after ∧
      EncodedWord.decode? inner = some w := by
  induction h with
  | nil => cases hw
  | text u _ ih | blank u _ ih =>
      obtain ⟨before, inner, after, rfl, hdecode⟩ := ih (by simpa using hw)
      exact ⟨u ++ before, inner, after, by simp, hdecode⟩
  | @word inner u ts rest hdecode _ ih =>
      rcases List.mem_cons.1 hw with hw | hw
      · cases hw
        exact ⟨[], inner, rest, by simp, hdecode⟩
      · obtain ⟨before, inner', after, rfl, hdecode'⟩ := ih hw
        exact ⟨"=?".toList ++ inner ++ "?=".toList ++ before, inner', after, by simp, hdecode'⟩

theorem Spells.decode_eq [Charsets] (h : Spells ts t) (hw : ∀ w, Token.word w ∉ ts) :
    (settle .none ts).flatMap content = t := by
  induction h with
  | nil => rfl
  | text u _ ih => exact congrArg (u ++ ·) (ih fun w hmem => hw w (by simp [hmem]))
  | blank u _ ih => exact congrArg (u ++ ·) (ih fun w hmem => hw w (by simp [hmem]))
  | @word inner u _ _ _ _ _ => exact absurd List.mem_cons_self (hw u)

/-- What may still be put out of a pause. -/
def Pause.length : Pause → Nat
  | .none => 0
  | .afterWord => 0
  | .blanks t => t.length
  | .folded t => t.length

/-- What is read of a printable line is not longer than the line, and shorter if there is a word
in it. -/
theorem Spells.length_le [Charsets] (h : Spells ts t) (hp : ∀ c ∈ t, Text.isPrintable c)
    (pause : Pause) : ((settle pause ts).flatMap content).length ≤ pause.length + t.length ∧
      ((∃ w, Token.word w ∈ ts) →
        ((settle pause ts).flatMap content).length < pause.length + t.length) := by
  -- Blanks behind a word are put off, and `pause` counts them until it is known what follows.
  induction h generalizing pause with
  | nil => exact ⟨Nat.zero_le _, fun ⟨w, hw⟩ => nomatch hw⟩
  | @text u ts rest _ ih =>
      obtain ⟨hle, hlt⟩ := ih (fun c hc => hp c (by simp [hc])) .none
      have htotal : ((settle pause (Token.text u :: ts)).flatMap content).length =
          pause.length + u.length + ((settle .none ts).flatMap content).length := by
        cases pause <;> simp [settle, content, Pause.length, Nat.add_assoc]
      have hwords : (∃ w, Token.word w ∈ Token.text u :: ts) → ∃ w, Token.word w ∈ ts := by simp
      rw [htotal, List.length_append]
      simp only [Pause.length, Nat.zero_add] at hle hlt
      exact ⟨by omega, fun hw => by have := hlt (hwords hw); omega⟩
  | @blank u ts rest _ ih =>
      have hrest : ∀ c ∈ rest, Text.isPrintable c := fun c hc => hp c (by simp [hc])
      have hwords : (∃ w, Token.word w ∈ Token.blank u :: ts) → ∃ w, Token.word w ∈ ts := by simp
      rw [List.length_append]
      cases pause with
      | afterWord =>
          obtain ⟨hle, hlt⟩ := ih hrest (.blanks u)
          have hsettle : settle .afterWord (Token.blank u :: ts) = settle (.blanks u) ts := rfl
          rw [hsettle]
          simp only [Pause.length] at hle hlt ⊢
          exact ⟨by omega, fun hw => by have := hlt (hwords hw); omega⟩
      | none | blanks b | folded b =>
          obtain ⟨hle, hlt⟩ := ih hrest .none
          simp only [settle, List.flatMap_cons, content, List.length_append, Pause.length] at *
          exact ⟨by omega, fun hw => by have := hlt (hwords hw); omega⟩
  | @word inner u ts rest hdecode _ ih =>
      have hinner := EncodedWord.length_decode? (fun c hc => hp c (by simp [hc])) hdecode
      obtain ⟨hle, -⟩ := ih (fun c hc => hp c (by simp [hc])) .afterWord
      have hsettle : settle pause (Token.word u :: ts) = Token.word u :: settle .afterWord ts := by
        cases pause <;> rfl
      have htotal : ((settle pause (Token.word u :: ts)).flatMap content).length =
          u.length + ((settle .afterWord ts).flatMap content).length := by
        rw [hsettle, List.flatMap_cons, List.length_append]
        rfl
      -- The four characters of the marks are what the line has more than what is read of it.
      have hline : ("=?".toList ++ inner ++ "?=".toList ++ rest).length =
          inner.length + rest.length + 4 := by
        simp only [List.length_append]
        change 2 + inner.length + 2 + rest.length = _
        omega
      rw [htotal, hline]
      simp only [Pause.length] at hle
      exact ⟨by omega, fun _ => by omega⟩

/-- Text that is written as it is although a reader finds a word in it. -/
def Mistakable [Charsets] (t : Text) : Prop := t.all Text.isPrintable ∧ ∃ w, Token.word w ∈ ofLine t

/-- Where a text can be mistaken stands an encoded word that can be decoded. -/
theorem Mistakable.place [Charsets] (h : Mistakable t) : ∃ before inner after w,
    t = before ++ "=?".toList ++ inner ++ "?=".toList ++ after ∧
      EncodedWord.decode? inner = some w := by
  obtain ⟨-, w, hw⟩ := h
  obtain ⟨before, inner, after, ht, hdecode⟩ := (spells_ofLine t).place hw
  exact ⟨before, inner, after, w, ht, hdecode⟩

/-- Text without either mark of a word cannot be mistaken. -/
theorem Mistakable.marks [Charsets] (h : Mistakable t) :
    ¬ Spelling.Plain t ∧ ¬ Text.Lacks '?' '=' t := by
  obtain ⟨before, inner, after, w, rfl, -⟩ := h.place
  refine ⟨?_, ?_⟩
  · intro hplain
    rw [Spelling.Plain, Text.lacks_append, Text.lacks_append, Text.lacks_append,
      Text.lacks_append] at hplain
    exact absurd hplain.1.1.1.2.1 (by decide)
  · intro hlacks
    rw [Text.lacks_append, Text.lacks_append] at hlacks
    exact absurd hlacks.1.2.1 (by decide)

/-- A text comes back from its header form unless it can be mistaken. -/
theorem decodeValue_encode_iff [Charsets] (ht : Text.trim t = t) (hne : t ≠ []) :
    decodeValue (EncodedWord.encode t) = t ↔ ¬ Mistakable t := by
  have hstart := Text.isBlank_head_of_trim ht
  by_cases hp : t.all Text.isPrintable
  · have hall : ∀ c ∈ t, Text.isPrintable c := List.all_eq_true.1 hp
    have hvalue :
        decodeValue (EncodedWord.encode t) = (settle .none (ofLine t)).flatMap content := by
      rw [EncodedWord.encode_of_isPrintable hall, decodeValue,
        ofValue_oneLine (Text.oneLine_of_isPrintable hall) hne hstart]
    have hspells := spells_ofLine t
    rw [hvalue]
    constructor
    · rintro heq ⟨-, hw⟩
      have hshorter := (hspells.length_le hall .none).2 hw
      rw [heq, Pause.length, Nat.zero_add] at hshorter
      exact Nat.lt_irrefl _ hshorter
    · intro hmistakable
      exact hspells.decode_eq fun w hw => hmistakable ⟨hp, w, hw⟩
  · have hnot : ¬ Mistakable t := fun h => hp h.1
    exact iff_of_true (decodeValue_encode (fun h => absurd h hp) hstart) hnot

end Token
end Epistle
