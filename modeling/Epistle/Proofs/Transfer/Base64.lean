import Epistle.Proofs.Text.Class
import Epistle.Proofs.Text.Utf8
import Epistle.Transfer.Base64

/-!
Base64 reads back what it wrote, in one word or in wrapped lines. What it writes consists of the
symbols of the alphabet and of padding, so it never looks like a delimiter of anything.
-/
namespace Epistle
namespace Base64

/-- A symbol of the alphabet or the padding. -/
def isDigit (c : Char) : Bool := (value? c.toNat).isSome || c == '='

/-- The octet of the symbol for six bits. -/
def digit (n : Nat) : UInt8 := UInt8.ofNat (symbol n).toNat

theorem value?_digit : ∀ n < 64, value? (digit n).toNat = some n := by decide

theorem isPad_digit : ∀ n < 64, isPad (digit n) = false := by decide

theorem isDigit_symbol : ∀ n < 64, isDigit (symbol n) := by decide

/-- Letters, digits and four signs: what no syntax around base64 uses to end it. -/
theorem isDigit_cases {c : Char} (h : isDigit c) :
    (0x41 ≤ c.toNat ∧ c.toNat ≤ 0x5A) ∨ (0x61 ≤ c.toNat ∧ c.toNat ≤ 0x7A) ∨
      (0x30 ≤ c.toNat ∧ c.toNat ≤ 0x39) ∨ c = '+' ∨ c = '/' ∨ c = '=' := by
  have heq {n : Nat} (hn : c.toNat = n) : c = Char.ofNat n := by rw [← hn, Char.ofNat_toNat]
  simp only [isDigit, value?, Bool.or_eq_true, beq_iff_eq] at h
  rcases h with h | h
  · split at h
    · exact .inl ‹_›
    · split at h
      · exact .inr (.inl ‹_›)
      · split at h
        · exact .inr (.inr (.inl ‹_›))
        · split at h
          · exact .inr (.inr (.inr (.inl (heq ‹_›))))
          · split at h
            · exact .inr (.inr (.inr (.inr (.inl (heq ‹_›)))))
            · simp at h
  · simp [h]

theorem isPrintable_of_isDigit {c : Char} (h : isDigit c) : Text.isPrintable c := by
  simp only [Text.isPrintable, Bool.and_eq_true, decide_eq_true_eq]
  rcases isDigit_cases h with h | h | h | rfl | rfl | rfl
  · omega
  · omega
  · omega
  all_goals decide

theorem isDigit_of_mem_encode {bytes : Octets} {c : Char} (h : c ∈ encode bytes) : isDigit c := by
  have hpad : isDigit '=' := by decide
  fun_induction encode bytes with
  | case1 => simp at h
  | case2 a =>
      have := a.toNat_lt
      simp only [List.mem_cons, List.not_mem_nil, or_false] at h
      rcases h with rfl | rfl | rfl | rfl
      · exact isDigit_symbol _ (by omega)
      · exact isDigit_symbol _ (by omega)
      all_goals exact hpad
  | case3 a b =>
      have := a.toNat_lt
      have := b.toNat_lt
      simp only [List.mem_cons, List.not_mem_nil, or_false] at h
      rcases h with rfl | rfl | rfl | rfl
      · exact isDigit_symbol _ (by omega)
      · exact isDigit_symbol _ (by omega)
      · exact isDigit_symbol _ (by omega)
      · exact hpad
  | case4 a b c' rest ih =>
      have := a.toNat_lt
      have := b.toNat_lt
      have := c'.toNat_lt
      simp only [List.mem_cons] at h
      rcases h with rfl | rfl | rfl | rfl | h
      · exact isDigit_symbol _ (by omega)
      · exact isDigit_symbol _ (by omega)
      · exact isDigit_symbol _ (by omega)
      · exact isDigit_symbol _ (by omega)
      · exact ih h

/-- Padding never comes first. -/
theorem head?_encode_ne (bytes : Octets) : (encode bytes).head? ≠ some '=' := by
  have hsymbol : ∀ n < 64, symbol n ≠ '=' := by decide
  fun_cases encode bytes with
  | case1 => simp
  | case2 a | case3 a | case4 a =>
      have := a.toNat_lt
      simpa using hsymbol (a.toNat / 4) (by omega)

theorem toNat_of_isDigit {c : Char} (h : isDigit c) : c.toNat < 0x80 := by
  have h := isPrintable_of_isDigit h
  simp only [Text.isPrintable, Bool.and_eq_true, decide_eq_true_eq] at h
  omega

theorem utf8_encode (bytes : Octets) :
    Utf8.encode (encode bytes) = (encode bytes).map fun c => UInt8.ofNat c.toNat :=
  Utf8.encode_ascii fun _ hc => toNat_of_isDigit (isDigit_of_mem_encode hc)

private theorem ofNat_eq {b : UInt8} {n : Nat} (h : n = b.toNat) : UInt8.ofNat n = b := by
  rw [h, UInt8.ofNat_toNat]

theorem decodeGroup?_one {i j : Nat} (hi : i < 64) (hj : j < 64) :
    decodeGroup? (digit i) (digit j) 0x3D 0x3D = some [UInt8.ofNat (i * 4 + j / 16)] := by
  simp only [decodeGroup?, value?_digit i hi, value?_digit j hj, Option.bind_eq_bind,
    Option.bind_some]
  rfl

theorem decodeGroup?_two {i j k : Nat} (hi : i < 64) (hj : j < 64) (hk : k < 64) :
    decodeGroup? (digit i) (digit j) (digit k) 0x3D =
      some [UInt8.ofNat (i * 4 + j / 16), UInt8.ofNat (j % 16 * 16 + k / 4)] := by
  simp only [decodeGroup?, value?_digit i hi, value?_digit j hj, value?_digit k hk,
    isPad_digit k hk, Option.bind_eq_bind, Option.bind_some]
  rfl

theorem decodeGroup?_three {i j k l : Nat} (hi : i < 64) (hj : j < 64) (hk : k < 64)
    (hl : l < 64) :
    decodeGroup? (digit i) (digit j) (digit k) (digit l) =
      some [UInt8.ofNat (i * 4 + j / 16), UInt8.ofNat (j % 16 * 16 + k / 4),
        UInt8.ofNat (k % 4 * 64 + l)] := by
  simp only [decodeGroup?, value?_digit i hi, value?_digit j hj, value?_digit k hk,
    value?_digit l hl, isPad_digit k hk, isPad_digit l hl, Option.bind_eq_bind, Option.bind_some]
  rfl

theorem decodeGroups?_cons {a b c d : UInt8} {front rest back : Octets}
    (hf : decodeGroup? a b c d = some front) (hb : decodeGroups? rest = some back) :
    decodeGroups? (a :: b :: c :: d :: rest) = some (front ++ back) := by
  simp [decodeGroups?, hf, hb]

theorem decodeGroups?_encode (bytes : Octets) :
    decodeGroups? (Utf8.encode (encode bytes)) = some bytes := by
  rw [utf8_encode]
  fun_induction encode bytes with
  | case1 => rfl
  | case2 a =>
      have := a.toNat_lt
      have hg := decodeGroup?_one (i := a.toNat / 4) (j := a.toNat % 4 * 16) (by omega) (by omega)
      rw [ofNat_eq (b := a) (by omega)] at hg
      exact decodeGroups?_cons hg rfl
  | case3 a b =>
      have := a.toNat_lt
      have := b.toNat_lt
      have hg := decodeGroup?_two (i := a.toNat / 4) (j := a.toNat % 4 * 16 + b.toNat / 16)
        (k := b.toNat % 16 * 4) (by omega) (by omega) (by omega)
      rw [ofNat_eq (b := a) (by omega), ofNat_eq (b := b) (by omega)] at hg
      exact decodeGroups?_cons hg rfl
  | case4 a b c rest ih =>
      have := a.toNat_lt
      have := b.toNat_lt
      have := c.toNat_lt
      have hg := decodeGroup?_three (i := a.toNat / 4) (j := a.toNat % 4 * 16 + b.toNat / 16)
        (k := b.toNat % 16 * 4 + c.toNat / 64) (l := c.toNat % 64) (by omega) (by omega)
        (by omega) (by omega)
      rw [ofNat_eq (b := a) (by omega), ofNat_eq (b := b) (by omega),
        ofNat_eq (b := c) (by omega)] at hg
      exact decodeGroups?_cons hg ih

theorem isBlankOctet_of_isDigit {c : Char} (h : isDigit c) :
    isBlankOctet (UInt8.ofNat c.toNat) = false := by
  have hlt := toNat_of_isDigit h
  have hp := isPrintable_of_isDigit h
  have hn : (UInt8.ofNat c.toNat).toNat = c.toNat :=
    UInt8.toNat_ofNat_of_lt' (by simp only [UInt8.size]; omega)
  have hs : c ≠ ' ' := by
    rintro rfl
    exact absurd h (by decide)
  have hs : c.toNat ≠ 0x20 := fun he => hs (by rw [← Char.ofNat_toNat c, he])
  simp only [Text.isPrintable, Bool.and_eq_true, decide_eq_true_eq] at hp
  simp only [isBlankOctet, Bool.or_eq_false_iff, beq_eq_false_iff_ne, ne_eq, ← UInt8.toNat_inj,
    hn]
  refine ⟨⟨⟨⟨hs, ?_⟩, ?_⟩, ?_⟩, ?_⟩ <;> simp only [UInt8.reduceToNat] <;> omega

theorem isLineBreak_of_isBlankOctet {b : UInt8} (h : isBlankOctet b = false) :
    isLineBreak b = false := by
  simp_all [isBlankOctet, isLineBreak]

/-- What stays when white space is passed over: the text that was wrapped. -/
theorem filter_wrapFrom {t : Text} (ht : ∀ c ∈ t, isDigit c) (room : Nat) :
    (Utf8.encode (wrapFrom room t)).filter (fun b => !isBlankOctet b) = Utf8.encode t := by
  induction t generalizing room with
  | nil =>
      simp only [wrapFrom]
      split <;> rfl
  | cons c t ih =>
      have hc := ht c (by simp)
      have ih := ih fun d hd => ht d (by simp [hd])
      have hcrlf : (Utf8.encode ['\r', '\n']).filter (fun b => !isBlankOctet b) = [] := rfl
      have hone : (Utf8.encodeChar c).filter (fun b => !isBlankOctet b) = Utf8.encodeChar c := by
        rw [Utf8.encodeChar_ascii (toNat_of_isDigit hc)]
        simp [isBlankOctet_of_isDigit hc]
      cases room with
      | zero =>
          have hsplit : wrapFrom 0 (c :: t) =
              ['\r', '\n'] ++ c :: wrapFrom (lineLength - 1) t := rfl
          rw [hsplit, Utf8.encode_append, List.filter_append, hcrlf, Utf8.encode_cons,
            List.filter_append, hone, ih, List.nil_append, Utf8.encode_cons]
      | succ left =>
          rw [wrapFrom, Utf8.encode_cons, List.filter_append, hone, ih, Utf8.encode_cons]

/-- A word holds no line break, so nothing is passed over. -/
theorem decodeWord?_encode (bytes : Octets) :
    decodeWord? (Utf8.encode (encode bytes)) = some bytes := by
  have hkeep : (Utf8.encode (encode bytes)).filter (fun b => !isLineBreak b) =
      Utf8.encode (encode bytes) := by
    rw [List.filter_eq_self, utf8_encode]
    intro b hb
    obtain ⟨c, hc, rfl⟩ := List.mem_map.1 hb
    have h := isLineBreak_of_isBlankOctet (isBlankOctet_of_isDigit (isDigit_of_mem_encode hc))
    simp [h]
  rw [decodeWord?, hkeep, decodeGroups?_encode]

theorem decodeBody?_encodeWrapped (bytes : Octets) :
    decodeBody? (Utf8.encode (encodeWrapped bytes)) = some bytes := by
  rw [decodeBody?, encodeWrapped, filter_wrapFrom fun c hc => isDigit_of_mem_encode hc,
    decodeGroups?_encode]

/-- Base64 has no octets but those of its digits and of line breaks. -/
theorem mem_wrapFrom {t : Text} {room : Nat} {c : Char} (h : c ∈ wrapFrom room t) :
    c ∈ t ∨ c = '\r' ∨ c = '\n' := by
  induction t generalizing room with
  | nil =>
      simp only [wrapFrom] at h
      split at h
      · simp at h
      · simpa using h
  | cons d t ih =>
      cases room with
      | zero =>
          simp only [wrapFrom, List.mem_cons] at h
          rcases h with h | h | h | h
          · exact .inr (.inl h)
          · exact .inr (.inr h)
          · exact .inl (by simp [h])
          · rcases ih h with h | h
            · exact .inl (by simp [h])
            · exact .inr h
      | succ left =>
          simp only [wrapFrom, List.mem_cons] at h
          rcases h with h | h
          · exact .inl (by simp [h])
          · rcases ih h with h | h
            · exact .inl (by simp [h])
            · exact .inr h

/-- A full line is broken off in front of what does not fit on it. -/
theorem wrapFrom_full {t : Text} {room : Nat} (h : room < t.length) :
    wrapFrom room t = t.take room ++ ['\r', '\n'] ++ wrapFrom lineLength (t.drop room) := by
  induction room generalizing t with
  | zero =>
      obtain ⟨c, rest, rfl⟩ := List.exists_cons_of_length_pos h
      rfl
  | succ room ih =>
      obtain ⟨c, rest, rfl⟩ := List.exists_cons_of_length_pos (Nat.zero_lt_of_lt h)
      rw [wrapFrom, ih (Nat.lt_of_succ_lt_succ h)]
      rfl

/-- What fits on a line ends it, unless that line was not begun. -/
theorem wrapFrom_rest {t : Text} {room : Nat} (h : t.length ≤ room)
    (hbegun : room - t.length ≠ lineLength) : wrapFrom room t = t ++ ['\r', '\n'] := by
  induction t generalizing room with
  | nil => exact if_neg hbegun
  | cons c rest ih =>
      rw [List.length_cons] at h hbegun
      obtain ⟨left, rfl⟩ := Nat.exists_eq_add_of_lt (Nat.lt_of_lt_of_le (Nat.succ_pos _) h)
      rw [Nat.zero_add, wrapFrom, ih (by omega) (by omega)]
      rfl

/-- Wrapping cuts a text into full lines and a last one that is not empty. -/
theorem exists_full_lines {t : Text} (hne : t ≠ []) : ∃ (full : List Text) (last : Text),
    wrapFrom lineLength t = (full ++ [last]).flatMap (· ++ ['\r', '\n']) ∧
      full.flatten ++ last = t ∧ (∀ line ∈ full, line.length = lineLength) ∧
      last ≠ [] ∧ last.length ≤ lineLength := by
  have hpositive : 0 < t.length := List.length_pos_iff.2 hne
  by_cases h : t.length ≤ lineLength
  · have hline := wrapFrom_rest h (by rw [lineLength]; omega)
    exact ⟨[], t, by simpa using hline, rfl, by simp, hne, h⟩
  · have hdrop : t.drop lineLength ≠ [] := by
      rw [ne_eq, List.drop_eq_nil_iff]
      exact h
    obtain ⟨full, last, hlines, hflatten, hfull, hlast⟩ := exists_full_lines hdrop
    refine ⟨t.take lineLength :: full, last, ?_, ?_, ?_, hlast⟩
    · rw [wrapFrom_full (Nat.lt_of_not_le h), hlines, List.cons_append, List.flatMap_cons]
    · rw [List.flatten_cons, List.append_assoc, hflatten, List.take_append_drop]
    · exact List.forall_mem_cons.2 ⟨List.length_take_of_le (Nat.le_of_not_le h), hfull⟩
termination_by t.length
decreasing_by
  rw [List.length_drop, lineLength]
  omega

/-- The lines are neither empty nor too long. -/
theorem exists_lines (t : Text) : ∃ lines : List Text,
    wrapFrom lineLength t = lines.flatMap (· ++ ['\r', '\n']) ∧ lines.flatten = t ∧
      ∀ line ∈ lines, line ≠ [] ∧ line.length ≤ lineLength := by
  by_cases hne : t = []
  · rw [hne]
    exact ⟨[], rfl, rfl, by simp⟩
  · obtain ⟨full, last, hlines, hflatten, hfull, hlast⟩ := exists_full_lines hne
    refine ⟨full ++ [last], hlines, by simpa using hflatten, ?_⟩
    refine List.forall_mem_append.2 ⟨?_, List.forall_mem_singleton.2 hlast⟩
    intro line hline
    have hlength := hfull line hline
    exact ⟨List.length_pos_iff.1 (by rw [hlength]; decide), hlength.le⟩

end Base64
end Epistle
