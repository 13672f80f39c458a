import Epistle.Proofs.Header.EncodedWord
import Epistle.Proofs.Transfer.Alphabet

/-!
The words that a text is written in. A word is as long as its run needs and no longer than a word
may be, and a run ends only where the next character would make its word too long.
-/
namespace Epistle

namespace Utf8

theorem size_append_singleton (t : Text) (c : Char) : size (t ++ [c]) = size t + width c := by
  have hone : encode [c] = encodeChar c := List.append_nil _
  rw [size, encode_append, List.length_append, hone, size, width]

end Utf8

namespace EncodedWord

variable {run r t : Text}

theorem length_write (run : Text) : (write run).length = 12 + (Utf8.size run + 2) / 3 * 4 := by
  have hopen : "=?UTF-8?B?".toList.length = 10 := rfl
  have hclose : "?=".toList.length = 2 := rfl
  have hpayload := (Base64.encode_standard (Utf8.encode run)).length_eq
  unfold write
  rw [List.length_append, List.length_append, hopen, hclose, hpayload, Utf8.size]
  omega

/-- A run fits if its word does. -/
theorem length_write_le (run : Text) : (write run).length ≤ 75 ↔ Utf8.size run ≤ 45 := by
  rw [length_write]
  omega

theorem ne_space_of_mem_write {c : Char} (h : c ∈ write run) : c ≠ ' ' := by
  rcases mem_write h with h | rfl | rfl
  · rintro rfl
    exact absurd h (by decide)
  · decide
  · decide

theorem size_le_of_mem_runsFrom (hrun : Utf8.size run ≤ payload) (h : r ∈ runsFrom run t) :
    Utf8.size r ≤ payload := by
  refine forall_mem_runsFrom (p := fun r => Utf8.size r ≤ payload) ?_ ?_ hrun r h
  · intro c
    have hone : Utf8.size [c] = Utf8.width c := congrArg List.length (List.append_nil _)
    rw [hone]
    exact (width_le c).trans (by decide)
  · intro run c hfit _
    rwa [Utf8.size_append_singleton]

/-- The first run begins with what it was given. -/
theorem exists_runsFrom (run t : Text) : ∃ tail more, runsFrom run t = (run ++ tail) :: more := by
  induction t generalizing run with
  | nil => exact ⟨[], [], by rw [runsFrom, List.append_nil]⟩
  | cons c t ih =>
      rw [runsFrom]
      split
      · exact ⟨[], _, by rw [List.append_nil]⟩
      · obtain ⟨tail, more, hruns⟩ := ih (run ++ [c])
        exact ⟨c :: tail, more, by rw [hruns, List.append_assoc, List.singleton_append]⟩

/-- The first character of the next run had no room in the word of the run before. -/
def Packed (run next : Text) : Prop :=
  ∀ c, next.head? = some c → 45 < Utf8.size (run ++ [c]) ∧ 75 < (write (run ++ [c])).length

theorem packed_cons {c : Char} (h : payload < Utf8.size run + Utf8.width c) (rest : Text) :
    Packed run (c :: rest) := by
  rintro d ⟨⟩
  have hsize : 45 < Utf8.size (run ++ [c]) := by
    rw [Utf8.size_append_singleton]
    exact h
  exact ⟨hsize, Nat.lt_of_not_le fun hle => Nat.not_le_of_lt hsize ((length_write_le _).1 hle)⟩

theorem isChain_runsFrom (run t : Text) : (runsFrom run t).IsChain Packed := by
  induction t generalizing run with
  | nil => exact .singleton run
  | cons c t ih =>
      rw [runsFrom]
      split
      · rename_i hfull
        obtain ⟨tail, more, hruns⟩ := exists_runsFrom [c] t
        have hrest := ih [c]
        rw [hruns] at hrest ⊢
        exact hrest.cons_cons (packed_cons hfull tail)
      · exact ih (run ++ [c])

/-- A word for the octets of a run that is not empty. -/
structure Carries (word run : Text) : Prop where
  ne_nil : run ≠ []
  form : ∃ p, word = "=?UTF-8?B?".toList ++ p ++ "?=".toList ∧
    Base64.IsStandard (Utf8.encode run) p ∧
    Base64.decodeWord? (Utf8.encode p) = some (Utf8.encode run)
  short : word.length ≤ 75
  visible : ∀ c ∈ word, Text.isPrintable c ∧ c ≠ ' '

theorem carries_write (hne : run ≠ []) (hsize : Utf8.size run ≤ 45) : Carries (write run) run := by
  refine ⟨hne, ⟨_, rfl, Base64.encode_standard _, Base64.decodeWord?_encode _⟩,
    (length_write_le run).2 hsize, ?_⟩
  exact fun c hc => ⟨isPrintable_write hc, ne_space_of_mem_write hc⟩

theorem encode_of_not_isPrintable {c : Char} (hc : c ∈ t) (h : Text.isPrintable c = false) :
    encode t = Text.joinWith [' '] ((runsFrom [] t).map write) := by
  rw [encode, if_neg]
  intro hall
  rw [List.all_eq_true.1 hall c hc] at h
  cases h

/-- A text that needs words is written in words that have no room left for what comes next, and
what is written needs no words again. -/
theorem encode_words (t : Text) :
    (∀ c ∈ encode t, Text.isPrintable c) ∧ encode (encode t) = encode t ∧
    ((∃ c ∈ t, 0x80 ≤ c.toNat ∨ c.toNat < 0x20 ∨ c.toNat = 0x7F) →
      ∃ words runs, words ≠ [] ∧ encode t = Text.joinWith [' '] words ∧
        List.Forall₂ Carries words runs ∧ runs.flatten = t ∧ runs.IsChain Packed) := by
  have hprintable : ∀ c ∈ encode t, Text.isPrintable c := fun c hc => isPrintable_encode hc
  refine ⟨hprintable, encode_of_isPrintable hprintable, ?_⟩
  rintro ⟨c, hc, hneeds⟩
  have hnot : Text.isPrintable c = false := by
    rw [Text.isPrintable, Bool.and_eq_false_iff, decide_eq_false_iff_not, decide_eq_false_iff_not]
    omega
  refine ⟨(runsFrom [] t).map write, runsFrom [] t, ?_, encode_of_not_isPrintable hc hnot, ?_,
    flatten_runsFrom [] t, isChain_runsFrom [] t⟩
  · rw [ne_eq, List.map_eq_nil_iff]
    exact runsFrom_ne_nil [] t
  · rw [List.forall₂_map_left_iff, List.forall₂_same]
    intro r hr
    exact carries_write (ne_nil_of_mem_runs (List.ne_nil_of_mem hc) hr)
      (size_le_of_mem_runsFrom (Nat.zero_le _) hr)

/-- Characters of one, two and three octets, the first of them a line break. -/
def wideText : Text := '\n' :: List.replicate 40 'ü' ++ ['€', 'a']

theorem encode_words_wideText :
    (∃ c ∈ wideText, 0x80 ≤ c.toNat ∨ c.toNat < 0x20 ∨ c.toNat = 0x7F) ∧
    (runsFrom [] wideText).map Utf8.size = [45, 40] ∧
    encode (encode wideText) = encode wideText ∧
    ∃ words runs, words ≠ [] ∧ encode wideText = Text.joinWith [' '] words ∧
      List.Forall₂ Carries words runs ∧ runs.flatten = wideText ∧ runs.IsChain Packed := by
  have hneeds : ∃ c ∈ wideText, 0x80 ≤ c.toNat ∨ c.toNat < 0x20 ∨ c.toNat = 0x7F :=
    ⟨'\n', List.mem_cons_self, by decide⟩
  obtain ⟨-, hagain, hwords⟩ := encode_words wideText
  exact ⟨hneeds, by decide, hagain, hwords hneeds⟩

end EncodedWord
end Epistle
