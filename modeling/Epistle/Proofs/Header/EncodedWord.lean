import Epistle.Header.EncodedWord
import Epistle.Proofs.Text.Split
import Epistle.Proofs.Transfer.Base64

/-!
Encoded words. Whatever the text, its header form is printable ASCII; the runs it is cut into
make up the text again, none of them is empty, and each word is read back as its run.
-/
namespace Epistle
namespace EncodedWord

/-- A word is made of the characters of base64 and two more. -/
theorem mem_write {run : Text} {c : Char} (h : c ∈ write run) :
    Base64.isDigit c ∨ c = '?' ∨ c = '-' := by
  have hopen : ∀ d ∈ "=?UTF-8?B?".toList, Base64.isDigit d ∨ d = '?' ∨ d = '-' := by decide
  have hclose : ∀ d ∈ "?=".toList, Base64.isDigit d ∨ d = '?' ∨ d = '-' := by decide
  unfold write at h
  simp only [List.mem_append] at h
  rcases h with (h | h) | h
  · exact hopen c h
  · exact .inl (Base64.isDigit_of_mem_encode h)
  · exact hclose c h

theorem isPrintable_write {run : Text} {c : Char} (h : c ∈ write run) : Text.isPrintable c := by
  rcases mem_write h with h | rfl | rfl
  · exact Base64.isPrintable_of_isDigit h
  · decide
  · decide

theorem encode_of_isPrintable {t : Text} (h : ∀ c ∈ t, Text.isPrintable c = true) :
    encode t = t := by
  rw [encode, if_pos (List.all_eq_true.2 h)]

theorem isPrintable_encode {t : Text} {c : Char} (h : c ∈ encode t) : Text.isPrintable c := by
  simp only [encode] at h
  split at h
  · rename_i ht
    exact List.all_eq_true.1 ht c h
  · rcases Text.mem_joinWith h with h | ⟨w, hw, h⟩
    · rw [List.mem_singleton.1 h]
      decide
    · obtain ⟨run, -, rfl⟩ := List.mem_map.1 hw
      exact isPrintable_write h

theorem oneLine_encode (t : Text) : Text.OneLine (encode t) :=
  Text.oneLine_of_isPrintable fun _ h => isPrintable_encode h

theorem flatten_runsFrom (run t : Text) : (runsFrom run t).flatten = run ++ t := by
  induction t generalizing run with
  | nil => simp [runsFrom]
  | cons c t ih =>
      simp only [runsFrom]
      split
      · simp [ih]
      · simp [ih]

theorem runsFrom_ne_nil (run t : Text) : runsFrom run t ≠ [] := by
  induction t generalizing run with
  | nil => simp [runsFrom]
  | cons c t ih =>
      simp only [runsFrom]
      split
      · simp
      · exact ih _

/-- What holds of a run when it is begun and as it grows holds of all runs. -/
theorem forall_mem_runsFrom {p : Text → Prop} (hone : ∀ c, p [c])
    (hgrow : ∀ run c, Utf8.size run + Utf8.width c ≤ payload → p run → p (run ++ [c]))
    {run t : Text} (hrun : p run) : ∀ r ∈ runsFrom run t, p r := by
  induction t generalizing run with
  | nil => exact List.forall_mem_singleton.2 hrun
  | cons c t ih =>
      rw [runsFrom]
      split
      · exact List.forall_mem_cons.2 ⟨hrun, ih (hone c)⟩
      · rename_i hfit
        exact ih (hgrow run c (Nat.le_of_not_lt hfit) hrun)

theorem ne_nil_of_mem_runsFrom {run t r : Text} (hrun : run ≠ []) (h : r ∈ runsFrom run t) :
    r ≠ [] :=
  forall_mem_runsFrom (p := (· ≠ [])) (by simp) (by simp) hrun r h

theorem width_le (c : Char) : Utf8.width c ≤ 4 := by
  simp only [Utf8.width, Utf8.encodeChar]
  split
  · simp
  · split
    · simp
    · split <;> simp

/-- The first character always fits, so no word is empty. -/
theorem ne_nil_of_mem_runs {t r : Text} (ht : t ≠ []) (h : r ∈ runsFrom [] t) : r ≠ [] := by
  cases t with
  | nil => exact absurd rfl ht
  | cons c t =>
      have hfit : ¬ Utf8.size [] + Utf8.width c > payload := by
        have hw := width_le c
        have hs : Utf8.size [] = 0 := rfl
        have hp : payload = 45 := rfl
        omega
      rw [runsFrom, if_neg hfit] at h
      exact ne_nil_of_mem_runsFrom (by simp) h

/-- What stands between the delimiters of a word. -/
def inside (run : Text) : Text := "UTF-8?B?".toList ++ Base64.encode (Utf8.encode run)

theorem write_eq (run : Text) : write run = "=?".toList ++ inside run ++ "?=".toList := by
  unfold write inside
  rfl

/-- What is not printable begins with a word. -/
theorem head?_encode {t : Text} (h : ¬ t.all Text.isPrintable) : (encode t).head? = some '=' := by
  obtain ⟨run, rest, hcons⟩ := List.exists_cons_of_ne_nil (runsFrom_ne_nil [] t)
  rw [encode, if_neg h, hcons]
  cases rest with
  | nil => rfl
  | cons next rest => rfl

theorem isBlank_head_encode {t : Text} (h : ∀ c, t.head? = some c → Text.isBlank c = false) :
    ∀ c, (encode t).head? = some c → Text.isBlank c = false := by
  intro c hc
  by_cases hp : t.all Text.isPrintable
  · rw [encode, if_pos hp] at hc
    exact h c hc
  · rw [head?_encode hp] at hc
    cases hc
    decide

theorem not_mem_base64 (bytes : Octets) : '?' ∉ Base64.encode bytes :=
  fun h => absurd (Base64.isDigit_of_mem_encode h) (by decide)

/-- The end mark does not occur inside a word. -/
theorem lacks_inside (run : Text) : Text.Lacks '?' '=' (inside run) := by
  have hfront : Text.Lacks '?' '=' "UTF-8?B?".toList := by decide
  unfold inside
  rw [Text.lacks_append]
  exact ⟨hfront, Text.lacks_of_not_mem_left (not_mem_base64 _),
    fun _ => Base64.head?_encode_ne _⟩

theorem decode?_inside [Charsets] (run : Text) : decode? (inside run) = some run := by
  have hlabel : Text.cut? '?' (inside run) =
      some ("UTF-8".toList, 'B' :: '?' :: Base64.encode (Utf8.encode run)) :=
    Text.cut?_append _ (show '?' ∉ "UTF-8".toList by decide)
  have hencoding : Text.cut? '?' ('B' :: '?' :: Base64.encode (Utf8.encode run)) =
      some (['B'], Base64.encode (Utf8.encode run)) :=
    Text.cut?_append _ (show '?' ∉ ['B'] by decide)
  have hcharset : Charset.ofLabel? "UTF-8".toList = some .utf8 := if_pos (by decide)
  simp only [decode?, hlabel, hencoding, hcharset, Base64.decodeWord?_encode, Option.bind_eq_bind,
    Option.bind_some, true_or, if_true, Charset.decode, Utf8.decode_encode]
  rfl

end EncodedWord
end Epistle
