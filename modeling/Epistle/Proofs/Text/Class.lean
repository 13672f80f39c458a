import Epistle.Text.Blank
import Mathlib.Data.List.TakeWhile

/-!
How the classes of characters relate: text without control characters stands on one line, and so
does printable text. Taking controls out and trimming keep what text may not hold.
-/
namespace Epistle

/-- What is asked of all characters of a text is looked up in the text. -/
instance (p : Char → Prop) [DecidablePred p] (t : Text) : Decidable (∀ c ∈ t, p c) :=
  List.decidableBAll p t

namespace Text

/-- Text that no line break cuts. -/
def OneLine (t : Text) : Prop := ∀ c ∈ t, c ≠ '\r' ∧ c ≠ '\n'

instance (t : Text) : Decidable (OneLine t) := inferInstanceAs (Decidable (∀ c ∈ t, _))

theorem oneLine_append {s t : Text} : OneLine (s ++ t) ↔ OneLine s ∧ OneLine t := by
  simp only [OneLine, List.forall_mem_append]

theorem hasControl_eq_false {t : Text} :
    hasControl t = false ↔ ∀ c ∈ t, isControl c = false := by
  simp [hasControl]

theorem hasControl_of_subset {s t : Text} (hs : s ⊆ t) (ht : hasControl t = false) :
    hasControl s = false :=
  hasControl_eq_false.2 fun c hc => hasControl_eq_false.1 ht c (hs hc)

theorem oneLine_of_hasControl {t : Text} (h : hasControl t = false) : OneLine t := by
  intro c hc
  have hc := hasControl_eq_false.1 h c hc
  constructor
  · rintro rfl
    exact absurd hc (by decide)
  · rintro rfl
    exact absurd hc (by decide)

theorem isControl_of_isPrintable {c : Char} (h : isPrintable c) : isControl c = false := by
  simp only [isPrintable, Bool.and_eq_true, decide_eq_true_eq] at h
  simp only [isControl, Bool.or_eq_false_iff, Bool.and_eq_false_iff, decide_eq_false_iff_not]
  omega

theorem hasControl_of_isPrintable {t : Text} (h : ∀ c ∈ t, isPrintable c) :
    hasControl t = false :=
  hasControl_eq_false.2 fun c hc => isControl_of_isPrintable (h c hc)

theorem oneLine_of_isPrintable {t : Text} (h : ∀ c ∈ t, isPrintable c) : OneLine t :=
  oneLine_of_hasControl (hasControl_of_isPrintable h)

theorem isBlank_of_isPrintable {c : Char} (h : isPrintable c = true) (hc : c ≠ ' ') :
    isBlank c = false := by
  have hspace : c.toNat ≠ 0x20 := fun he => hc (Char.toNat_inj.1 he)
  simp only [isPrintable, Bool.and_eq_true, decide_eq_true_eq] at h
  simp only [isBlank, Bool.or_eq_false_iff, Bool.and_eq_false_iff, decide_eq_false_iff_not,
    beq_eq_false_iff_ne]
  omega

theorem hasControl_withoutControls (t : Text) : hasControl (withoutControls t) = false := by
  rw [hasControl_eq_false]
  intro c hc
  obtain ⟨d, -, rfl⟩ := List.mem_map.1 hc
  split
  · decide
  · simp_all

theorem withoutControls_eq_self {t : Text} (h : hasControl t = false) : withoutControls t = t := by
  rw [withoutControls]
  conv => rhs; rw [← List.map_id t]
  apply List.map_congr_left
  intro c hc
  simp [hasControl_eq_false.1 h c hc]

theorem exists_dropEndWhile (p : Char → Bool) (t : Text) :
    ∃ tail, dropEndWhile p t ++ tail = t ∧ ∀ c ∈ tail, p c := by
  refine ⟨(t.reverse.takeWhile p).reverse, ?_, ?_⟩
  · rw [dropEndWhile, ← List.reverse_append, List.takeWhile_append_dropWhile, List.reverse_reverse]
  · intro c hc
    exact List.mem_takeWhile_imp (List.mem_reverse.1 hc)

theorem dropEndWhile_append (p : Char → Bool) (t : Text) :
    ∃ tail, dropEndWhile p t ++ tail = t :=
  (exists_dropEndWhile p t).imp fun _ h => h.1

theorem trimStart_eq_self {t : Text} (h : ∀ c, t.head? = some c → isBlank c = false) :
    trimStart t = t := by
  cases t with
  | nil => rfl
  | cons c t => exact List.dropWhile_cons_of_neg (by simp [h c rfl])

theorem dropEndWhile_eq_self {p : Char → Bool} {t : Text}
    (h : ∀ c, t.getLast? = some c → p c = false) : dropEndWhile p t = t := by
  rw [dropEndWhile]
  cases hr : t.reverse with
  | nil =>
      rw [List.reverse_eq_nil_iff] at hr
      subst hr
      rfl
  | cons c r =>
      have hc : p c = false := h c (by rw [← List.head?_reverse, hr]; rfl)
      rw [List.dropWhile_cons_of_neg (by simp [hc]), ← hr, List.reverse_reverse]

theorem dropEndWhile_concat {p : Char → Bool} {c : Char} (h : p c) (t : Text) :
    dropEndWhile p (t ++ [c]) = dropEndWhile p t := by
  rw [dropEndWhile, List.reverse_append, List.reverse_singleton, List.singleton_append,
    List.dropWhile_cons_of_pos h]
  rfl

theorem trimEnd_eq_self {t : Text} (h : ∀ c, t.getLast? = some c → isBlank c = false) :
    trimEnd t = t := dropEndWhile_eq_self h

theorem trim_eq_self {t : Text} (hs : ∀ c, t.head? = some c → isBlank c = false)
    (he : ∀ c, t.getLast? = some c → isBlank c = false) : trim t = t := by
  rw [trim, trimStart_eq_self hs, trimEnd_eq_self he]

theorem isBlank_head_trimStart {t : Text} {c : Char} (h : (trimStart t).head? = some c) :
    isBlank c = false := by
  have hn := List.head?_dropWhile_not isBlank t
  rw [trimStart] at h
  rwa [h] at hn

theorem isBlank_getLast_trimEnd {t : Text} {c : Char} (h : (trimEnd t).getLast? = some c) :
    isBlank c = false := by
  rw [trimEnd, dropEndWhile, List.getLast?_reverse] at h
  exact isBlank_head_trimStart h

theorem isBlank_head_trim {t : Text} {c : Char} (h : (trim t).head? = some c) :
    isBlank c = false := by
  obtain ⟨rest, hrest⟩ := dropEndWhile_append isBlank (trimStart t)
  apply isBlank_head_trimStart (t := t)
  rw [← hrest, List.head?_append]
  change ((trim t).head?.or _) = _
  rw [h]
  rfl

theorem trim_trim (t : Text) : trim (trim t) = trim t :=
  trim_eq_self (fun _ h => isBlank_head_trim h) fun _ h => isBlank_getLast_trimEnd h

theorem isBlank_head_of_trim {t : Text} (ht : trim t = t) :
    ∀ c, t.head? = some c → isBlank c = false := by
  intro c hc
  rw [← ht] at hc
  exact isBlank_head_trim hc

theorem isBlank_getLast_of_trim {t : Text} (ht : trim t = t) :
    ∀ c, t.getLast? = some c → isBlank c = false := by
  intro c hc
  rw [← ht] at hc
  exact isBlank_getLast_trimEnd hc

theorem allBlank_of_trim {t : Text} (ht : trim t = t) (hne : t ≠ []) : allBlank t = false := by
  obtain ⟨c, rest, rfl⟩ := List.exists_cons_of_ne_nil hne
  have hc := isBlank_head_of_trim ht c rfl
  simp [allBlank, hc]

theorem trim_ne_nil {t : Text} (h : allBlank t = false) : trim t ≠ [] := by
  intro ht
  have hstart : trimStart t ≠ [] := by
    intro he
    have hall : allBlank t = true := List.all_eq_true.2 (List.dropWhile_eq_nil_iff.1 he)
    rw [h] at hall
    cases hall
  obtain ⟨c, rest, hcons⟩ := List.exists_cons_of_ne_nil hstart
  have hc : isBlank c = false := isBlank_head_trimStart (t := t) (by rw [hcons]; rfl)
  rw [trim, trimEnd, dropEndWhile, List.reverse_eq_nil_iff, List.dropWhile_eq_nil_iff] at ht
  have hblank : isBlank c = true := ht c (by rw [hcons]; simp)
  rw [hc] at hblank
  cases hblank

theorem trimEnd_subset (t : Text) : trimEnd t ⊆ t := by
  intro c hc
  obtain ⟨tail, ht⟩ := dropEndWhile_append isBlank t
  rw [← ht]
  exact List.mem_append_left _ hc

/-- Trimming takes off blanks and nothing else. -/
theorem exists_trim (t : Text) :
    ∃ front back, t = front ++ trim t ++ back ∧ allBlank front ∧ allBlank back := by
  obtain ⟨back, hback, hblank⟩ := exists_dropEndWhile isBlank (trimStart t)
  refine ⟨t.takeWhile isBlank, back, ?_, ?_, List.all_eq_true.2 hblank⟩
  · rw [List.append_assoc, trim, trimEnd, hback, trimStart, List.takeWhile_append_dropWhile]
  · exact List.all_eq_true.2 fun c hc => List.mem_takeWhile_imp hc

theorem trim_isInfix (t : Text) : trim t <:+: t := by
  obtain ⟨tail, htail⟩ := dropEndWhile_append isBlank (trimStart t)
  have hend : trim t <+: trimStart t := ⟨tail, htail⟩
  exact hend.isInfix.trans (List.dropWhile_suffix _).isInfix

theorem trim_subset (t : Text) : trim t ⊆ t := (trim_isInfix t).subset

theorem joinWith_cons (sep t : Text) (ts : List Text) (h : ts ≠ []) :
    joinWith sep (t :: ts) = t ++ sep ++ joinWith sep ts := by
  cases ts with
  | nil => exact absurd rfl h
  | cons u ts => rfl

theorem mem_joinWith {sep : Text} {ts : List Text} {c : Char} (h : c ∈ joinWith sep ts) :
    c ∈ sep ∨ ∃ t ∈ ts, c ∈ t := by
  induction ts with
  | nil => simp [joinWith] at h
  | cons t ts ih =>
      cases ts with
      | nil => exact .inr ⟨t, by simp, h⟩
      | cons u ts =>
          rw [joinWith_cons _ _ _ (by simp), List.mem_append, List.mem_append] at h
          rcases h with (h | h) | h
          · exact .inr ⟨t, by simp, h⟩
          · exact .inl h
          · rcases ih h with h | ⟨v, hv, h⟩
            · exact .inl h
            · exact .inr ⟨v, by simp [hv], h⟩

theorem oneLine_joinWith {sep : Text} {ts : List Text} (hsep : OneLine sep)
    (h : ∀ t ∈ ts, OneLine t) : OneLine (joinWith sep ts) := by
  intro c hc
  rcases mem_joinWith hc with hc | ⟨t, ht, hc⟩
  · exact hsep c hc
  · exact h t ht c hc

theorem wordsFrom_append {t : Text} (h : ∀ c ∈ t, isBlank c = false) (word rest : Text) :
    wordsFrom word (t ++ rest) = wordsFrom (word ++ t) rest := by
  induction t generalizing word with
  | nil => rw [List.nil_append, List.append_nil]
  | cons c t ih =>
      have hc : ¬ isBlank c = true := by simp [h c (by simp)]
      rw [List.cons_append, wordsFrom, if_neg hc, ih fun d hd => h d (by simp [hd]),
        List.append_assoc, List.singleton_append]

/-- Words with a space between neighbours are found again. -/
theorem words_joinWith {ts : List Text}
    (h : ∀ t ∈ ts, t ≠ [] ∧ ∀ c ∈ t, isBlank c = false) : words (joinWith [' '] ts) = ts := by
  induction ts with
  | nil => rfl
  | cons t ts ih =>
      obtain ⟨⟨hne, hvisible⟩, hrest⟩ := List.forall_mem_cons.1 h
      have hspace : isBlank ' ' = true := by decide
      cases ts with
      | nil =>
          have hword := wordsFrom_append hvisible [] []
          rw [List.append_nil, List.nil_append, wordsFrom, if_neg hne] at hword
          exact hword
      | cons u us =>
          rw [joinWith_cons _ _ _ (by simp), List.append_assoc, words, wordsFrom_append hvisible,
            List.nil_append, List.singleton_append, wordsFrom, if_pos hspace, if_neg hne]
          exact congrArg (t :: ·) (ih hrest)

end Text
end Epistle
