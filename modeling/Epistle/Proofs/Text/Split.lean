import Epistle.Proofs.Text.Class
import Epistle.Text.Split

/-!
Cutting text. The first occurrence of a pattern of two characters is found behind whatever does
not hold the pattern, and text on one line is its only line.
-/
namespace Epistle
namespace Text

theorem splitAll_of_not_mem {sep : Char} {t : Text} (h : sep ∉ t) : splitAll sep t = [t] := by
  induction t with
  | nil => rfl
  | cons c t ih =>
      have hc : c ≠ sep := fun he => h (by simp [he])
      rw [splitAll, if_neg hc, ih fun hm => h (by simp [hm])]

theorem splitAll_append {sep : Char} {t : Text} (rest : Text) (h : sep ∉ t) :
    splitAll sep (t ++ sep :: rest) = t :: splitAll sep rest := by
  induction t with
  | nil => rw [List.nil_append, splitAll, if_pos rfl]
  | cons c t ih =>
      have hc : c ≠ sep := fun he => h (by simp [he])
      rw [List.cons_append, splitAll, if_neg hc, ih fun hm => h (by simp [hm])]

theorem cut?_append {sep : Char} {before : Text} (after : Text) (h : sep ∉ before) :
    cut? sep (before ++ sep :: after) = some (before, after) := by
  induction before with
  | nil => simp [cut?]
  | cons c before ih =>
      have hc : c ≠ sep := fun he => h (by simp [he])
      simp [cut?, hc, ih fun hm => h (by simp [hm])]

theorem cut?_eq {sep : Char} {t before after : Text} (h : cut? sep t = some (before, after)) :
    t = before ++ sep :: after := by
  induction t generalizing before with
  | nil => cases h
  | cons c t ih =>
      rw [cut?] at h
      split at h
      · rename_i hc
        cases h
        rw [hc]
        rfl
      · obtain ⟨⟨front, back⟩, hcut, hpair⟩ := Option.map_eq_some_iff.1 h
        cases hpair
        rw [ih hcut]
        rfl

/-- The first piece begins as the text does. -/
theorem splitAll_front {sep : Char} {front : Text} (h : sep ∉ front) (rest : Text) :
    ∃ tail more, splitAll sep (front ++ rest) = (front ++ tail) :: more := by
  by_cases hsep : sep ∈ rest
  · obtain ⟨tail, behind, rfl, htail⟩ := List.eq_append_cons_of_mem hsep
    refine ⟨tail, splitAll sep behind, ?_⟩
    rw [← List.append_assoc]
    exact splitAll_append behind (by simp [h, htail])
  · exact ⟨rest, [], splitAll_of_not_mem (by simp [h, hsep])⟩

/-- A piece is a part of the text without the character that it was cut at. -/
theorem mem_splitAll {sep : Char} {t piece : Text} (h : piece ∈ splitAll sep t) :
    piece <:+: t ∧ sep ∉ piece := by
  by_cases hsep : sep ∈ t
  · obtain ⟨front, back, rfl, hfront⟩ := List.eq_append_cons_of_mem hsep
    rw [splitAll_append back hfront] at h
    rcases List.mem_cons.1 h with rfl | h
    · exact ⟨(List.prefix_append _ _).isInfix, hfront⟩
    · obtain ⟨hpiece, hnot⟩ := mem_splitAll h
      have hback : back <:+: front ++ sep :: back :=
        ((List.suffix_cons sep back).trans (List.suffix_append front _)).isInfix
      exact ⟨hpiece.trans hback, hnot⟩
  · rw [splitAll_of_not_mem hsep, List.mem_singleton] at h
    subst h
    exact ⟨List.infix_refl _, hsep⟩
termination_by t.length

/-- Text in which `a` never stands right in front of `b`. -/
def Lacks (a b : Char) : Text → Prop
  | [] => True
  | [_] => True
  | c :: d :: rest => ¬ (c = a ∧ d = b) ∧ Lacks a b (d :: rest)

instance (a b : Char) : (t : Text) → Decidable (Lacks a b t)
  | [] => .isTrue trivial
  | [_] => .isTrue trivial
  | c :: d :: rest =>
    have := instDecidableLacks a b (d :: rest)
    inferInstanceAs (Decidable (¬ (c = a ∧ d = b) ∧ Lacks a b (d :: rest)))

theorem lacks_cons {a b c : Char} {t : Text} :
    Lacks a b (c :: t) ↔ (c = a → t.head? ≠ some b) ∧ Lacks a b t := by
  cases t with
  | nil => simp [Lacks]
  | cons d t => simp [Lacks]

theorem lacks_append {a b : Char} {s t : Text} :
    Lacks a b (s ++ t) ↔
      Lacks a b s ∧ Lacks a b t ∧ (s.getLast? = some a → t.head? ≠ some b) := by
  induction s with
  | nil => simp [Lacks]
  | cons c s ih =>
      rw [List.cons_append, lacks_cons, lacks_cons, ih]
      cases s with
      | nil => simp [Lacks]; grind
      | cons d s =>
          simp only [List.cons_append, List.head?_cons, List.getLast?_cons_cons]
          grind

theorem Lacks.of_isInfix {a b : Char} {s t : Text} (h : Lacks a b t) (hs : s <:+: t) :
    Lacks a b s := by
  obtain ⟨front, back, rfl⟩ := hs
  rw [lacks_append, lacks_append] at h
  exact h.1.2.1

/-- Text without `b` lacks every pair that ends in it. -/
theorem lacks_of_not_mem {a b : Char} {t : Text} (h : b ∉ t) : Lacks a b t := by
  induction t with
  | nil => trivial
  | cons c t ih =>
      refine lacks_cons.2 ⟨?_, ih fun hm => h (by simp [hm])⟩
      intro _ hd
      exact h (List.mem_cons_of_mem _ (List.mem_of_head? hd))

/-- So does text without the first of the two. -/
theorem lacks_of_not_mem_left {a b : Char} {t : Text} (h : a ∉ t) : Lacks a b t := by
  induction t with
  | nil => trivial
  | cons c t ih =>
      refine lacks_cons.2 ⟨?_, ih fun hm => h (by simp [hm])⟩
      rintro rfl
      exact absurd List.mem_cons_self h

/-- What does not lack the pair holds it for a first time. -/
theorem exists_first {a b : Char} {t : Text} (h : ¬ Lacks a b t) :
    ∃ front back, t = front ++ a :: b :: back ∧ Lacks a b front := by
  induction t with
  | nil => exact absurd trivial h
  | cons c t ih =>
      by_cases hc : c = a → t.head? ≠ some b
      · obtain ⟨front, back, rfl, hfront⟩ := ih fun ht => h (lacks_cons.2 ⟨hc, ht⟩)
        refine ⟨c :: front, back, rfl, lacks_cons.2 ⟨?_, hfront⟩⟩
        intro hca
        cases front with
        | nil => simp
        | cons d front => exact hc hca
      · simp only [not_forall, not_not] at hc
        obtain ⟨rfl, hb⟩ := hc
        obtain ⟨back, rfl⟩ := List.head?_eq_some_iff.1 hb
        exact ⟨[], back, rfl, trivial⟩

theorem not_lacks_pair {a b : Char} (front back : Text) :
    ¬ Lacks a b (front ++ a :: b :: back) := by
  intro h
  have hpair : Lacks a b [a, b] := h.of_isInfix ⟨front, back, by simp⟩
  exact hpair.1 ⟨rfl, rfl⟩

/-- Between two texts that lack it the pair stands nowhere else. -/
theorem Lacks.unique {a b : Char} (hab : a ≠ b) {front back front' back' : Text}
    (hfront : Lacks a b front) (hback : Lacks a b back)
    (h : front' ++ a :: b :: back' = front ++ a :: b :: back) : front' = front ∧ back' = back := by
  -- A pair further on or further back would begin inside this one or lie in `back` or in `front`.
  rcases List.append_eq_append_iff.1 h with ⟨between, hlong, hrest⟩ | ⟨between, hlong, hrest⟩
  · match between with
    | [] =>
        cases hrest
        exact ⟨by simpa using hlong.symm, rfl⟩
    | [c] =>
        cases hrest
        exact absurd rfl hab
    | c :: d :: between =>
        cases hrest
        rw [hlong] at hfront
        exact absurd hfront (not_lacks_pair front' between)
  · match between with
    | [] =>
        cases hrest
        exact ⟨by simpa using hlong, rfl⟩
    | [c] =>
        cases hrest
        exact absurd rfl hab
    | c :: d :: between =>
        cases hrest
        exact absurd hback (not_lacks_pair between back')

theorem cutAt?_of_lacks {a b : Char} {t : Text} (h : Lacks a b t) : cutAt? [a, b] t = none := by
  induction t with
  | nil => rfl
  | cons c t ih =>
      obtain ⟨hc, ht⟩ := lacks_cons.1 h
      have hpre : [a, b].isPrefixOf (c :: t) = false := by
        cases t with
        | nil => simp [List.isPrefixOf]
        | cons d t =>
            simp only [List.isPrefixOf, Bool.and_eq_false_iff, beq_eq_false_iff_ne, Bool.and_true]
            by_cases he : c = a
            · exact .inr fun hd => hc he (by simp [hd])
            · exact .inl fun ha => he ha.symm
      rw [cutAt?, hpre, ih ht]
      rfl

/-- Behind text that lacks it the pair is found where it stands, also when the text ends in the
first character of the pair. -/
theorem cutAt?_append {a b : Char} (hab : a ≠ b) {before : Text} (after : Text)
    (h : Lacks a b before) : cutAt? [a, b] (before ++ a :: b :: after) = some (before, after) := by
  induction before with
  | nil => simp [cutAt?]
  | cons c before ih =>
      obtain ⟨hc, hbefore⟩ := lacks_cons.1 h
      have hpre : [a, b].isPrefixOf (c :: (before ++ a :: b :: after)) = false := by
        cases before with
        | nil => simp [List.isPrefixOf, hab.symm]
        | cons d before =>
            simp only [List.cons_append, List.isPrefixOf, Bool.and_eq_false_iff,
              beq_eq_false_iff_ne, Bool.and_true]
            by_cases he : c = a
            · exact .inr fun hd => hc he (by simp [hd])
            · exact .inl fun ha => he ha.symm
      rw [List.cons_append, cutAt?, hpre, ih hbefore]
      rfl

/-- Text that lacks the pair and does not end in its first character stays in front of the cut. -/
theorem cutAt?_front {a b : Char} {front : Text} (rest : Text) (h : Lacks a b front)
    (hlast : front.getLast? ≠ some a) : cutAt? [a, b] (front ++ rest) =
      (cutAt? [a, b] rest).map fun (before, after) => (front ++ before, after) := by
  induction front with
  | nil => simp
  | cons c front ih =>
      obtain ⟨hc, hfront⟩ := lacks_cons.1 h
      cases front with
      | nil =>
          have hne : c ≠ a := fun he => hlast (by rw [he]; rfl)
          simp [cutAt?, List.isPrefixOf, hne.symm]
      | cons d front =>
          have hpre : [a, b].isPrefixOf (c :: (d :: front ++ rest)) = false := by
            simp only [List.cons_append, List.isPrefixOf, Bool.and_eq_false_iff,
              beq_eq_false_iff_ne, Bool.and_true]
            by_cases he : c = a
            · exact .inr fun hd => hc he (by simp [hd])
            · exact .inl fun ha => he ha.symm
          rw [List.cons_append, cutAt?, hpre, ih hfront (by simpa using hlast)]
          simp [Function.comp_def]

theorem lines_of_oneLine {t : Text} (h : OneLine t) (hne : t ≠ []) : lines t = [t] := by
  induction t with
  | nil => exact absurd rfl hne
  | cons c t ih =>
      have hc := h c (by simp)
      rw [lines.eq_4 c t hc.2 fun _ he => absurd he hc.1]
      cases t with
      | nil => rfl
      | cons d t => rw [ih (fun x hx => h x (by simp [hx])) (by simp)]

/-- A line feed ends a line that keeps it. -/
theorem linesWithEnds_append {front : Text} (h : '\n' ∉ front) (rest : Text) :
    linesWithEnds (front ++ '\n' :: rest) = (front ++ ['\n']) :: linesWithEnds rest := by
  induction front with
  | nil => rfl
  | cons c front ih =>
      have hc : c ≠ '\n' := fun he => h (by simp [he])
      rw [List.cons_append, linesWithEnds.eq_3 _ _ hc, ih fun hm => h (by simp [hm])]
      rfl

theorem linesWithEnds_of_not_mem {t : Text} (h : '\n' ∉ t) (hne : t ≠ []) :
    linesWithEnds t = [t] := by
  induction t with
  | nil => exact absurd rfl hne
  | cons c t ih =>
      have hc : c ≠ '\n' := fun he => h (by simp [he])
      rw [linesWithEnds.eq_3 _ _ hc]
      cases t with
      | nil => rfl
      | cons d t => rw [ih (fun hm => h (by simp [hm])) (by simp)]

theorem flatten_linesWithEnds (t : Text) : (linesWithEnds t).flatten = t := by
  fun_induction linesWithEnds t with
  | case1 => rfl
  | case2 rest ih => rw [List.flatten_cons, ih]; rfl
  | case3 c rest _ hlines ih =>
      rw [hlines] at ih
      rw [← ih]
      rfl
  | case4 c rest _ line more hlines ih =>
      rw [hlines] at ih
      rw [← ih]
      rfl

theorem mem_of_mem_lines {t line : Text} {c : Char} (hl : line ∈ lines t) (hc : c ∈ line) :
    c ∈ t := by
  fun_induction lines t generalizing line with
  | case1 => cases hl
  | case2 rest ih | case3 rest ih =>
      rcases List.mem_cons.1 hl with rfl | hl
      · cases hc
      · simp [ih hl hc]
  | case4 d rest _ _ hlines ih =>
      rw [List.mem_singleton.1 hl] at hc
      rw [List.mem_singleton.1 hc]
      exact List.mem_cons_self
  | case5 d rest _ _ first more hlines ih =>
      rw [hlines] at ih
      rcases List.mem_cons.1 hl with rfl | hl
      · rcases List.mem_cons.1 hc with rfl | hc
        · exact List.mem_cons_self
        · exact List.mem_cons_of_mem _ (ih List.mem_cons_self hc)
      · exact List.mem_cons_of_mem _ (ih (List.mem_cons_of_mem _ hl) hc)

end Text
end Epistle
