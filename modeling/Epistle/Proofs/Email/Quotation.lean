import Epistle.Email.Reply
import Epistle.Proofs.Text.Split

/-!
How a text and an HTML text are quoted. A template that holds the placeholder once is filled in that
place, whatever is put there, and the lines of a quoted text are the lines of the text behind marks.
-/
namespace Epistle
namespace Quotation

open Text (Lacks linesWithEnds)

variable {t front back before after : Text}

/-- The template has one place for what is quoted. -/
def Fits (template : Text) : Prop :=
  ∃! p : Text × Text, template = p.1 ++ placeholder ++ p.2

theorem placeholder_between (front back : Text) :
    front ++ placeholder ++ back = front ++ '%' :: 's' :: back := by
  rw [List.append_assoc]
  rfl

theorem countPlaceholders_of_lacks (h : Lacks '%' 's' t) : countPlaceholders t = 0 := by
  induction t with
  | nil => rfl
  | cons c t ih =>
      obtain ⟨hc, ht⟩ := Text.lacks_cons.1 h
      rw [countPlaceholders.eq_3, ih ht]
      rintro rest rfl rfl
      exact hc rfl rfl

theorem countPlaceholders_append (h : Lacks '%' 's' front) (back : Text) :
    countPlaceholders (front ++ '%' :: 's' :: back) = countPlaceholders back + 1 := by
  induction front with
  | nil => rfl
  | cons c front ih =>
      obtain ⟨hc, hfront⟩ := Text.lacks_cons.1 h
      rw [List.cons_append, countPlaceholders.eq_3, ih hfront]
      rintro rest rfl hrest
      cases front with
      | nil => cases hrest
      | cons d front =>
          cases hrest
          exact hc rfl rfl

theorem countPlaceholders_eq_one : countPlaceholders t = 1 ↔
    ∃ front back, t = front ++ '%' :: 's' :: back ∧ Lacks '%' 's' front ∧ Lacks '%' 's' back := by
  constructor
  · intro h
    have hholds : ¬ Lacks '%' 's' t := by
      intro hlacks
      rw [countPlaceholders_of_lacks hlacks] at h
      cases h
    obtain ⟨front, back, rfl, hfront⟩ := Text.exists_first hholds
    rw [countPlaceholders_append hfront] at h
    refine ⟨front, back, rfl, hfront, ?_⟩
    by_contra hback
    obtain ⟨front', back', rfl, hfront'⟩ := Text.exists_first hback
    rw [countPlaceholders_append hfront'] at h
    cases h
  · rintro ⟨front, back, rfl, hfront, hback⟩
    rw [countPlaceholders_append hfront, countPlaceholders_of_lacks hback]

theorem fits_iff : Fits t ↔ countPlaceholders t = 1 := by
  rw [countPlaceholders_eq_one]
  constructor
  · rintro ⟨p, hp, hunique⟩
    simp only [placeholder_between] at hp hunique
    have hholds : ¬ Lacks '%' 's' t := hp ▸ Text.not_lacks_pair p.1 p.2
    obtain ⟨front, back, rfl, hfront⟩ := Text.exists_first hholds
    refine ⟨front, back, rfl, hfront, ?_⟩
    by_contra hback
    obtain ⟨front', back', rfl, -⟩ := Text.exists_first hback
    -- Then there are two places, and one of them is further on.
    have hfirst := hunique (front, front' ++ '%' :: 's' :: back') rfl
    have hsecond := hunique (front ++ '%' :: 's' :: front', back') (by simp)
    have hlength := congrArg (fun q : Text × Text => q.1.length) (hfirst.trans hsecond.symm)
    simp at hlength
  · rintro ⟨front, back, rfl, hfront, hback⟩
    refine ⟨(front, back), (placeholder_between front back).symm, ?_⟩
    rintro ⟨front', back'⟩ h
    rw [placeholder_between] at h
    obtain ⟨rfl, rfl⟩ := Lacks.unique (by decide) hfront hback h.symm
    rfl

/-- Whatever is quoted stands where the placeholder stood. -/
theorem fill_eq (h : countPlaceholders (before ++ placeholder ++ after) = 1) (quoted : Text) :
    fill (before ++ placeholder ++ after) quoted = before ++ quoted ++ after := by
  rw [placeholder_between] at h ⊢
  obtain ⟨front, back, hplace, hfront, hback⟩ := countPlaceholders_eq_one.1 h
  obtain ⟨rfl, rfl⟩ := Lacks.unique (by decide) hfront hback hplace
  have hcut : Text.cutAt? placeholder (before ++ '%' :: 's' :: after) = some (before, after) :=
    Text.cutAt?_append (by decide) after hfront
  rw [fill, hcut]

/-- The lines of `q` are those of `t`, each behind a mark; without the marks they are `t`. -/
structure Quotes (t q : Text) : Prop where
  lines : linesWithEnds q = (linesWithEnds t).map ("> ".toList ++ ·)
  unmarked : (linesWithEnds q).flatMap (·.drop 2) = t

theorem linesWithEnds_markLines (t : Text) :
    linesWithEnds (markLines t) = (linesWithEnds t).map ("> ".toList ++ ·) := by
  by_cases hbreak : '\n' ∈ t
  · obtain ⟨line, rest, rfl, hline⟩ := List.eq_append_cons_of_mem hbreak
    have hmarked : markLines (line ++ '\n' :: rest) =
        ("> ".toList ++ line) ++ '\n' :: markLines rest := by
      rw [markLines, Text.linesWithEnds_append hline, List.flatMap_cons]
      simp [markLines]
    have hfront : '\n' ∉ "> ".toList ++ line := by simp [hline]
    rw [hmarked, Text.linesWithEnds_append hfront, Text.linesWithEnds_append hline,
      linesWithEnds_markLines rest, List.map_cons, List.append_assoc]
  · by_cases hne : t = []
    · subst hne
      rfl
    · have hfront : '\n' ∉ "> ".toList ++ t := by simp [hbreak]
      rw [markLines, Text.linesWithEnds_of_not_mem hbreak hne, List.flatMap_singleton,
        Text.linesWithEnds_of_not_mem hfront (by simp), List.map_singleton]
termination_by t.length

theorem quotes_markLines (t : Text) : Quotes t (markLines t) where
  lines := linesWithEnds_markLines t
  unmarked := by
    have hdrop : ∀ line : Text, ("> ".toList ++ line).drop 2 = line := fun _ => rfl
    rw [linesWithEnds_markLines, List.flatMap_map]
    simp only [hdrop]
    rw [List.flatMap_id', Text.flatten_linesWithEnds]

end Quotation
end Epistle
