import Epistle.Proofs.Address.Entries

/-!
Splitting loses nothing and is stable. A list is one entry up to its first separator that counts,
and behind that separator it is a list again; what holds of the entries of a list is proved along
these two cases. The entries are all of the list but blanks and separators, and from the entries,
with commas between them, they come again.
-/
namespace Epistle
namespace Entries

variable {s : Scan} {t x y : Text} {c : Char} {es fs : List Text}

/-- Either no separator of a text counts, or there is a first one that does. -/
theorem exists_divide (s : Scan) (t : Text) : s.Covers t ∨ ∃ front c rest,
    t = front ++ c :: rest ∧ s.Covers front ∧ isSeparator c ∧ (s.run front).outside := by
  induction t generalizing s with
  | nil => exact .inl trivial
  | cons d t ih =>
      by_cases hd : isSeparator d ∧ s.outside
      · exact .inr ⟨[], d, t, rfl, trivial, hd.1, hd.2⟩
      · rcases ih (s.step d) with hrest | ⟨front, c, rest, rfl, hfront, hc, hout⟩
        · exact .inl ⟨hd, hrest⟩
        · exact .inr ⟨d :: front, c, rest, rfl, ⟨hd, hfront⟩, hc, hout⟩

/-- A list is read up to its first separator that counts, and then anew. -/
theorem divide_induction {motive : Text → Prop}
    (covered : ∀ x, Scan.init.Covers x → motive x)
    (divided : ∀ x c y, Scan.init.Covers x → isSeparator c → (Scan.init.run x).outside →
      motive y → motive (x ++ c :: y))
    (x : Text) : motive x := by
  rcases exists_divide Scan.init x with hcovers | ⟨front, c, rest, hx, hfront, hc, hout⟩
  · exact covered x hcovers
  · have hrest : motive rest := divide_induction covered divided rest
    rw [hx]
    exact divided front c rest hfront hc hout hrest
termination_by x.length
decreasing_by
  rw [hx, List.length_append, List.length_cons]
  omega

def isGap (c : Char) : Bool := Text.isBlank c || isSeparator c

/-- The entries stand in the text one behind the other, with nothing but gaps around them. -/
inductive Among : List Text → Text → Prop
  | nil {gap : Text} : (∀ c ∈ gap, isGap c) → Among [] gap
  | cons {gap e rest : Text} {es : List Text} : (∀ c ∈ gap, isGap c) → Among es rest →
      Among (e :: es) (gap ++ e ++ rest)

namespace Among

theorem gap {front : Text} (hfront : ∀ c ∈ front, isGap c) (h : Among es x) :
    Among es (front ++ x) := by
  cases h with
  | nil hgap => exact .nil (List.forall_mem_append.2 ⟨hfront, hgap⟩)
  | cons hgap hrest =>
      rw [← List.append_assoc, ← List.append_assoc]
      exact .cons (List.forall_mem_append.2 ⟨hfront, hgap⟩) hrest

theorem append (hx : Among es x) (hy : Among fs y) : Among (es ++ fs) (x ++ y) := by
  induction hx with
  | nil hgap => exact hy.gap hgap
  | cons hgap _ ih =>
      rw [List.append_assoc]
      exact .cons hgap ih

theorem trim (t : Text) : Among ([Text.trim t].filter (· ≠ [])) t := by
  obtain ⟨front, back, ht, hfront, hback⟩ := Text.exists_trim t
  have hblank : ∀ {gap : Text}, Text.allBlank gap → ∀ c ∈ gap, isGap c := by
    intro gap hgap c hc
    simp [isGap, List.all_eq_true.1 hgap c hc]
  by_cases hne : Text.trim t = []
  · have hnone : [Text.trim t].filter (· ≠ []) = [] := by simp [hne]
    rw [hne, List.append_nil] at ht
    rw [hnone, ht]
    exact .nil (List.forall_mem_append.2 ⟨hblank hfront, hblank hback⟩)
  · have hone : [Text.trim t].filter (· ≠ []) = [Text.trim t] := by simp [hne]
    have hentry : Among [Text.trim t] (front ++ Text.trim t ++ back) :=
      .cons (hblank hfront) (.nil (hblank hback))
    rw [← ht] at hentry
    rwa [hone]

end Among

theorem among_split (x : Text) : Among (split x) x := by
  induction x using divide_induction with
  | covered x hx =>
      rw [split_covers hx]
      exact Among.trim x
  | divided x c y hx hc hout ih =>
      have hgap : ∀ d ∈ [c], isGap d := by
        intro d hd
        rw [List.mem_singleton.1 hd]
        simp [isGap, hc]
      rw [split_divide hc hout, split_covers hx]
      exact (Among.trim x).append (ih.gap hgap)

namespace Scan

theorem outside_calm (ht : ∀ c ∈ t, isCalm c) : (s.run t).outside = s.outside := by
  induction t generalizing s with
  | nil => rfl
  | cons c t ih =>
      obtain ⟨hc, ht⟩ := List.forall_mem_cons.1 ht
      obtain ⟨hquote, hopen, hclose, -⟩ := isCalm_iff.1 hc
      have hstep : (s.step c).outside = s.outside := by
        simp [step, outside, hquote, hopen, hclose]
      rw [← hstep]
      exact ih ht

theorem outside_trim (t : Text) : (init.run (Text.trim t)).outside = (init.run t).outside := by
  obtain ⟨front, back, ht, hfront, hback⟩ := Text.exists_trim t
  have hcalm : ∀ {gap : Text}, Text.allBlank gap → ∀ c ∈ gap, isCalm c :=
    fun hgap c hc => isCalm_of_isBlank (List.all_eq_true.1 hgap c hc)
  have hrun : init.run t = (init.run (Text.trim t)).run back := by
    conv => lhs; rw [ht]
    rw [run_append, run_append, (covers_calm (hcalm hfront) rfl).2]
  rw [hrun, outside_calm (hcalm hback)]

end Scan

/-- Only the last entry can end within quotes or brackets. -/
theorem outside_of_mem_dropLast (x : Text) :
    ∀ e ∈ (split x).dropLast, (Scan.init.run e).outside := by
  induction x using divide_induction with
  | covered x hx =>
      rw [split_covers hx]
      by_cases hne : Text.trim x = [] <;> simp [hne]
  | divided x c y hx hc hout ih =>
      have hfirst : ∀ e ∈ split x, (Scan.init.run e).outside := by
        rw [split_covers hx]
        intro e he
        rw [List.mem_singleton.1 (List.mem_filter.1 he).1, Scan.outside_trim]
        exact hout
      rw [split_divide hc hout]
      cases hy : split y with
      | nil =>
          rw [List.append_nil]
          exact fun e he => hfirst e ((List.dropLast_sublist _).subset he)
      | cons f fs =>
          rw [hy] at ih
          rw [List.dropLast_append_of_ne_nil (List.cons_ne_nil f fs)]
          exact List.forall_mem_append.2 ⟨hfirst, ih⟩

/-- Splitting loses nothing but blanks and separators and does not depend on what else stands in the
list: entries are split into themselves, alone and joined again, and lists into the entries of both
sides of a separator that stands outside quotes and brackets. -/
theorem split_lossless (x : Text) :
    (∀ e ∈ split x, e ≠ [] ∧ Text.trim e = e) ∧ Among (split x) x ∧
      (∀ e ∈ split x, split e = [e]) ∧
      split (Text.joinWith ", ".toList (split x)) = split x ∧
      (Scan.init.Covers x → split x = [Text.trim x].filter (· ≠ [])) ∧
      ((Scan.init.run x).outside →
        ∀ c y, isSeparator c → split (x ++ c :: y) = split x ++ split y) := by
  have hself : ∀ e ∈ split x, split e = [e] := fun e he => split_of_mem_split he
  refine ⟨?_, among_split x, hself, ?_, split_covers, ?_⟩
  · intro e he
    exact ⟨(trim_of_mem_split he).2, (trim_of_mem_split he).1⟩
  · exact split_join hself (outside_of_mem_dropLast x)
  · exact fun hout c y hc => split_divide hc hout y

/-- Separators in quotes, behind an escaped quote and in brackets, and two that divide nothing. -/
def seated : Text :=
  " \"Doe, Jane\" <jane@x.com> ;, <odd,part@x.com>; \"a \\\" , b\" <a@x.com> ".toList

/-- The last entry opens quotes that are never closed. -/
def standing : Text := "joe@x.com ; \"open, <never; closed".toList

theorem split_lossless_seated :
    split seated = ["\"Doe, Jane\" <jane@x.com>".toList, "<odd,part@x.com>".toList,
      "\"a \\\" , b\" <a@x.com>".toList] ∧
    Among (split seated) seated ∧ (∀ e ∈ split seated, split e = [e]) ∧
    split (Text.joinWith ", ".toList (split seated)) = split seated ∧
    (Scan.init.run seated).outside ∧
    split (seated ++ ';' :: standing) = split seated ++ split standing ∧
    split standing = ["joe@x.com".toList, "\"open, <never; closed".toList] ∧
    split (Text.joinWith ", ".toList (split standing)) = split standing := by
  obtain ⟨-, hamong, hself, hjoin, -, hdivide⟩ := split_lossless seated
  obtain ⟨-, -, -, hstanding, -⟩ := split_lossless standing
  have hout : (Scan.init.run seated).outside := by decide
  exact ⟨by decide, hamong, hself, hjoin, hout, hdivide hout ';' standing (by decide), by decide,
    hstanding⟩

end Entries
end Epistle
