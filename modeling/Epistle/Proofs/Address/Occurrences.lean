import Epistle.Proofs.Address.Recipient
import Mathlib.Data.List.Induction

/-!
What a list of recipients holds behind any calls that add to it. Of everything that was added it
keeps, in order, those that no earlier one equals; so neither the division into calls nor adding
anyone again changes it, and no later call takes anything away.
-/
namespace Epistle

theorem Recipient.same_iff {a b : Recipient} :
    a.same b ↔ a.address = b.address ∧ a.role = b.role := by
  simp only [same, Bool.and_eq_true, beq_iff_eq]

namespace RecipientList

inductive Call where
  | insert (recipient : Recipient)
  | extend (recipients : List Recipient)

namespace Call

def added : Call → List Recipient
  | insert r => [r]
  | extend rs => rs

def perform (l : RecipientList) : Call → RecipientList
  | insert r => (l.insert r).1
  | extend rs => l.extend rs

end Call

/-- The list behind all the calls, in their order. -/
def performAll (l : RecipientList) (calls : List Call) : RecipientList :=
  calls.foldl Call.perform l

/-- The recipients that no earlier one equals in address and role. -/
def firsts (rs : List Recipient) : List Recipient :=
  (rs.zipIdx.filter fun (r, i) => !(rs.take i).any r.same).map Prod.fst

variable {l : RecipientList} {rs : List Recipient}

/-- A further recipient changes nothing of what stands in front of it. -/
theorem firsts_concat (rs : List Recipient) (r : Recipient) :
    firsts (rs ++ [r]) = if rs.any r.same then firsts rs else firsts rs ++ [r] := by
  have hfront : rs.zipIdx.filter (fun (q, i) => !((rs ++ [r]).take i).any q.same) =
      rs.zipIdx.filter fun (q, i) => !(rs.take i).any q.same := by
    apply List.filter_congr
    intro p hp
    have hlt : p.2 < rs.length := by simpa using (List.mem_zipIdx hp).2.1
    simp only [List.take_append_of_le_length (Nat.le_of_lt hlt)]
  have hlast : ((rs ++ [r]).take rs.length).any r.same = rs.any r.same := by
    simp only [List.take_left]
  simp only [firsts, List.zipIdx_append, List.filter_append, hfront, List.zipIdx_singleton,
    Nat.zero_add, List.filter_cons, List.filter_nil, hlast, List.map_append]
  cases rs.any r.same with
  | true => exact List.append_nil _
  | false => rfl

/-- Of everyone who was added some equal is among the first ones. -/
theorem any_firsts (rs : List Recipient) (r : Recipient) :
    (firsts rs).any r.same = rs.any r.same := by
  induction rs using List.reverseRecOn with
  | nil => rfl
  | append_singleton rs q ih =>
      rw [firsts_concat, List.any_append]
      split
      · rename_i hq
        -- Whoever equals the one that is left out equals the earlier one too.
        have hcover : r.same q → rs.any r.same := by
          intro hr
          obtain ⟨p, hp, hqp⟩ := List.any_eq_true.1 hq
          have hrp := (Recipient.same_iff.1 hr).imp
            (fun h => h.trans (Recipient.same_iff.1 hqp).1)
            (fun h => h.trans (Recipient.same_iff.1 hqp).2)
          exact List.any_eq_true.2 ⟨p, hp, Recipient.same_iff.2 hrp⟩
        simp only [ih, List.any_cons, List.any_nil, Bool.or_false]
        cases hr : r.same q with
        | true => simp [hcover hr]
        | false => simp
      · simp only [List.any_append, ih]

theorem insert_firsts (h : l.entries = firsts rs) (r : Recipient) :
    (l.insert r).1.entries = firsts (rs ++ [r]) ∧ (l.insert r).2 = !rs.any r.same := by
  have hcontains : l.contains r = rs.any r.same := by rw [contains, h, any_firsts]
  refine ⟨by rw [insert_entries, firsts_concat, hcontains, h], ?_⟩
  rw [insert, hcontains]
  cases rs.any r.same with
  | true => rfl
  | false => rfl

theorem extend_firsts (h : l.entries = firsts rs) (qs : List Recipient) :
    (l.extend qs).entries = firsts (rs ++ qs) := by
  induction qs generalizing l rs with
  | nil => rw [List.append_nil]; exact h
  | cons q qs ih =>
      have hrest := ih (insert_firsts h q).1
      rwa [List.append_assoc, List.singleton_append] at hrest

theorem perform_firsts (h : l.entries = firsts rs) (c : Call) :
    (c.perform l).entries = firsts (rs ++ c.added) := by
  cases c with
  | insert r => exact (insert_firsts h r).1
  | extend qs => exact extend_firsts h qs

theorem performAll_firsts (h : l.entries = firsts rs) (calls : List Call) :
    (l.performAll calls).entries = firsts (rs ++ calls.flatMap Call.added) := by
  induction calls generalizing l rs with
  | nil => rw [List.flatMap_nil, List.append_nil]; exact h
  | cons c calls ih =>
      have hrest := ih (perform_firsts h c)
      rwa [List.append_assoc, ← List.flatMap_cons] at hrest

theorem extend_of_contains (h : ∀ r ∈ rs, l.contains r) : l.extend rs = l := by
  induction rs with
  | nil => rfl
  | cons r rs ih =>
      obtain ⟨hr, hrs⟩ := List.forall_mem_cons.1 h
      have hinsert : (l.insert r).1 = l := by rw [insert, if_pos hr]
      rw [extend_cons, hinsert]
      exact ih hrs

theorem prefix_insert (l : RecipientList) (r : Recipient) :
    l.entries <+: (l.insert r).1.entries := by
  rw [insert_entries]
  split
  · exact List.prefix_refl _
  · exact List.prefix_append _ _

theorem prefix_extend (l : RecipientList) (rs : List Recipient) :
    l.entries <+: (l.extend rs).entries := by
  induction rs generalizing l with
  | nil => exact List.prefix_refl _
  | cons r rs ih => exact (prefix_insert l r).trans (ih (l.insert r).1)

theorem prefix_perform (l : RecipientList) (c : Call) : l.entries <+: (c.perform l).entries := by
  cases c with
  | insert r => exact prefix_insert l r
  | extend rs => exact prefix_extend l rs

theorem prefix_performAll (l : RecipientList) (calls : List Call) :
    l.entries <+: (l.performAll calls).entries := by
  induction calls generalizing l with
  | nil => exact List.prefix_refl _
  | cons c calls ih => exact (prefix_perform l c).trans (ih (c.perform l))

/-- A list that began empty holds the first occurrences, under their own names, of everything that
was added, however that was divided into calls. An insertion says whether it added a first one; what
is in the list stays where it is; and adding anyone again changes nothing. -/
theorem performAll_first_occurrences (calls : List Call) :
    (performAll ∅ calls).entries = firsts (calls.flatMap Call.added) ∧
    performAll ∅ calls = ofList (calls.flatMap Call.added) ∧
    (∀ r : Recipient, ((performAll ∅ calls).insert r).2 ↔
      ∀ q ∈ calls.flatMap Call.added, ¬ (q.address = r.address ∧ q.role = r.role)) ∧
    (∀ more, (performAll ∅ calls).entries <+: (performAll ∅ (calls ++ more)).entries) ∧
    ∀ rs : List Recipient,
      (∀ r ∈ rs, ∃ q ∈ calls.flatMap Call.added, q.address = r.address ∧ q.role = r.role) →
      (performAll ∅ calls).extend rs = performAll ∅ calls := by
  have hempty : (∅ : RecipientList).entries = firsts [] := rfl
  have hentries := performAll_firsts hempty calls
  have hadded : ∀ r : Recipient, (calls.flatMap Call.added).any r.same ↔
      ∃ q ∈ calls.flatMap Call.added, q.address = r.address ∧ q.role = r.role := by
    intro r
    rw [List.any_eq_true]
    exact exists_congr fun q => and_congr_right fun _ =>
      Recipient.same_iff.trans (and_congr eq_comm eq_comm)
  refine ⟨hentries, ?_, ?_, ?_, ?_⟩
  · have hcollected := extend_firsts hempty (calls.flatMap Call.added)
    exact congrArg RecipientList.mk (hentries.trans hcollected.symm)
  · intro r
    rw [(insert_firsts hentries r).2, List.nil_append, Bool.not_eq_true', ← Bool.not_eq_true,
      hadded]
    simp only [not_exists, not_and]
  · intro more
    rw [performAll, performAll, List.foldl_append]
    exact prefix_performAll _ more
  · intro rs hrs
    apply extend_of_contains
    intro r hr
    rw [contains, hentries, any_firsts]
    exact (hadded r).2 (hrs r hr)

/-- Jane under two names and in two roles, and Joe between them. -/
def invited : List Call :=
  [.insert ⟨some "Jane".toList, "jane@x.com".toList, some .direct⟩,
    .extend [⟨none, "joe@x.com".toList, some .direct⟩,
      ⟨some "Doe".toList, "jane@x.com".toList, some .direct⟩],
    .insert ⟨none, "jane@x.com".toList, some .copy⟩]

theorem performAll_first_occurrences_invited : (performAll ∅ invited).entries =
      [⟨some "Jane".toList, "jane@x.com".toList, some .direct⟩,
        ⟨none, "joe@x.com".toList, some .direct⟩, ⟨none, "jane@x.com".toList, some .copy⟩] ∧
    ((performAll ∅ invited).insert ⟨none, "jane@x.com".toList, some .blind⟩).2 ∧
    (performAll ∅ invited).extend [⟨some "Joe".toList, "joe@x.com".toList, some .direct⟩] =
      performAll ∅ invited := by
  obtain ⟨hentries, -, hinsert, -, hagain⟩ := performAll_first_occurrences invited
  exact ⟨hentries.trans (by decide), (hinsert _).2 (by decide), hagain _ (by decide)⟩

end RecipientList
end Epistle
