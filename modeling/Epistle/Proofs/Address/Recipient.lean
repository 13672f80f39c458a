import Epistle.Address.Recipient
import Epistle.Proofs.Text.Class

/-!
What a recipient that was made keeps for good, and what a list of recipients keeps however it
grows: its entries stay distinct in address and role, and only what was added is in it.
-/
namespace Epistle
namespace Recipient

/-- A recipient whose address and name can stand in a field. -/
structure Valid (r : Recipient) : Prop where
  address_ne : r.address ≠ []
  address_trimmed : Text.trim r.address = r.address
  address_control : Text.hasControl r.address = false
  name_ne : r.name ≠ some []
  name_control : ∀ n, r.name = some n → Text.hasControl n = false

/-- A recipient that comes out of `make`. -/
def Made (r : Recipient) : Prop := ∃ name address role, make name address role = .ok r

theorem make_ok {name : Option Text} {address : Text} {role : Option Role} {r : Recipient}
    (h : make name address role = .ok r) :
    Text.trim address ≠ [] ∧ Text.hasControl (Text.trim address) = false ∧
      name.any Text.hasControl = false ∧
      r = ⟨name.filter (· ≠ []), Text.trim address, role⟩ := by
  simp only [make] at h
  split at h
  · cases h
  · split at h
    · cases h
    · split at h
      · cases h
      · rename_i hne hcontrol hname
        cases h
        exact ⟨hne, by simpa using hcontrol, by simpa using hname, rfl⟩

theorem make_valid {name : Option Text} {address : Text} {role : Option Role} {r : Recipient}
    (h : make name address role = .ok r) : r.Valid := by
  obtain ⟨hne, hcontrol, hname, rfl⟩ := make_ok h
  refine ⟨hne, Text.trim_trim _, hcontrol, ?_, ?_⟩
  · cases name with
    | none => simp
    | some n => by_cases hn : n = [] <;> simp [hn]
  · intro n hn
    cases name with
    | none => cases hn
    | some m =>
        simp only [Option.filter_eq_some_iff] at hn
        rw [← Option.some.inj hn.1]
        simpa using hname

theorem make_role {name : Option Text} {address : Text} {role : Option Role} {r : Recipient}
    (h : make name address role = .ok r) : r.role = role := by
  obtain ⟨-, -, -, rfl⟩ := make_ok h
  rfl

theorem Made.valid {r : Recipient} (h : r.Made) : r.Valid := by
  obtain ⟨name, address, role, h⟩ := h
  exact make_valid h

theorem Valid.withRole {r : Recipient} (h : r.Valid) (role : Option Role) :
    (r.withRole role).Valid :=
  ⟨h.address_ne, h.address_trimmed, h.address_control, h.name_ne, h.name_control⟩

theorem Valid.filter_name {r : Recipient} (h : r.Valid) : r.name.filter (· ≠ []) = r.name := by
  cases hn : r.name with
  | none => rfl
  | some n =>
      have hne : n ≠ [] := fun hnil => h.name_ne (hnil ▸ hn)
      simp [hne]

/-- Making a valid recipient again changes nothing but its role. -/
theorem Valid.make_self {r : Recipient} (h : r.Valid) (role : Option Role) :
    make r.name r.address role = .ok (r.withRole role) := by
  have hcontrol : r.name.any Text.hasControl = false := by
    cases hn : r.name with
    | none => rfl
    | some n => exact h.name_control n hn
  simp only [make, h.address_trimmed, if_neg h.address_ne, h.address_control, hcontrol,
    h.filter_name]
  rfl

end Recipient

namespace RecipientList

/-- No two entries agree in address and role. -/
def Distinct (l : RecipientList) : Prop := l.entries.Pairwise fun a b => a.same b = false

theorem insert_entries (l : RecipientList) (r : Recipient) :
    (l.insert r).1.entries = if l.contains r then l.entries else l.entries ++ [r] := by
  simp only [insert]
  split <;> rfl

theorem contains_eq_false {l : RecipientList} {r : Recipient} :
    l.contains r = false ↔ ∀ a ∈ l.entries, a.same r = false := by
  simp only [contains, List.any_eq_false, Bool.not_eq_true, Recipient.same, Bool.and_eq_false_iff,
    beq_eq_false_iff_ne]
  constructor
  · intro h a ha
    exact (h a ha).imp Ne.symm Ne.symm
  · intro h a ha
    exact (h a ha).imp Ne.symm Ne.symm

theorem Distinct.insert {l : RecipientList} (h : l.Distinct) (r : Recipient) :
    (l.insert r).1.Distinct := by
  rw [Distinct, insert_entries]
  split
  · exact h
  · rename_i hc
    rw [List.pairwise_append]
    refine ⟨h, List.pairwise_singleton _ _, ?_⟩
    intro a ha b hb
    rw [List.mem_singleton.1 hb]
    exact contains_eq_false.1 (by simpa using hc) a ha

theorem extend_cons (l : RecipientList) (r : Recipient) (rs : List Recipient) :
    l.extend (r :: rs) = (l.insert r).1.extend rs := rfl

theorem Distinct.extend {l : RecipientList} (h : l.Distinct) (rs : List Recipient) :
    (l.extend rs).Distinct := by
  induction rs generalizing l with
  | nil => exact h
  | cons r rs ih => exact ih (h.insert r)

theorem mem_insert {l : RecipientList} {r a : Recipient} (h : a ∈ (l.insert r).1.entries) :
    a ∈ l.entries ∨ a = r := by
  rw [insert_entries] at h
  split at h
  · exact .inl h
  · simpa using h

theorem mem_extend {l : RecipientList} {rs : List Recipient} {a : Recipient}
    (h : a ∈ (l.extend rs).entries) : a ∈ l.entries ∨ a ∈ rs := by
  induction rs generalizing l with
  | nil => exact .inl h
  | cons r rs ih =>
      rcases ih h with h | h
      · rcases mem_insert h with h | h
        · exact .inl h
        · exact .inr (by simp [h])
      · exact .inr (by simp [h])

/-- Recipients that are new and differ from each other are all added at the end. -/
theorem extend_entries {l : RecipientList} {rs : List Recipient}
    (h : (l.entries ++ rs).Pairwise fun a b => a.same b = false) :
    (l.extend rs).entries = l.entries ++ rs := by
  induction rs generalizing l with
  | nil => simp [extend]
  | cons r rs ih =>
      have hnew : l.contains r = false := by
        rw [contains_eq_false]
        intro a ha
        exact (List.pairwise_append.1 h).2.2 a ha r (by simp)
      have hentries : (l.insert r).1.entries = l.entries ++ [r] := by
        rw [insert_entries, hnew]
        rfl
      have hrest := ih (l := (l.insert r).1) (by simpa [hentries] using h)
      rw [extend_cons, hrest, hentries]
      simp

end RecipientList
end Epistle
