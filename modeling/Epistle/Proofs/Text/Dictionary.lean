import Epistle.Text.Dictionary

/-!
Dictionaries keep their entries in strictly ascending order of names, so each name is there once;
setting a name changes no other entry, and a sorted list of entries is its own dictionary.
-/
namespace Epistle
namespace Dictionary

def Sorted (d : Dictionary) : Prop := d.Pairwise fun a b => a.1 < b.1

theorem mem_set {d : Dictionary} {name value : Text} {p : Text × Text} (h : p ∈ d.set name value) :
    p = (name, value) ∨ p ∈ d := by
  induction d with
  | nil => exact .inl (List.mem_singleton.1 h)
  | cons q d ih =>
      obtain ⟨n, v⟩ := q
      simp only [set] at h
      split at h
      · rcases List.mem_cons.1 h with h | h
        · exact .inl h
        · exact .inr (by simp [h])
      · split at h
        · rcases List.mem_cons.1 h with h | h
          · exact .inl h
          · exact .inr h
        · rcases List.mem_cons.1 h with h | h
          · exact .inr (by simp [h])
          · rcases ih h with h | h
            · exact .inl h
            · exact .inr (by simp [h])

theorem lt_of_not_lt {a b : Text} (h : ¬ a < b) (hne : b ≠ a) : b < a := by
  rcases List.le_iff_lt_or_eq.1 (List.not_lt.1 h) with h | h
  · exact h
  · exact absurd h hne

theorem Sorted.set {d : Dictionary} (h : d.Sorted) (name value : Text) :
    (d.set name value).Sorted := by
  induction d with
  | nil => exact List.pairwise_singleton _ _
  | cons q d ih =>
      obtain ⟨n, v⟩ := q
      obtain ⟨hq, hd⟩ := List.pairwise_cons.1 h
      simp only [Dictionary.set]
      split
      · rename_i hn
        subst hn
        exact List.pairwise_cons.2 ⟨hq, hd⟩
      · split
        · rename_i hlt
          refine List.pairwise_cons.2 ⟨?_, h⟩
          intro p hp
          rcases List.mem_cons.1 hp with rfl | hp
          · exact hlt
          · exact List.lt_trans hlt (hq p hp)
        · rename_i hne hlt
          refine List.pairwise_cons.2 ⟨?_, ih hd⟩
          intro p hp
          rcases mem_set hp with rfl | hp
          · exact lt_of_not_lt hlt hne
          · exact hq p hp

theorem setAll_cons (d : Dictionary) (p : Text × Text) (entries : List (Text × Text)) :
    d.setAll (p :: entries) = (d.set p.1 p.2).setAll entries := rfl

theorem Sorted.setAll {d : Dictionary} (h : d.Sorted) (entries : List (Text × Text)) :
    (d.setAll entries).Sorted := by
  induction entries generalizing d with
  | nil => exact h
  | cons p entries ih => exact ih (h.set p.1 p.2)

theorem mem_setAll {d : Dictionary} {entries : List (Text × Text)} {p : Text × Text}
    (h : p ∈ d.setAll entries) : p ∈ entries ∨ p ∈ d := by
  induction entries generalizing d with
  | nil => exact .inr h
  | cons q entries ih =>
      rcases ih h with h | h
      · exact .inl (by simp [h])
      · rcases mem_set h with rfl | h
        · exact .inl (by simp)
        · exact .inr h

/-- A name behind all others is added at the end. -/
theorem set_last {d : Dictionary} {name value : Text} (h : ∀ p ∈ d, p.1 < name) :
    d.set name value = d ++ [(name, value)] := by
  induction d with
  | nil => rfl
  | cons q d ih =>
      obtain ⟨n, v⟩ := q
      have hn : n < name := h (n, v) (by simp)
      have hne : n ≠ name := by
        rintro rfl
        exact List.lt_irrefl n hn
      have hlt : ¬ name < n := fun hlt => List.lt_asymm hn hlt
      rw [Dictionary.set, if_neg hne, if_neg hlt, ih fun p hp => h p (by simp [hp])]
      rfl

theorem setAll_sorted {d entries : Dictionary} (h : (d ++ entries).Pairwise fun a b => a.1 < b.1) :
    d.setAll entries = d ++ entries := by
  induction entries generalizing d with
  | nil => simp [setAll]
  | cons p entries ih =>
      have hlast : d.set p.1 p.2 = d ++ [p] := by
        apply set_last
        intro q hq
        exact (List.pairwise_append.1 h).2.2 q hq p (by simp)
      rw [setAll_cons, hlast, ih (by simpa using h)]
      simp

theorem setAll_append (d : Dictionary) (front back : List (Text × Text)) :
    d.setAll (front ++ back) = (d.setAll front).setAll back := List.foldl_append

theorem get?_cons (p : Text × Text) (d : Dictionary) (name : Text) :
    get? (p :: d) name = if name = p.1 then some p.2 else d.get? name := by
  rw [get?, List.lookup_cons]
  cases h : name == p.1 with
  | true => rw [if_pos (eq_of_beq h)]
  | false => rw [if_neg (beq_eq_false_iff_ne.1 h)]; rfl

/-- Setting a name changes what is found under it and nothing else. -/
theorem get?_set (d : Dictionary) (name value target : Text) :
    (d.set name value).get? target = if target = name then some value else d.get? target := by
  induction d with
  | nil => exact get?_cons _ _ _
  | cons p d ih =>
      obtain ⟨n, v⟩ := p
      rw [set]
      split
      · rename_i hn
        subst hn
        rw [get?_cons, get?_cons]
        split <;> rfl
      · rename_i hne
        split
        · rw [get?_cons]
        · rw [get?_cons, get?_cons, ih]
          split
          · rename_i ht
            rw [ht, if_neg hne]
          · rfl

/-- Of all the values that were set under a name the last is found. -/
theorem get?_setAll (d : Dictionary) (entries : List (Text × Text)) (target : Text) :
    (d.setAll entries).get? target = (entries.reverse.lookup target).or (d.get? target) := by
  induction entries generalizing d with
  | nil => rfl
  | cons p entries ih =>
      have hlast : [p].lookup target = if target = p.1 then some p.2 else none :=
        get?_cons p [] target
      rw [setAll_cons, ih, get?_set, List.reverse_cons, List.lookup_append, Option.or_assoc, hlast]
      congr 1
      split <;> rfl

/-- Removing a name changes nothing that is found under another. -/
theorem get?_remove {name target : Text} (h : target ≠ name) (d : Dictionary) :
    (d.remove name).get? target = d.get? target := by
  induction d with
  | nil => rfl
  | cons p d ih =>
      rw [remove, List.filter_cons]
      split
      · rw [get?_cons, get?_cons]
        exact congrArg _ ih
      · rename_i hp
        have hname : p.1 = name := by simpa using hp
        rw [get?_cons, hname, if_neg h]
        exact ih

theorem mem_of_get? {d : Dictionary} {name value : Text} (h : d.get? name = some value) :
    (name, value) ∈ d := by
  induction d with
  | nil => cases h
  | cons p d ih =>
      rw [get?_cons] at h
      split at h
      · rename_i hn
        rw [hn, ← Option.some.inj h]
        exact List.mem_cons_self
      · exact List.mem_cons_of_mem _ (ih h)

/-- What a dictionary has under a name counts before what it is put into. -/
theorem Sorted.get?_setAll {entries : Dictionary} (h : entries.Sorted) (d : Dictionary)
    (name : Text) : (d.setAll entries).get? name = (entries.get? name).or (d.get? name) := by
  induction entries generalizing d with
  | nil => rfl
  | cons p entries ih =>
      obtain ⟨hp, hentries⟩ := List.pairwise_cons.1 h
      rw [setAll_cons, ih hentries, get?_set, get?_cons]
      by_cases hname : name = p.1
      · subst hname
        have hnone : get? entries p.1 = none := by
          rw [Option.eq_none_iff_forall_ne_some]
          exact fun v hv => List.lt_irrefl p.1 (hp (p.1, v) (mem_of_get? hv))
        rw [if_pos rfl, if_pos rfl, hnone]
        rfl
      · rw [if_neg hname, if_neg hname]

/-- Of the entries with a property the one with the least name is found. -/
theorem Sorted.find?_least {d : Dictionary} (h : d.Sorted) {P : Text × Text → Bool}
    {p : Text × Text} (hm : p ∈ d) (hp : P p) (hleast : ∀ q ∈ d, P q → ¬ q.1 < p.1) :
    d.find? P = some p := by
  induction d with
  | nil => cases hm
  | cons q d ih =>
      obtain ⟨hq, hd⟩ := List.pairwise_cons.1 h
      rcases List.mem_cons.1 hm with rfl | hm
      · exact List.find?_cons_of_pos hp
      · -- Whatever stands in front has a smaller name, and so not the property.
        have hother : ¬ P q = true := fun hp => hleast q List.mem_cons_self hp (hq _ hm)
        rw [List.find?_cons_of_neg hother]
        exact ih hd hm fun r hr => hleast r (List.mem_cons_of_mem _ hr)

end Dictionary
end Epistle
