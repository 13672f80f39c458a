/-!
Computations that may be refused: what is known of the parts when the whole went through.
-/
namespace Epistle
namespace Checked

variable {α β ε ε' : Type}

theorem map_ok {x : Except ε α} {f : α → β} {b : β} (h : x.map f = .ok b) :
    ∃ a, x = .ok a ∧ f a = b := by
  cases x with
  | error err => cases h
  | ok a =>
      cases h
      exact ⟨a, rfl, rfl⟩

theorem mapError_ok {x : Except ε α} {f : ε → ε'} {a : α} (h : x.mapError f = .ok a) :
    x = .ok a := by
  cases x with
  | error err => cases h
  | ok a' =>
      cases h
      rfl

theorem bind_ok {x : Except ε α} {f : α → Except ε β} {b : β} (h : (x >>= f) = .ok b) :
    ∃ a, x = .ok a ∧ f a = .ok b := by
  cases x with
  | error err => cases h
  | ok a => exact ⟨a, rfl, h⟩

theorem exists_ok_iff {x : Except ε α} {f : α → β} {g : ε → ε'} :
    (∃ b, (x.map f).mapError g = .ok b) ↔ ∃ a, x = .ok a := by
  constructor
  · rintro ⟨b, h⟩
    obtain ⟨a, ha, -⟩ := map_ok (mapError_ok h)
    exact ⟨a, ha⟩
  · rintro ⟨a, rfl⟩
    exact ⟨f a, rfl⟩

theorem ok_of_isSome {x : Except ε α} (h : x.toOption.isSome = true) : ∃ a, x = .ok a := by
  cases x with
  | error err => cases h
  | ok a => exact ⟨a, rfl⟩

/-- The reason of a refusal, where that alone can be compared. -/
theorem error_of_eq {x : Except ε α} {err : ε}
    (h : (match x with | .error err => some err | .ok _ => none) = some err) :
    x = .error err := by
  cases x with
  | error err' => exact congrArg Except.error (Option.some.inj h)
  | ok a => cases h

theorem mapM_ok {f : α → Except ε β} {as : List α} {bs : List β} (h : as.mapM f = .ok bs) :
    as.map f = bs.map .ok := by
  induction as generalizing bs with
  | nil =>
      cases h
      rfl
  | cons a as ih =>
      rw [List.mapM_cons] at h
      obtain ⟨b, ha, h⟩ := bind_ok h
      obtain ⟨bs, has, h⟩ := bind_ok h
      cases h
      rw [List.map_cons, List.map_cons, ha, ih has]

theorem mem_mapM {f : α → Except ε β} {as : List α} {bs : List β} (h : as.mapM f = .ok bs)
    {b : β} (hb : b ∈ bs) : ∃ a ∈ as, f a = .ok b := by
  induction as generalizing bs with
  | nil =>
      cases h
      cases hb
  | cons a as ih =>
      rw [List.mapM_cons] at h
      obtain ⟨b', ha, h⟩ := bind_ok h
      obtain ⟨bs', has, h⟩ := bind_ok h
      cases h
      rcases List.mem_cons.1 hb with rfl | hb
      · exact ⟨a, by simp, ha⟩
      · obtain ⟨a', ha', hf⟩ := ih has hb
        exact ⟨a', by simp [ha'], hf⟩

theorem mapM_of_ok {f : α → Except ε β} {g : α → β} {as : List α} (h : ∀ a ∈ as, f a = .ok (g a)) :
    as.mapM f = .ok (as.map g) := by
  induction as with
  | nil => rfl
  | cons a as ih =>
      obtain ⟨ha, has⟩ := List.forall_mem_cons.1 h
      rw [List.mapM_cons, ha, ih has]
      rfl

theorem mapM_singleton (f : α → Except ε β) (a : α) : [a].mapM f = (f a).map fun b => [b] := by
  rw [List.mapM_cons, List.mapM_nil]
  cases f a <;> rfl

theorem exists_mapM_iff {f : α → Except ε β} {as : List α} :
    (∃ bs, as.mapM f = .ok bs) ↔ ∀ a ∈ as, ∃ b, f a = .ok b := by
  constructor
  · rintro ⟨bs, h⟩ a ha
    have hmem : f a ∈ bs.map .ok := mapM_ok h ▸ List.mem_map_of_mem ha
    obtain ⟨b, -, hb⟩ := List.mem_map.1 hmem
    exact ⟨b, hb.symm⟩
  · intro h
    induction as with
    | nil => exact ⟨[], rfl⟩
    | cons a as ih =>
        obtain ⟨b, hb⟩ := h a (by simp)
        obtain ⟨bs, hbs⟩ := ih fun a' ha' => h a' (by simp [ha'])
        refine ⟨b :: bs, ?_⟩
        rw [List.mapM_cons, hb, hbs]
        rfl

/-- Of several refusals the first is reported. -/
theorem mapM_error {f : α → Except ε β} {as : List α} {err : ε} (h : as.mapM f = .error err) :
    ∃ front a back, as = front ++ a :: back ∧ (∀ a' ∈ front, ∃ b, f a' = .ok b) ∧
      f a = .error err := by
  induction as with
  | nil => cases h
  | cons a as ih =>
      cases hb : f a with
      | error err' =>
          rw [List.mapM_cons, hb] at h
          cases h
          exact ⟨[], a, as, rfl, by simp, hb⟩
      | ok b =>
          cases hbs : as.mapM f with
          | ok bs =>
              rw [List.mapM_cons, hb, hbs] at h
              cases h
          | error err' =>
              rw [List.mapM_cons, hb, hbs] at h
              cases h
              obtain ⟨front, a', back, rfl, hfront, ha'⟩ := ih hbs
              refine ⟨a :: front, a', back, rfl, ?_, ha'⟩
              exact List.forall_mem_cons.2 ⟨⟨b, hb⟩, hfront⟩

/-- What every step of a fold keeps, the fold keeps. -/
theorem foldlM_ok {P : β → Prop} {f : β → α → Except ε β} {as : List α} {b b' : β}
    (hf : ∀ b b' a, a ∈ as → P b → f b a = .ok b' → P b') (hb : P b)
    (h : as.foldlM f b = .ok b') : P b' := by
  induction as generalizing b with
  | nil =>
      cases h
      exact hb
  | cons a as ih =>
      rw [List.foldlM_cons] at h
      obtain ⟨c, hc, h⟩ := bind_ok h
      exact ih (fun b b' a' ha' => hf b b' a' (by simp [ha'])) (hf b c a (by simp) hb hc) h

end Checked
end Epistle
