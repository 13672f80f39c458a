import Epistle.Proofs.Email.Conservation

/-!
When a message cannot be read as a letter. Apart from octets that are no message at all, only a leaf
can be the reason: the first whose transfer encoding cannot be undone, or that has content of a type
that no resource may have. What the fields say is never one.
-/
namespace Epistle

namespace Leaf

variable [Charsets] {l : Leaf}

def Undecodable (l : Leaf) : Prop := ∃ err, l.data = .error err

/-- There is content, under a type that no resource may have. -/
def Mistyped (l : Leaf) : Prop :=
  ∃ data, l.data = .ok data ∧ data ≠ [] ∧
    (Text.allBlank l.typeName = true ∨ Text.hasControl l.typeName = true)

theorem fault?_eq_malformed {err : ParseError} :
    l.fault? = some (.malformed err) ↔ l.data = .error err := by
  rw [fault?]
  cases l.data with
  | error err' => simp
  | ok data =>
      dsimp only
      split
      · simp
      · split
        · simp
        · split <;> simp

theorem fault?_eq_unusable : (∃ r, l.fault? = some (.unusable r)) ↔ l.Mistyped := by
  rw [fault?, Mistyped]
  cases l.data with
  | error err => simp
  | ok data =>
      dsimp only
      by_cases hnil : data = []
      · simp [hnil]
      · by_cases hblank : Text.allBlank l.typeName = true
        · simp [hnil, hblank]
        · by_cases hcontrol : Text.hasControl l.typeName = true
          · simp [hnil, hblank, hcontrol]
          · simp [hblank, hcontrol]

theorem fault?_ne_noFields : l.fault? ≠ some .noFields := by
  rw [fault?]
  cases l.data with
  | error err => simp
  | ok data =>
      dsimp only
      split
      · simp
      · split
        · simp
        · split <;> simp

/-- A leaf of such a type has no place, so it is to be kept. -/
theorem Mistyped.use (h : l.Mistyped) (before : List Leaf) :
    l.use before = .image ∨ l.use before = .attachment := by
  obtain ⟨data, hdata, hne, htype⟩ := h
  have hcontent : l.content ≠ [] := by
    rw [content, hdata]
    exact hne
  have hplace : l.place? = none := by
    cases hp : l.place? with
    | none => rfl
    | some p =>
        rw [(Email.place?_eq_some.1 hp).2] at htype
        cases p <;> exact absurd htype (by decide)
  rw [Leaf.use, hplace]
  dsimp only
  rw [keep, if_neg hcontent]
  split
  · exact .inl rfl
  · exact .inr rfl

end Leaf

namespace Email

section

variable [Charsets]

/-- Reading takes the leaves `front` and fails on `l`, which stands behind them. -/
structure FailsOn (entity : Entity) (front : List Leaf) (l : Leaf) : Prop where
  stands : ∃ back, entity.leaves = front ++ l :: back
  fails : ∃ e state err, readFields entity.fields ∅ = .ok e ∧
    front.foldlM readLeaf (e, Slots.empty) = .ok state ∧ readLeaf state l = .error err

variable {entity : Entity} {front : List Leaf} {l : Leaf} {err : ReadError}

theorem readLeaves_ok {ls : List Leaf} {state : Email × Slots} :
    (∃ next, ls.foldlM readLeaf state = .ok next) ↔ ∀ l ∈ ls, l.fault? = none := by
  rw [readLeaves_eq, ← List.findSome?_eq_none_iff]
  cases ls.findSome? Leaf.fault? with
  | none => simp
  | some err => simp

theorem readLeaf_error {state : Email × Slots} :
    readLeaf state l = .error err ↔ l.fault? = some err := by
  rw [readLeaf_eq]
  cases l.fault? with
  | none => simp
  | some err' => simp

/-- What is wrong with a leaf does not depend on the letter or on the leaves in front of it. -/
theorem failsOn_iff : FailsOn entity front l ↔ (∃ back, entity.leaves = front ++ l :: back) ∧
    (∀ x ∈ front, x.fault? = none) ∧ ∃ err, l.fault? = some err := by
  constructor
  · rintro ⟨hstands, e, state, err, -, hfront, herr⟩
    exact ⟨hstands, readLeaves_ok.1 ⟨state, hfront⟩, err, readLeaf_error.1 herr⟩
  · rintro ⟨hstands, hfront, err, herr⟩
    obtain ⟨state, hstate⟩ := readLeaves_ok.2 hfront
    exact ⟨hstands, _, state, err, readFields_eq entity.fields ∅, hstate, readLeaf_error.2 herr⟩

/-- A letter fails for the fault of the first leaf that has one. -/
theorem ofEntity_eq_error : ofEntity entity = .error err ↔
    ∃ front l, FailsOn entity front l ∧ l.fault? = some err := by
  have hfirst : entity.leaves.findSome? Leaf.fault? = some err ↔
      ∃ front l, FailsOn entity front l ∧ l.fault? = some err := by
    rw [List.findSome?_eq_some_iff]
    constructor
    · rintro ⟨front, l, back, hstands, herr, hfront⟩
      exact ⟨front, l, failsOn_iff.2 ⟨⟨back, hstands⟩, hfront, err, herr⟩, herr⟩
    · rintro ⟨front, l, hfails, herr⟩
      obtain ⟨⟨back, hstands⟩, hfront, -⟩ := failsOn_iff.1 hfails
      exact ⟨front, l, back, hstands, herr, hfront⟩
  rw [← hfirst]
  cases hfault : entity.leaves.findSome? Leaf.fault? with
  | none => simp [ofEntity_ok hfault]
  | some err' => simp [ofEntity_error hfault]

theorem ofMessage_eq_error {m : Message} : ofMessage m = .error err ↔
    (∃ cause, Entity.read false m.octets = .error cause ∧ err = .malformed cause) ∨
    ∃ entity front l, Entity.read false m.octets = .ok entity ∧ FailsOn entity front l ∧
      l.fault? = some err := by
  rw [ofMessage]
  cases hread : Entity.read false m.octets with
  | error cause => simp [eq_comm]
  | ok entity => simp [ofEntity_eq_error]

theorem ofMessage_unusable {m : Message} : (∃ r, ofMessage m = .error (.unusable r)) ↔
    ∃ entity front l, Entity.read false m.octets = .ok entity ∧ FailsOn entity front l ∧
      l.Mistyped ∧ (l.use front = .image ∨ l.use front = .attachment) := by
  constructor
  · rintro ⟨r, h⟩
    rcases ofMessage_eq_error.1 h with ⟨cause, -, ⟨⟩⟩ | ⟨entity, front, l, hread, hfails, herr⟩
    have hmistyped := Leaf.fault?_eq_unusable.1 ⟨r, herr⟩
    exact ⟨entity, front, l, hread, hfails, hmistyped, hmistyped.use front⟩
  · rintro ⟨entity, front, l, hread, hfails, hmistyped, -⟩
    obtain ⟨r, herr⟩ := Leaf.fault?_eq_unusable.2 hmistyped
    exact ⟨r, ofMessage_eq_error.2 (.inr ⟨entity, front, l, hread, hfails, herr⟩)⟩

theorem ofMessage_malformed {m : Message} : (∃ cause, ofMessage m = .error (.malformed cause)) ↔
    (∃ cause, Entity.read false m.octets = .error cause) ∨ ∃ entity front l,
      Entity.read false m.octets = .ok entity ∧ FailsOn entity front l ∧ l.Undecodable := by
  constructor
  · rintro ⟨cause, h⟩
    rcases ofMessage_eq_error.1 h with ⟨cause', hread, -⟩ | ⟨entity, front, l, hread, hfails, herr⟩
    · exact .inl ⟨cause', hread⟩
    · exact .inr ⟨entity, front, l, hread, hfails, cause, Leaf.fault?_eq_malformed.1 herr⟩
  · rintro (⟨cause, hread⟩ | ⟨entity, front, l, hread, hfails, cause, hdata⟩)
    · exact ⟨cause, ofMessage_eq_error.2 (.inl ⟨cause, hread, rfl⟩)⟩
    · have herr := Leaf.fault?_eq_malformed.2 hdata
      exact ⟨cause, ofMessage_eq_error.2 (.inr ⟨entity, front, l, hread, hfails, herr⟩)⟩

theorem ofMessage_ne_noFields {m : Message} : ofMessage m ≠ .error .noFields := by
  intro h
  rcases ofMessage_eq_error.1 h with ⟨cause, -, ⟨⟩⟩ | ⟨entity, front, l, -, -, herr⟩
  exact Leaf.fault?_ne_noFields herr

/-- A message that can be taken apart is refused as a letter only for the first of its leaves that
is undecodable or mistyped. Fields of any content are taken, and any identifier of a leaf. -/
theorem ofMessage_lenient (m : Message) :
    ((∃ r, ofMessage m = .error (.unusable r)) ↔ ∃ entity front l,
      Entity.read false m.octets = .ok entity ∧ FailsOn entity front l ∧ l.Mistyped ∧
        (l.use front = .image ∨ l.use front = .attachment)) ∧
    ((∃ cause, ofMessage m = .error (.malformed cause)) ↔
      (∃ cause, Entity.read false m.octets = .error cause) ∨ ∃ entity front l,
        Entity.read false m.octets = .ok entity ∧ FailsOn entity front l ∧ l.Undecodable) ∧
    ((∃ e, ofMessage m = .ok e) ∨ (∃ r, ofMessage m = .error (.unusable r)) ∨
      ∃ cause, ofMessage m = .error (.malformed cause)) ∧
    (∀ fs e, (∀ role, ∃ e', readRecipients fs role e = .ok e') ∧
      (∃ e', readSubject fs e = .ok e') ∧ (∀ f, ∃ e', readHeader e f = .ok e') ∧
      ∃ e', readFields fs e = .ok e') ∧
    ∀ (l : Leaf) (id : Text) (source : DataSource) (e : Email), l.contentId? = some id →
      ∃ e', orUnusable (e.embedSource (some id) source) = .ok e' := by
  refine ⟨ofMessage_unusable, ofMessage_malformed, ?_, ?_, ?_⟩
  · cases hm : ofMessage m with
    | ok e => exact .inl ⟨e, rfl⟩
    | error err =>
        cases err with
        | unusable r => exact .inr (.inl ⟨r, rfl⟩)
        | malformed cause => exact .inr (.inr ⟨cause, rfl⟩)
        | noFields => exact absurd hm ofMessage_ne_noFields
  · intro fs e
    exact ⟨fun role => ⟨_, readRecipients_eq fs role e⟩, ⟨_, readSubject_eq fs e⟩,
      fun f => ⟨_, readHeader_eq e f⟩, ⟨_, readFields_eq fs e⟩⟩
  · intro l id source e hid
    rw [embedSource_named (contentId_ne_nil hid)]
    exact ⟨_, rfl⟩

end

/-- A body of no stated type behind one that can be read. -/
def untyped : Message := ⟨Utf8.encode ("Content-Type: multipart/mixed; boundary=b\r\n\r\n" ++
  "--b\r\n\r\nHi\r\n--b\r\nContent-Type: \r\n\r\nbye\r\n--b--\r\n").toList⟩

theorem ofMessage_lenient_untyped : ∃ entity front l,
    Entity.read false untyped.octets = .ok entity ∧ FailsOn entity front l ∧ l.Mistyped ∧
      (l.use front = .image ∨ l.use front = .attachment) := by
  have hfails : ofMessage untyped = .error (.unusable (.missing .contentType)) :=
    Checked.error_of_eq (by decide +kernel)
  exact (ofMessage_lenient untyped).1.1 ⟨_, hfails⟩

end Email
end Epistle
