import Epistle.Proofs.Email.Sound

/-!
Reading a message as a letter. The fields never make it fail, whatever they hold: each value is
made fit before it is handed on. So a letter that was read satisfies the invariant of letters.
-/
namespace Epistle

theorem Recipient.ofMailbox?_valid {name : Option Text} {address : Text} {r : Recipient}
    (h : ofMailbox? name address = some r) : r.Valid ∧ r.role = none := by
  simp only [ofMailbox?] at h
  split at h
  · cases h
  · cases hm : make (name.map Text.withoutControls)
        (Text.trim (withoutBrackets (Text.trim address))) none with
    | error err =>
        rw [hm] at h
        cases h
    | ok r' =>
        rw [hm] at h
        cases h
        exact ⟨make_valid hm, make_role hm⟩

theorem Recipient.ofField_valid [Charsets] {f : Field} {r : Recipient} (h : r ∈ ofField f) :
    r.Valid ∧ r.role = none := by
  simp only [ofField] at h
  split at h
  · obtain ⟨m, -, hm⟩ := List.mem_filterMap.1 h
    exact ofMailbox?_valid hm
  · obtain ⟨entry, -, hentry⟩ := List.mem_filterMap.1 h
    split at hentry
    · exact ofMailbox?_valid hentry
    · cases hentry

theorem Recipient.ofFields_valid [Charsets] {fs : List Field} {name : Text} {r : Recipient}
    (h : r ∈ ofFields fs name) : r.Valid ∧ r.role = none := by
  simp only [ofFields] at h
  cases hf : Field.find? fs name with
  | none =>
      rw [hf] at h
      cases h
  | some f =>
      rw [hf] at h
      exact ofField_valid h

namespace FieldName

theorem allBlank_of_isValid {name : Text} (h : isValid name) : Text.allBlank name = false := by
  cases name with
  | nil => simp [isValid] at h
  | cons c name =>
      simp only [isValid, Bool.and_eq_true, List.all_cons, isNameChar, decide_eq_true_eq] at h
      have hc : Text.isBlank c = false := by
        simp only [Text.isBlank, Bool.or_eq_false_iff, Bool.and_eq_false_iff,
          decide_eq_false_iff_not, beq_eq_false_iff_ne]
        omega
      simp [Text.allBlank, hc]

end FieldName

namespace Email

open Checked (map_ok mapError_ok bind_ok mem_mapM foldlM_ok)

variable [Charsets] {e e' : Email}

theorem Sound.readParty (h : e.Sound) (fs : List Field) (name : Text) (party : Party) :
    (e.readParty fs name party).Sound := by
  simp only [Email.readParty]
  split
  · exact h
  · rename_i r rs hr
    exact h.setRecipient party (Recipient.ofFields_valid (hr ▸ List.mem_cons_self)).1

/-- The recipients of the field for a role, in that role. -/
def roleRecipients (fs : List Field) (role : Role) : List Recipient :=
  (Recipient.ofFields fs role.fieldName).map (·.withRole (some role))

theorem readRecipients_eq (fs : List Field) (role : Role) (e : Email) :
    e.readRecipients fs role = .ok (e.extendRecipients (roleRecipients fs role)) := by
  simp only [readRecipients, roleRecipients]
  split
  · rename_i hnil
    rw [hnil]
    rfl
  · rename_i rs hne
    have hne : Recipient.ofFields fs role.fieldName ≠ [] := hne
    rw [addRecipients_eq, if_neg hne]
    rfl

theorem Sound.roleRecipients (h : e.Sound) (fs : List Field) (role : Role) :
    (e.extendRecipients (Email.roleRecipients fs role)).Sound := by
  apply h.extendRecipients
  intro r hr
  obtain ⟨r', hr', rfl⟩ := List.mem_map.1 hr
  exact ⟨(Recipient.ofFields_valid hr').1.withRole _, by simp [Recipient.withRole]⟩

/-- The subject among the fields, unless it is blank. -/
def shownSubject? (fs : List Field) : Option Text :=
  (Field.textOf? fs "Subject").filter (!Text.allBlank ·)

theorem readSubject_eq (fs : List Field) (e : Email) :
    e.readSubject fs = .ok { e with subject := (shownSubject? fs).or e.subject } := by
  simp only [readSubject, shownSubject?]
  cases hs : Field.textOf? fs "Subject" with
  | none => rfl
  | some s =>
      by_cases hb : Text.allBlank s = true
      · simp [hb, Option.filter]
      · have hne : s ≠ [] := by
          rintro rfl
          exact hb rfl
        simp [hb, orUnusable, setSubject_eq, hne, Except.mapError, Option.filter]

theorem Sound.shownSubject (h : e.Sound) (fs : List Field) :
    Sound { e with subject := (shownSubject? fs).or e.subject } := by
  refine { h with subject := ?_ }
  intro hs
  rcases Option.or_eq_some_iff.1 hs with hs | ⟨-, hs⟩
  · have hblank := (Option.filter_eq_some_iff.1 hs).2
    cases hblank
  · exact h.subject hs

theorem Sound.readNotice (h : e.Sound) (fs : List Field) (name : Text) (kind : NoticeKind) :
    (e.readNotice fs name kind).Sound := by
  simp only [Email.readNotice]
  split
  · exact h
  · split
    · exact h.requestNotice kind
    · rename_i r rs hr
      exact h.requestNoticeTo kind (Recipient.ofField_valid (hr ▸ List.mem_cons_self)).1

/-- The entry that a field makes in the custom headers, if it makes one. -/
def customHeader? (f : Field) : Option (Text × Text) :=
  if FieldName.isStructural f.key || !FieldName.isValid f.key then none
  else
    let value := Text.withoutControls f.text
    if Text.allBlank value then none else some (f.key, value)

omit [Charsets] in
theorem checkHeader_ok {name value : Text} (hn : FieldName.isValid name) (hv : value ≠ [])
    (hl : Text.OneLine value) : checkHeader name value = .ok (name, value) := by
  have hbreak : value.any isLineBreak = false := by
    rw [List.any_eq_false]
    intro c hc
    simpa [isLineBreak] using hl c hc
  simp [checkHeader, FieldName.allBlank_of_isValid hn, hn, hv, hbreak]

theorem readHeader_eq (e : Email) (f : Field) :
    e.readHeader f = .ok { e with headers := e.headers.setAll (customHeader? f).toList } := by
  simp only [readHeader, customHeader?]
  split
  · rfl
  · rename_i hname
    split
    · rfl
    · rename_i hblank
      simp only [Bool.or_eq_true, not_or, Bool.not_eq_true, Bool.not_eq_false'] at hname
      have hne : Text.withoutControls f.text ≠ [] := by
        intro hn
        rw [hn] at hblank
        exact hblank rfl
      have hline : Text.OneLine (Text.withoutControls f.text) :=
        Text.oneLine_of_hasControl (Text.hasControl_withoutControls _)
      have hcheck := checkHeader_ok (by simpa using hname.2) hne hline
      rw [addHeader_eq, hcheck]
      rfl

theorem readHeaders_eq (fs : List Field) (e : Email) :
    fs.foldlM readHeader e =
      .ok { e with headers := e.headers.setAll (fs.filterMap customHeader?) } := by
  induction fs generalizing e with
  | nil => rfl
  | cons f fs ih =>
      rw [List.foldlM_cons, readHeader_eq]
      change (fs.foldlM readHeader _) = _
      rw [ih]
      cases hf : customHeader? f with
      | none => simp [List.filterMap_cons_none hf, Dictionary.setAll]
      | some entry => simp [List.filterMap_cons_some hf, Dictionary.setAll]

theorem customHeader?_valid {f : Field} {entry : Text × Text} (h : customHeader? f = some entry) :
    FieldName.ValidEntry entry := by
  simp only [customHeader?] at h
  split at h
  · cases h
  · rename_i hname
    split at h
    · cases h
    · rename_i hblank
      cases h
      simp only [Bool.or_eq_true, not_or, Bool.not_eq_true, Bool.not_eq_false'] at hname
      refine ⟨by simpa using hname.2, ?_,
        Text.oneLine_of_hasControl (Text.hasControl_withoutControls _)⟩
      intro hn
      simp only at hn
      rw [hn] at hblank
      exact hblank rfl

theorem customHeader?_name {f : Field} {entry : Text × Text} (h : customHeader? f = some entry) :
    entry.1 = f.key ∧ FieldName.isStructural f.key = false := by
  simp only [customHeader?] at h
  split at h
  · cases h
  · rename_i hname
    split at h
    · cases h
    · cases h
      simp only [Bool.or_eq_true, not_or, Bool.not_eq_true] at hname
      exact ⟨rfl, hname.1⟩

theorem Sound.customEntries (h : e.Sound) (fs : List Field) :
    Sound { e with headers := e.headers.setAll (fs.filterMap customHeader?) } := by
  apply h.setHeaders
  intro p hp
  obtain ⟨f, -, hf⟩ := List.mem_filterMap.1 hp
  exact customHeader?_valid hf

/-- The letter with all that the fields say put in its place. -/
def withFields (fs : List Field) (e : Email) : Email :=
  let e := e.readParty fs "From" .sender
  let e := e.readParty fs "Reply-To" .replyTo
  let e := e.readParty fs "Return-Path" .bounceTo
  let e := e.extendRecipients (roleRecipients fs .direct)
  let e := e.extendRecipients (roleRecipients fs .copy)
  let e := e.extendRecipients (roleRecipients fs .blind)
  let e := { e with subject := (shownSubject? fs).or e.subject }
  let e := e.readNotice fs "Disposition-Notification-To" .disposition
  let e := e.readNotice fs "Return-Receipt-To" .receipt
  { e with headers := e.headers.setAll (fs.filterMap customHeader?) }

theorem readFields_eq (fs : List Field) (e : Email) :
    e.readFields fs = .ok (e.withFields fs) := by
  simp only [readFields, readRecipients_eq, readSubject_eq, readHeaders_eq]
  rfl

theorem Sound.withFields (h : e.Sound) (fs : List Field) : (e.withFields fs).Sound := by
  have hparties := ((h.readParty fs "From" .sender).readParty fs "Reply-To" .replyTo).readParty fs
    "Return-Path" .bounceTo
  have hlists := ((hparties.roleRecipients fs .direct).roleRecipients fs .copy).roleRecipients fs
    .blind
  have hnotices := ((hlists.shownSubject fs).readNotice fs "Disposition-Notification-To"
    .disposition).readNotice fs "Return-Receipt-To" .receipt
  exact hnotices.customEntries fs

theorem Sound.readResource (h : e.Sound) {l : Leaf} (hr : e.readResource l = .ok e') :
    e'.Sound := by
  simp only [Email.readResource] at hr
  split at hr
  · cases hr
  · cases hr
    exact h
  · split at hr
    · cases hr
    · rename_i source hsource
      have hvalid := DataSource.make_valid hsource
      split at hr
      · split at hr
        · cases hr
          exact h.attachSource _ hvalid
        · exact h.embedSource hvalid (mapError_ok hr)
      · cases hr
        exact h.attachSource _ hvalid

theorem Sound.readLeaf {slots : Slots} {l : Leaf} {next : Email × Slots} (h : e.Sound)
    (hr : Email.readLeaf (e, slots) l = .ok next) : next.1.Sound := by
  simp only [Email.readLeaf] at hr
  split at hr
  · obtain ⟨t, -, rfl⟩ := map_ok hr
    exact h
  · split at hr
    · obtain ⟨t, -, rfl⟩ := map_ok hr
      exact h
    · split at hr
      · split at hr
        · cases hr
        · cases hr
          exact h
      · obtain ⟨e', he', rfl⟩ := map_ok hr
        exact h.readResource he'

/-- The letter with what filled the slots in its places. -/
def fill (e : Email) (slots : Slots) : Email :=
  { e with text := slots.text, html := slots.html, forwarded := slots.forwarded }

/-- Reading fails only where a leaf does. -/
theorem ofEntity_eq (entity : Entity) : ofEntity entity =
    (entity.leaves.foldlM readLeaf ((∅ : Email).withFields entity.fields, Slots.empty)).map
      fun (e, slots) => e.fill slots := by
  rw [ofEntity, readFields_eq]
  change (entity.leaves.foldlM readLeaf ((∅ : Email).withFields entity.fields, Slots.empty) >>=
    _) = _
  cases entity.leaves.foldlM readLeaf ((∅ : Email).withFields entity.fields, Slots.empty) with
  | error err => rfl
  | ok next => rfl

/-- A message with a single text in it can always be read once its content can. -/
theorem ofEntity_text {l : Leaf} (hplace : l.isAttachment = false)
    (htype : l.typeName = "text/plain".toList ∨ l.typeName = "text/html".toList)
    {data : Octets} (hdata : l.data = .ok data) : ∃ e, ofEntity (.leaf l) = .ok e := by
  have htext : ∃ t, leafText l = .ok t := by
    rw [leafText, Leaf.text, hdata]
    exact ⟨_, rfl⟩
  obtain ⟨t, ht⟩ := htext
  have hleaf : ∃ next, readLeaf ((∅ : Email).withFields l.fields, Slots.empty) l = .ok next := by
    rw [readLeaf, hplace, ht]
    rcases htype with htype | htype
    · exact ⟨_, by rw [if_pos ⟨rfl, htype, rfl⟩]; rfl⟩
    · have hother : l.typeName ≠ "text/plain".toList := by
        rw [htype]
        decide
      exact ⟨_, by rw [if_neg fun h => hother h.2.1, if_pos ⟨rfl, htype, rfl⟩]; rfl⟩
  obtain ⟨next, hnext⟩ := hleaf
  have hleaves : [l].foldlM readLeaf ((∅ : Email).withFields l.fields, Slots.empty) = .ok next := by
    rw [List.foldlM_cons, hnext]
    rfl
  refine ⟨next.1.fill next.2, ?_⟩
  rw [ofEntity_eq]
  exact congrArg (Except.map _) hleaves

theorem ofEntity_sound {entity : Entity} (h : ofEntity entity = .ok e) : e.Sound := by
  rw [ofEntity_eq] at h
  obtain ⟨⟨e', slots⟩, hleaves, rfl⟩ := map_ok h
  have hsound : Sound (e', slots).1 := by
    refine foldlM_ok (P := fun state => state.1.Sound) ?_ ?_ hleaves
    · intro state next l _ hs hl
      exact Sound.readLeaf hs hl
    · exact Sound.empty.withFields _
  exact { hsound with }

/-- A letter that was read is as sound as one that was written here. -/
theorem ofMessage_sound {m : Message} (h : ofMessage m = .ok e) : e.Sound := by
  simp only [ofMessage] at h
  split at h
  · cases h
  · exact ofEntity_sound h

end Email
end Epistle
