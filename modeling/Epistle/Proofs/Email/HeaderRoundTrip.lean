import Epistle.Proofs.Email.Lookup
import Epistle.Proofs.Mime.Reading

/-!
What a letter keeps of its head when it is rendered and read again. Addresses that hold no
punctuation, names, a subject and custom values without blanks at their ends come back as they were,
whichever way each of them was written.
-/
namespace Epistle

namespace Email

open Checked (map_ok mapError_ok bind_ok foldlM_ok)

variable {e e' : Email}

/-- Whom a notice goes to as a field says it. -/
def noticeOf [Charsets] (fs : List Field) (name : Text) : Notice :=
  match Field.find? fs name with
  | none => .off
  | some f =>
    match Recipient.ofField f with
    | [] => .standard
    | r :: _ => .toward (r.withRole none)

/-- The first recipient of a field, standing for itself. -/
def partyOf [Charsets] (fs : List Field) (name : Text) : Option Recipient :=
  (Recipient.ofFields fs name).head?.map (·.withRole none)

theorem readParty_eq [Charsets] (fs : List Field) (name : Text) (party : Party) (e : Email) :
    e.readParty fs name party =
      match party with
      | .sender => { e with sender := (partyOf fs name).or e.sender }
      | .replyTo => { e with replyTo := (partyOf fs name).or e.replyTo }
      | .bounceTo => { e with bounceTo := (partyOf fs name).or e.bounceTo } := by
  rw [readParty, partyOf]
  cases Recipient.ofFields fs name with
  | nil => cases party <;> rfl
  | cons r rs => cases party <;> rfl

theorem readNotice_eq [Charsets] (fs : List Field) (name : Text) {kind : NoticeKind} {e : Email}
    (he : e.setNotice kind .off = e) :
    e.readNotice fs name kind = e.setNotice kind (noticeOf fs name) := by
  rw [readNotice, noticeOf]
  cases Field.find? fs name with
  | none => exact he.symm
  | some f =>
      dsimp only
      cases Recipient.ofField f with
      | nil => rfl
      | cons r rs => rfl

/-- A letter that is read begins with what its fields say and nothing else. -/
theorem withFields_empty [Charsets] (fs : List Field) : (∅ : Email).withFields fs =
    { empty with
      sender := partyOf fs "From"
      replyTo := partyOf fs "Reply-To"
      bounceTo := partyOf fs "Return-Path"
      recipients := ((RecipientList.empty.extend (roleRecipients fs .direct)).extend
        (roleRecipients fs .copy)).extend (roleRecipients fs .blind)
      subject := shownSubject? fs
      disposition := noticeOf fs "Disposition-Notification-To"
      receipt := noticeOf fs "Return-Receipt-To"
      headers := Dictionary.setAll [] (fs.filterMap customHeader?) } := by
  simp only [withFields, readParty_eq]
  rw [readNotice_eq fs "Disposition-Notification-To" rfl,
    readNotice_eq fs "Return-Receipt-To" rfl]
  change ({ empty with
      sender := (partyOf fs "From").or none
      replyTo := (partyOf fs "Reply-To").or none
      bounceTo := (partyOf fs "Return-Path").or none
      recipients := ((RecipientList.empty.extend (roleRecipients fs .direct)).extend
        (roleRecipients fs .copy)).extend (roleRecipients fs .blind)
      subject := (shownSubject? fs).or none
      disposition := noticeOf fs "Disposition-Notification-To"
      receipt := noticeOf fs "Return-Receipt-To"
      headers := Dictionary.setAll [] (fs.filterMap customHeader?) } : Email) = _
  simp only [Option.or_none]

/-- Leaves bring images and attachments and leave the head alone. -/
theorem readResource_frame [Charsets] {l : Leaf} (h : e.readResource l = .ok e') :
    e' = { e with images := e'.images, attachments := e'.attachments } := by
  simp only [readResource] at h
  split at h
  · cases h
  · cases h
    rfl
  · split at h
    · cases h
    · split at h
      · split at h
        · cases h
          rfl
        · have h := mapError_ok h
          rw [embedSource_eq] at h
          split at h
          · cases h
            rfl
          · cases h
      · cases h
        rfl

theorem readLeaf_frame [Charsets] {slots : Slots} {l : Leaf} {next : Email × Slots}
    (h : readLeaf (e, slots) l = .ok next) :
    next.1 = { e with images := next.1.images, attachments := next.1.attachments } := by
  simp only [readLeaf] at h
  split at h
  · obtain ⟨t, -, rfl⟩ := map_ok h
    rfl
  · split at h
    · obtain ⟨t, -, rfl⟩ := map_ok h
      rfl
    · split at h
      · split at h
        · cases h
        · cases h
          rfl
      · obtain ⟨e', he', rfl⟩ := map_ok h
        exact readResource_frame he'

theorem readLeaves_frame [Charsets] {leaves : List Leaf} {start next : Email × Slots}
    (h : leaves.foldlM readLeaf start = .ok next) :
    next.1 = { start.1 with images := next.1.images, attachments := next.1.attachments } := by
  refine foldlM_ok (P := fun state => state.1 =
    { start.1 with images := state.1.images, attachments := state.1.attachments }) ?_ rfl h
  rintro ⟨e, slots⟩ b l _ he hl
  rw [readLeaf_frame hl]
  simp only at he
  rw [he]

/-- A field of contained recipients holds one recipient for each. -/
theorem ofFields_contained [Charsets] {fs : List Field} {target name : Text} {rs : List Recipient}
    (hne : rs ≠ [])
    (hfind : Field.find? fs target =
      some (Field.ofText name (Recipient.formatAll rs)).stripped)
    (h : ∀ r ∈ rs, r.Valid ∧ r.Contained) :
    Recipient.ofFields fs target = rs.map Recipient.received := by
  have hfirst := Recipient.head_formatAll fun r hr => (h r hr).1
  rw [Recipient.ofFields, hfind, Field.stripped_eq_self name hfirst]
  exact Recipient.ofField_contained name hne h

theorem ofFields_eq [Charsets] {fs : List Field} {target name : Text} {rs : List Recipient}
    (hne : rs ≠ []) (hfind : Field.find? fs target =
      some (Field.ofText name (Recipient.formatAll rs)).stripped)
    (h : ∀ r ∈ rs, r.Valid ∧ r.Legible) :
    Recipient.ofFields fs target = rs.map (·.withRole none) := by
  rw [ofFields_contained hne hfind fun r hr => ⟨(h r hr).1, (h r hr).2.contained⟩]
  exact List.map_congr_left fun r hr => Recipient.received_eq (h r hr).1 (h r hr).2

theorem withRole_of_alone {r : Recipient} (h : r.Alone) : r.withRole none = r := by
  rw [Recipient.withRole, ← h.role]

/-- What an address field of one recipient, or of none, is read as. -/
theorem ofFields_one [Charsets] {fs : List Field} {target name : Text} {party : Option Recipient}
    (hfind : Field.find? fs target =
      ((party.map Recipient.format).map (Field.ofText name)).map Field.stripped)
    (h : ∀ r, party = some r → r.Alone ∧ r.Legible) :
    Recipient.ofFields fs target = party.toList := by
  cases party with
  | none =>
      rw [Recipient.ofFields, hfind]
      rfl
  | some r =>
      obtain ⟨halone, hlegible⟩ := h r rfl
      have hall : ∀ q ∈ [r], q.Valid ∧ q.Legible := by
        intro q hq
        rw [List.mem_singleton.1 hq]
        exact ⟨halone.valid, hlegible⟩
      rw [ofFields_eq (by simp) hfind hall, List.map_singleton, withRole_of_alone halone]
      rfl

theorem partyOf_eq [Charsets] {fs : List Field} {target name : Text} {party : Option Recipient}
    (hfind : Field.find? fs target =
      ((party.map Recipient.format).map (Field.ofText name)).map Field.stripped)
    (h : ∀ r, party = some r → r.Alone ∧ r.Legible) : partyOf fs target = party := by
  rw [partyOf, ofFields_one hfind h]
  cases party with
  | none => rfl
  | some r => exact congrArg some (withRole_of_alone (h r rfl).1)

/-- A notice that goes to someone is read as one that goes to that recipient. -/
theorem noticeOf_eq [Charsets] {fs : List Field} {target name : Text} {party : Option Recipient}
    (hfind : Field.find? fs target =
      ((party.map Recipient.format).map (Field.ofText name)).map Field.stripped)
    (h : ∀ r, party = some r → r.Alone ∧ r.Legible) :
    noticeOf fs target = (party.map Notice.toward).getD .off := by
  have hone := ofFields_one hfind h
  rw [Recipient.ofFields] at hone
  rw [noticeOf]
  cases party with
  | none =>
      rw [hfind]
      rfl
  | some r =>
      rw [hfind] at hone ⊢
      have hfield : Recipient.ofField (Field.ofText name r.format).stripped = [r] := hone
      simp only [Option.map_some, hfield, withRole_of_alone (h r rfl).1]
      rfl

theorem map_withRole {rs : List Recipient} {role : Role} (h : ∀ r ∈ rs, r.role = some role) :
    (rs.map (·.withRole none)).map (·.withRole (some role)) = rs := by
  rw [List.map_map]
  conv => rhs; rw [← List.map_id rs]
  apply List.map_congr_left
  intro r hr
  have hrole := h r hr
  simp only [Function.comp, Recipient.withRole, ← hrole]
  rfl

/-- What a field of the recipients in a role is read as. -/
theorem roleRecipients_contained [Charsets] {fs : List Field} {role : Role} {rs : List Recipient}
    (hfind : Field.find? fs role.fieldName =
      if rs = [] then none
      else some (Field.ofText role.fieldName (Recipient.formatAll rs)).stripped)
    (h : ∀ r ∈ rs, r.Valid ∧ r.Contained) :
    roleRecipients fs role = (rs.map Recipient.received).map (·.withRole (some role)) := by
  rw [roleRecipients]
  by_cases hne : rs = []
  · rw [if_pos hne] at hfind
    rw [Recipient.ofFields, hfind, hne]
    rfl
  · rw [if_neg hne] at hfind
    rw [ofFields_contained hne hfind h]

theorem roleRecipients_eq [Charsets] {fs : List Field} {role : Role} {rs : List Recipient}
    (hfind : Field.find? fs role.fieldName =
      if rs = [] then none
      else some (Field.ofText role.fieldName (Recipient.formatAll rs)).stripped)
    (h : ∀ r ∈ rs, (r.Valid ∧ r.Legible) ∧ r.role = some role) :
    roleRecipients fs role = rs := by
  have hreceived : rs.map Recipient.received = rs.map (·.withRole none) :=
    List.map_congr_left fun r hr => Recipient.received_eq (h r hr).1.1 (h r hr).1.2
  rw [roleRecipients_contained hfind fun r hr => ⟨(h r hr).1.1, (h r hr).1.2.contained⟩, hreceived]
  exact map_withRole fun r hr => (h r hr).2

/-- A text that its header form is read back as. -/
structure LegibleText (t : Text) : Prop where
  trimmed : Text.trim t = t
  plain : t.all Text.isPrintable → Token.Spelling.Plain t

theorem LegibleText.join {s t : Text} (hs : LegibleText s) (ht : LegibleText t) (hsne : s ≠ [])
    (htne : t ≠ []) : LegibleText (s ++ [' '] ++ t) where
  trimmed := by
    refine Text.trim_eq_self ?_ ?_
    · intro c hc
      rw [List.append_assoc, List.head?_append_of_ne_nil _ hsne] at hc
      exact Text.isBlank_head_of_trim hs.trimmed c hc
    · intro c hc
      rw [List.getLast?_append_of_ne_nil _ htne] at hc
      exact Text.isBlank_getLast_of_trim ht.trimmed c hc
  plain := by
    intro hall
    simp only [List.all_append, Bool.and_eq_true] at hall
    rw [Token.Spelling.Plain, Text.lacks_append, Text.lacks_append]
    exact ⟨⟨hs.plain hall.1.1, trivial, by simp⟩, ht.plain hall.2, by simp⟩

theorem Sound.subject_readBack [Charsets] (h : e.Sound) {s : Text} (mint : Mint)
    (hs : e.subject = some s)
    (hlegible : LegibleText s) : Field.textOf? (e.readBack mint) "Subject" = some s := by
  have hmem : ("Subject".toList, e.subject.map EncodedWord.encode) ∈ e.pairs mint := by
    simp [pairs]
  rw [Field.textOf?, h.find?_shown mint (by decide) hmem, hs, Option.map_some, Option.map_some,
    Option.map_some, Option.map_some, Field.text_encode _ hlegible.trimmed hlegible.plain]

/-- A letter whose head can be read as it was written. -/
structure Legible (e : Email) : Prop where
  sender : ∀ r, e.sender = some r → r.Legible
  replyTo : ∀ r, e.replyTo = some r → r.Legible
  direct : ∀ r ∈ e.recipients.ofRole .direct, r.Legible
  copy : ∀ r ∈ e.recipients.ofRole .copy, r.Legible
  disposition : ∀ r, e.disposition.explicit? = some r → r.Legible
  receipt : ∀ r, e.receipt.explicit? = some r → r.Legible
  subject : ∀ s, e.subject = some s → LegibleText s
  headers : ∀ p ∈ e.headers, Text.hasControl p.2 = false ∧ LegibleText p.2

/-- `e'` has the head of `e`, less what no message shows: the identifier, the place for bounces,
blind copies and headers that belong to the structure. -/
structure SameHead (e e' : Email) : Prop where
  id : e'.id = none
  sender : e'.sender = e.sender
  replyTo : e'.replyTo = e.replyTo
  bounceTo : e'.bounceTo = none
  direct : e'.recipients.ofRole .direct = e.recipients.ofRole .direct
  copy : e'.recipients.ofRole .copy = e.recipients.ofRole .copy
  blind : e'.recipients.ofRole .blind = []
  subject : e'.subject = e.subject
  disposition : e'.resolve e'.disposition = e.resolve e.disposition
  receipt : e'.resolve e'.receipt = e.resolve e.receipt
  headers : e'.headers = e.headers.filter fun p => !FieldName.isStructural p.1

/-- The notice that is read for a party resolves to it again. -/
theorem resolve_toward (e : Email) (party : Option Recipient) :
    e.resolve ((party.map Notice.toward).getD .off) = party := by
  cases party with
  | none => rfl
  | some r => rfl

theorem listText?_eq (h : e.Sound) (role : Role) : e.listText? role =
    if e.recipients.ofRole role = [] then none
    else some (Recipient.formatAll (e.recipients.ofRole role)) := by
  have hnil := Recipient.formatAll_eq_nil (h.ofRole role)
  rw [listText?]
  split
  · rename_i hf
    rw [if_pos (hnil.1 hf)]
  · rename_i hf
    rw [if_neg fun he => hf (hnil.2 he)]

theorem ofRole_role {l : RecipientList} {role : Role} {r : Recipient} (h : r ∈ l.ofRole role) :
    r.role = some role := by
  simpa using (List.mem_filter.1 h).2

theorem ofRole_tagged {rs : List Recipient} {role : Role} (h : ∀ r ∈ rs, r.role = some role)
    (other : Role) : RecipientList.ofRole ⟨rs⟩ other = if role = other then rs else [] := by
  split
  · rename_i heq
    subst heq
    rw [RecipientList.ofRole, List.filter_eq_self]
    intro r hr
    simp [h r hr]
  · rename_i hne
    rw [RecipientList.ofRole, List.filter_eq_nil_iff]
    intro r hr
    simp [h r hr, hne]

/-- Direct recipients and copies in one list are found under their roles. -/
theorem ofRole_roles {ds cs : List Recipient} (hdirect : ∀ r ∈ ds, r.role = some .direct)
    (hcopy : ∀ r ∈ cs, r.role = some .copy) :
    RecipientList.ofRole ⟨ds ++ cs⟩ .direct = ds ∧ RecipientList.ofRole ⟨ds ++ cs⟩ .copy = cs ∧
      RecipientList.ofRole ⟨ds ++ cs⟩ .blind = [] := by
  have happend : ∀ role, RecipientList.ofRole ⟨ds ++ cs⟩ role =
      RecipientList.ofRole ⟨ds⟩ role ++ RecipientList.ofRole ⟨cs⟩ role :=
    fun role => List.filter_append ds cs
  simp [happend, ofRole_tagged hdirect, ofRole_tagged hcopy]

theorem Sound.distinct_ofRole (h : e.Sound) (role : Role) :
    RecipientList.Distinct ⟨e.recipients.ofRole role⟩ := List.Pairwise.filter _ h.distinct

/-- Direct recipients and copies that differ among themselves are read into a list in that order. -/
theorem extend_roles {ds cs : List Recipient} (hds : RecipientList.Distinct ⟨ds⟩)
    (hcs : RecipientList.Distinct ⟨cs⟩) (hdirect : ∀ r ∈ ds, r.role = some .direct)
    (hcopy : ∀ r ∈ cs, r.role = some .copy) :
    ((RecipientList.empty.extend ds).extend cs).extend [] = ⟨ds ++ cs⟩ := by
  have hother : ∀ a ∈ ds, ∀ b ∈ cs, a.same b = false := by
    intro a ha b hb
    simp [Recipient.same, hdirect a ha, hcopy b hb]
  have hfirst : (RecipientList.empty.extend ds).entries = ds := RecipientList.extend_entries hds
  have hboth : ((RecipientList.empty.extend ds).extend cs).entries = ds ++ cs := by
    rw [RecipientList.extend_entries, hfirst]
    rw [hfirst]
    exact List.pairwise_append.2 ⟨hds, hcs, hother⟩
  exact congrArg RecipientList.mk hboth

theorem customHeader?_of_structural [Charsets] {f : Field}
    (h : FieldName.isStructural f.key = true) : customHeader? f = none := by
  simp [customHeader?, h]

theorem customHeaders_of_structural [Charsets] {fs : List Field}
    (h : ∀ f ∈ fs, FieldName.isStructural f.key = true) :
    (fs.map Field.stripped).filterMap customHeader? = [] := by
  rw [List.filterMap_eq_nil_iff]
  intro f hf
  obtain ⟨g, hg, rfl⟩ := List.mem_map.1 hf
  exact customHeader?_of_structural (h g hg)

/-- A custom field makes the entry that it was written from. -/
theorem customHeader?_shown [Charsets] {p : Text × Text} (hp : FieldName.ValidEntry p)
    (hs : FieldName.isStructural p.1 = false) (hcontrol : Text.hasControl p.2 = false)
    (ht : LegibleText p.2) :
    customHeader? (Field.ofText p.1 (EncodedWord.encode p.2)).stripped = some p := by
  have hkey : (Field.ofText p.1 (EncodedWord.encode p.2)).stripped.key = p.1 := by
    rw [Field.key_stripped, Field.key_ofText hp.name]
  have htext := Field.text_encode p.1 ht.trimmed ht.plain
  have hblank := Text.allBlank_of_trim ht.trimmed hp.value_ne
  simp [customHeader?, hkey, htext, hs, hp.name, Text.withoutControls_eq_self hcontrol, hblank]

theorem structural_pairs (e : Email) (mint : Mint) :
    ∀ f ∈ Field.ofPairs (e.pairs mint), FieldName.isStructural f.key = true := by
  have hall : ∀ name ∈ headNames, FieldName.isStructural name = true := by decide
  exact fun f hf => hall _ (Field.key_ofPairs (e.apart_pairs mint).valid hf)

theorem structural_content (e : Email) (mint : Mint) :
    ∀ f ∈ (e.topPart mint).fields, FieldName.isStructural f.key = true := by
  have hall : ∀ name ∈ Part.contentNames, FieldName.isStructural name = true := by decide
  exact fun f hf => hall _ (Part.key_fields hf)

/-- The custom headers of a letter are read back, and nothing else becomes one. -/
theorem Sound.customHeaders [Charsets] (h : e.Sound) (hl : e.Legible) (mint : Mint) :
    (e.readBack mint).filterMap customHeader? = e.shownHeaders := by
  have hversion : ∀ f ∈ [Field.ofText "MIME-Version" "1.0"],
      FieldName.isStructural f.key = true := by
    intro f hf
    rw [List.mem_singleton.1 hf, Field.key_ofText version_valid]
    decide
  have hcustom : ((customFields e).map Field.stripped).filterMap customHeader? =
      e.shownHeaders := by
    rw [customFields, List.map_map, List.filterMap_map]
    conv => rhs; rw [← List.filterMap_some (l := e.shownHeaders)]
    apply List.filterMap_congr
    intro p hp
    rw [h.shownHeaders] at hp
    obtain ⟨hp, hs⟩ := List.mem_filter.1 hp
    exact customHeader?_shown (h.headers p hp) (by simpa using hs) (hl.headers p hp).1
      (hl.headers p hp).2
  simp only [readBack, topFields_eq, List.map_append, List.filterMap_append,
    customHeaders_of_structural (structural_pairs _ _), hcustom,
    customHeaders_of_structural (e.structural_content mint), List.nil_append, List.append_nil]
  have hlast := customHeaders_of_structural hversion
  simp only [List.map_cons, List.map_nil] at hlast ⊢
  rw [hlast, List.append_nil]

/-- The head of a letter that was read is what its fields say. -/
theorem head_of_ofMessage [Charsets] {m : Message} {fs : List Field} {body : Octets}
    (h : Field.readBlock m.octets = .ok (fs, body)) (hread : ofMessage m = .ok e') :
    ∃ images attachments slots,
      e' = fill { (∅ : Email).withFields fs with images, attachments } slots := by
  simp only [ofMessage] at hread
  split at hread
  · cases hread
  · rename_i entity hentity
    rw [ofEntity_eq, Entity.fields_of_read h hentity] at hread
    obtain ⟨next, hleaves, rfl⟩ := map_ok hread
    exact ⟨next.1.images, next.1.attachments, next.2,
      congrArg (fill · next.2) (readLeaves_frame hleaves)⟩

/-- The fields of one recipient each. -/
def mailboxes (e : Email) : List (Text × Option Recipient) :=
  [("From", e.sender), ("Reply-To", e.replyTo),
    ("Disposition-Notification-To", e.resolve e.disposition),
    ("Return-Receipt-To", e.resolve e.receipt)]

theorem mailboxes_pairs (e : Email) (mint : Mint) :
    ∀ p ∈ e.mailboxes, (p.1, p.2.map Recipient.format) ∈ e.pairs mint := by
  simp [mailboxes, pairs]

theorem mailboxes_head : ∀ p ∈ e.mailboxes, IsHeadName p.1 := by
  simp only [mailboxes, List.forall_mem_cons, List.not_mem_nil, false_imp_iff, implies_true,
    and_true]
  decide

theorem Sound.mailboxes_legible (h : e.Sound) (hl : e.Legible) :
    ∀ p ∈ e.mailboxes, ∀ r, p.2 = some r → r.Alone ∧ r.Legible := by
  simp only [mailboxes, List.forall_mem_cons, List.not_mem_nil, false_imp_iff, implies_true,
    and_true]
  have hsender : ∀ r, e.sender = some r → r.Alone ∧ r.Legible :=
    fun r hr => ⟨h.sender r hr, hl.sender r hr⟩
  have hreplyTo : ∀ r, e.replyTo = some r → r.Alone ∧ r.Legible :=
    fun r hr => ⟨h.replyTo r hr, hl.replyTo r hr⟩
  have hdisposition : ∀ r, e.disposition.explicit? = some r → r.Alone ∧ r.Legible :=
    fun r hr => ⟨h.disposition.alone r hr, hl.disposition r hr⟩
  have hreceipt : ∀ r, e.receipt.explicit? = some r → r.Alone ∧ r.Legible :=
    fun r hr => ⟨h.receipt.alone r hr, hl.receipt r hr⟩
  exact ⟨hsender, hreplyTo, forall_resolve hdisposition hreplyTo hsender,
    forall_resolve hreceipt hreplyTo hsender⟩

theorem Sound.mailbox_shown [Charsets] (h : e.Sound) (hl : e.Legible) (mint : Mint)
    {p : Text × Option Recipient} (hp : p ∈ e.mailboxes) :
    partyOf (e.readBack mint) p.1 = p.2 ∧
      noticeOf (e.readBack mint) p.1 = (p.2.map Notice.toward).getD .off := by
  have hfind := h.find?_shown mint (mailboxes_head p hp) (e.mailboxes_pairs mint p hp)
  have hlegible := h.mailboxes_legible hl p hp
  exact ⟨partyOf_eq hfind hlegible, noticeOf_eq hfind hlegible⟩

theorem Sound.find?_role (h : e.Sound) (mint : Mint) {role : Role} (hrole : role ≠ .blind) :
    Field.find? (e.readBack mint) role.fieldName =
      if e.recipients.ofRole role = [] then none
      else some (Field.ofText role.fieldName
        (Recipient.formatAll (e.recipients.ofRole role))).stripped := by
  have hshown : IsHeadName role.fieldName ∧ (role.fieldName, e.listText? role) ∈ e.pairs mint := by
    cases role with
    | direct => exact ⟨by decide, by simp [pairs, Role.fieldName]⟩
    | copy => exact ⟨by decide, by simp [pairs, Role.fieldName]⟩
    | blind => exact absurd rfl hrole
  rw [h.find?_shown mint hshown.1 hshown.2, listText?_eq h]
  split <;> rfl

theorem Sound.roleRecipients_shown [Charsets] (h : e.Sound) (mint : Mint) {role : Role}
    (hrole : role ≠ .blind) (hl : ∀ r ∈ e.recipients.ofRole role, r.Legible) :
    Email.roleRecipients (e.readBack mint) role = e.recipients.ofRole role :=
  roleRecipients_eq (h.find?_role mint hrole)
    fun r hr => ⟨⟨h.ofRole role r hr, hl r hr⟩, ofRole_role hr⟩

theorem Sound.roleRecipients_blind [Charsets] (h : e.Sound) (mint : Mint) :
    Email.roleRecipients (e.readBack mint) .blind = [] := by
  rw [Email.roleRecipients, Role.fieldName, Recipient.ofFields, (h.find?_unmentioned mint).1]
  rfl

theorem Sound.subject_shown [Charsets] (h : e.Sound) (hl : e.Legible) (mint : Mint) :
    shownSubject? (e.readBack mint) = e.subject := by
  have hmem : ("Subject".toList, e.subject.map EncodedWord.encode) ∈
      e.pairs mint := by
    simp [pairs]
  rw [shownSubject?, Field.textOf?, h.find?_shown mint (by decide) hmem]
  cases hs : e.subject with
  | none => rfl
  | some s =>
      have hne : s ≠ [] := by
        rintro rfl
        exact h.subject hs
      have hlegible := hl.subject s hs
      have hblank := Text.allBlank_of_trim hlegible.trimmed hne
      simp [Field.text_encode _ hlegible.trimmed hlegible.plain, hblank, Option.filter]

/-- Whatever is read of a rendered letter has the head of the letter. -/
theorem Sound.sameHead [Charsets] (h : e.Sound) (hl : e.Legible) {mint : Mint}
    (hread : ofMessage (e.render mint).1 = .ok e') : e.SameHead e' := by
  obtain ⟨images, attachments, slots, rfl⟩ :=
    head_of_ofMessage (h.readBlock_octets mint) hread
  have hsender : partyOf (e.readBack mint) "From" = e.sender :=
    (h.mailbox_shown hl mint (p := ("From".toList, e.sender)) (by simp [mailboxes])).1
  have hreplyTo : partyOf (e.readBack mint) "Reply-To" = e.replyTo :=
    (h.mailbox_shown hl mint (p := ("Reply-To".toList, e.replyTo)) (by simp [mailboxes])).1
  have hdisposition : noticeOf (e.readBack mint) "Disposition-Notification-To" =
      ((e.resolve e.disposition).map Notice.toward).getD .off :=
    (h.mailbox_shown hl mint (p := ("Disposition-Notification-To".toList, e.resolve e.disposition))
      (by simp [mailboxes])).2
  have hreceipt : noticeOf (e.readBack mint) "Return-Receipt-To" =
      ((e.resolve e.receipt).map Notice.toward).getD .off :=
    (h.mailbox_shown hl mint (p := ("Return-Receipt-To".toList, e.resolve e.receipt))
      (by simp [mailboxes])).2
  have hdirect := h.roleRecipients_shown mint (by decide : Role.direct ≠ .blind) hl.direct
  have hcopy := h.roleRecipients_shown mint (by decide : Role.copy ≠ .blind) hl.copy
  obtain ⟨-, hpath⟩ := h.find?_unmentioned mint
  have hbounceTo : partyOf (e.readBack mint) "Return-Path" = none := by
    rw [partyOf, Recipient.ofFields, hpath]
    rfl
  have hsubject := h.subject_shown hl mint
  have hheaders : Dictionary.setAll [] (e.shownHeaders) = e.shownHeaders := by
    apply Dictionary.setAll_sorted (d := [])
    exact List.Pairwise.filter _ h.sorted
  -- Every field that the reader asks for is known now, and it reads each of them as it was meant.
  rw [withFields_empty, hsender, hreplyTo, hdisposition, hreceipt, hdirect, hcopy, hbounceTo,
    h.roleRecipients_blind mint, hsubject, h.customHeaders hl mint, hheaders,
    extend_roles (h.distinct_ofRole _) (h.distinct_ofRole _) (fun _ => ofRole_role)
      fun _ => ofRole_role]
  obtain ⟨hdirect, hcopy, hblind⟩ :=
    @ofRole_roles (e.recipients.ofRole .direct) (e.recipients.ofRole .copy) (fun _ => ofRole_role)
      fun _ => ofRole_role
  constructor
  case direct => exact hdirect
  case copy => exact hcopy
  case blind => exact hblind
  case disposition => exact resolve_toward _ _
  case receipt => exact resolve_toward _ _
  case headers => exact h.shownHeaders
  all_goals rfl

theorem part_single (himages : e.images = []) (hattachments : e.attachments = [])
    (hforwarded : e.forwarded = none) (htext : e.text = none ∨ e.html = none) :
    ∃ subtype ∈ Part.textTypes, ∃ body, e.part = .text subtype body := by
  have hplain : "plain".toList ∈ Part.textTypes := by decide
  have hhtml : "html".toList ∈ Part.textTypes := by decide
  rw [part, himages, hattachments, hforwarded]
  rcases htext with ht | ht
  · rw [ht]
    cases e.html with
    | none => exact ⟨_, hplain, _, rfl⟩
    | some t => exact ⟨_, hhtml, t, rfl⟩
  · rw [ht]
    cases e.text with
    | none => exact ⟨_, hplain, _, rfl⟩
    | some t => exact ⟨_, hplain, t, rfl⟩

/-- A letter that is a single text can be read again. -/
theorem Sound.ofMessage_single [Charsets] (h : e.Sound) (mint : Mint) {subtype body : Text}
    (hs : subtype ∈ Part.textTypes) (hpart : e.part = .text subtype body) :
    ∃ e', ofMessage (e.render mint).1 = .ok e' := by
  have htop : e.topPart mint = .text subtype body := by
    rw [topPart, hpart]
    rfl
  have hdescribes := h.describes mint
  have hblock := h.readBlock_octets mint
  rw [htop] at hdescribes hblock
  have hread := Entity.read_leaf hblock (hdescribes.isMultipart_text hs)
  have hshows := hdescribes.shows
  have htype := hshows.typeName_text hs
  have htypes : ∀ s ∈ Part.textTypes, "text/".toList ++ s = "text/plain".toList ∨
      "text/".toList ++ s = "text/html".toList := by decide
  obtain ⟨e', he'⟩ := ofEntity_text hshows.isAttachment_text
    ((htypes subtype hs).imp htype.trans htype.trans) hshows.data_text
  have hmessage : ofMessage (e.render mint).1 = .ok e' := by
    rw [ofMessage, hread]
    exact he'
  exact ⟨e', hmessage⟩

/-- What is read of a rendered letter has the letter's head, and a letter of one text at most can
always be read. -/
theorem ofMessage_render_head [Charsets] (h : Reachable e) (hl : e.Legible) (mint : Mint) :
    (∀ e', ofMessage (e.render mint).1 = .ok e' → e.SameHead e') ∧
      (e.images = [] → e.attachments = [] → e.forwarded = none → e.text = none ∨ e.html = none →
        ∃ e', ofMessage (e.render mint).1 = .ok e') := by
  refine ⟨fun e' hread => h.sound.sameHead hl hread, ?_⟩
  intro himages hattachments hforwarded htext
  obtain ⟨subtype, hs, body, hpart⟩ := part_single himages hattachments hforwarded htext
  exact h.sound.ofMessage_single mint hs hpart

/-- A letter whose sender, copy, subject and custom header are each written in another way. -/
def greeting : Email :=
  { empty with
    sender := some ⟨some "Héllo".toList, "one@x.com".toList, none⟩
    recipients := ⟨[⟨some "Doe, \"Jane\"".toList, "jane@x.com".toList, some .copy⟩]⟩
    subject := some "Quarterly résumé".toList
    headers := [("X-Note".toList, "plain".toList)]
    disposition := .standard }

theorem greeting_reachable [Charsets] : Reachable greeting := by
  have hsender : Recipient.Made ⟨some "Héllo".toList, "one@x.com".toList, none⟩ :=
    ⟨some "Héllo".toList, "one@x.com".toList, none, by decide⟩
  have hcopy : Recipient.Made ⟨some "Doe, \"Jane\"".toList, "jane@x.com".toList, none⟩ :=
    ⟨some "Doe, \"Jane\"".toList, "jane@x.com".toList, none, by decide⟩
  have hcopies : ∀ r ∈ [(⟨some "Doe, \"Jane\"".toList, "jane@x.com".toList, none⟩ : Recipient)],
      r.Made := by
    intro r hr
    rw [List.mem_singleton.1 hr]
    exact hcopy
  have hfirst := Reachable.empty.write (.setRecipient .sender _) hsender rfl rfl
  have hsecond := hfirst.write (.addRecipients .copy _) hcopies rfl rfl
  have hthird := hsecond.write (.setSubject "Quarterly résumé".toList) trivial rfl rfl
  have hfourth := hthird.write (.addHeader "X-Note".toList "plain".toList) trivial rfl rfl
  exact hfourth.write (.requestNotice .disposition) trivial rfl rfl

theorem greeting_legible : greeting.Legible := by
  have hsender : Recipient.Legible ⟨some "Héllo".toList, "one@x.com".toList, none⟩ := by
    refine ⟨by decide, by decide, by decide, ?_, ?_⟩
    · rintro n ⟨⟩
      decide
    · rintro n ⟨⟩
      decide
  have hcopy : Recipient.Legible
      ⟨some "Doe, \"Jane\"".toList, "jane@x.com".toList, some .copy⟩ := by
    refine ⟨by decide, by decide, by decide, ?_, ?_⟩
    · rintro n ⟨⟩
      decide
    · rintro n ⟨⟩
      decide
  refine ⟨?_, ?_, ?_, ?_, ?_, ?_, ?_, ?_⟩
  · rintro r ⟨⟩
    exact hsender
  · rintro r ⟨⟩
  · intro r hr
    cases hr
  · intro r hr
    rw [List.mem_singleton.1 hr]
    exact hcopy
  · rintro r ⟨⟩
  · rintro r ⟨⟩
  · rintro s ⟨⟩
    exact ⟨by decide, by decide⟩
  · intro p hp
    rw [List.mem_singleton.1 hp]
    exact ⟨by decide, by decide, by decide⟩

theorem ofMessage_render_head_greeting : ∃ e',
    ofMessage (greeting.render ⟨0, fun _ => 0⟩).1 = .ok e' ∧
      e'.sender = some ⟨some "Héllo".toList, "one@x.com".toList, none⟩ ∧
      e'.recipients.ofRole .copy =
        [⟨some "Doe, \"Jane\"".toList, "jane@x.com".toList, some .copy⟩] ∧
      e'.subject = some "Quarterly résumé".toList ∧
      e'.headers = [("X-Note".toList, "plain".toList)] ∧
      e'.resolve e'.disposition = some ⟨some "Héllo".toList, "one@x.com".toList, none⟩ := by
  obtain ⟨hhead, hread⟩ :=
    ofMessage_render_head greeting_reachable greeting_legible ⟨0, fun _ => 0⟩
  obtain ⟨e', he'⟩ := hread rfl rfl rfl (.inl rfl)
  have hsame := hhead e' he'
  exact ⟨e', he', hsame.sender, hsame.copy, hsame.subject, hsame.headers, hsame.disposition⟩

end Email
end Epistle
