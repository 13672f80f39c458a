import Epistle.Proofs.Checked
import Epistle.Proofs.Email.Session
import Epistle.Proofs.Header.EncodedWord
import Epistle.Proofs.Text.Dictionary

/-!
The invariant of letters: every text that a field is written from was checked when it came in.
Each step keeps it, also where a message supplies the values, so every letter held satisfies it.
-/
namespace Epistle

/-- A recipient that stands for itself, outside the list of recipients. -/
structure Recipient.Alone (r : Recipient) : Prop where
  valid : r.Valid
  role : r.role = none

theorem Recipient.Valid.alone {r : Recipient} (h : r.Valid) : (r.withRole none).Alone :=
  ⟨h.withRole none, rfl⟩

/-- A notice that is asked for where it names someone, who stands for itself. -/
structure Notice.Valid (n : Notice) : Prop where
  requested : n.explicit? ≠ none → n.isRequested
  alone : ∀ r, n.explicit? = some r → r.Alone

theorem Notice.Valid.off : Notice.off.Valid := ⟨fun h => absurd rfl h, nofun⟩

theorem Notice.Valid.standard : Notice.standard.Valid := ⟨fun _ => rfl, nofun⟩

theorem Notice.Valid.toward {r : Recipient} (h : r.Valid) :
    (Notice.toward (r.withRole none)).Valid where
  requested _ := rfl
  alone := by
    rintro r' ⟨⟩
    exact h.alone

/-- A custom header that a field may be written from. -/
structure FieldName.ValidEntry (entry : Text × Text) : Prop where
  name : isValid entry.1
  value_ne : entry.2 ≠ []
  value_line : Text.OneLine entry.2

/-- A way of signing that lacks nothing. -/
structure Signing.Valid (s : Signing) : Prop where
  key : s.key.isMissing = false
  domain : Text.allBlank s.domain = false
  selector : Text.allBlank s.selector = false

theorem Signing.make_valid {key : SigningKey} {domain selector : Text} {s : Signing}
    (h : make key domain selector = .ok s) : s.Valid := by
  simp only [make] at h
  split at h
  · cases h
  · split at h
    · cases h
    · split at h
      · cases h
      · rename_i hkey hdomain hselector
        cases h
        exact ⟨by simpa using hkey, by simpa using hdomain, by simpa using hselector⟩

namespace Email

open Checked (map_ok mapError_ok bind_ok mem_mapM foldlM_ok)

structure Sound (e : Email) : Prop where
  id : ∀ id, e.id = some id → Text.hasControl id = false
  sender : ∀ r, e.sender = some r → r.Alone
  replyTo : ∀ r, e.replyTo = some r → r.Alone
  bounceTo : ∀ r, e.bounceTo = some r → r.Alone
  disposition : e.disposition.Valid
  receipt : e.receipt.Valid
  subject : e.subject ≠ some []
  distinct : e.recipients.Distinct
  recipients : ∀ r ∈ e.recipients.entries, r.Valid ∧ r.role ≠ none
  images : ∀ r ∈ e.images, r.Valid ∧ r.name ≠ none
  attachments : ∀ r ∈ e.attachments, r.Valid
  sorted : e.headers.Sorted
  headers : ∀ h ∈ e.headers, FieldName.ValidEntry h
  signing : ∀ s, e.signing = some s → s.Valid

theorem Sound.empty : Sound ∅ := by
  constructor
  case distinct => exact List.Pairwise.nil
  case sorted => exact List.Pairwise.nil
  case disposition | receipt => exact .off
  all_goals intros; simp_all [EmptyCollection.emptyCollection, Email.empty, RecipientList.empty]

variable {e e' : Email}

theorem Sound.setId (h : e.Sound) {id : Option Text} (hs : e.setId id = .ok e') : e'.Sound := by
  rw [setId_eq] at hs
  split at hs
  · cases hs
  · rename_i hid
    cases hs
    refine { h with id := ?_ }
    rintro t rfl
    simpa using hid

theorem Sound.setRecipient (h : e.Sound) (party : Party) {r : Recipient} (hr : r.Valid) :
    (e.setRecipient party r).Sound := by
  have halone : ∀ r', some (r.withRole none) = some r' → r'.Alone := by
    rintro r' ⟨⟩
    exact hr.alone
  cases party with
  | sender => exact { h with sender := halone }
  | replyTo => exact { h with replyTo := halone }
  | bounceTo => exact { h with bounceTo := halone }

theorem interpretEntry_valid {name : Option Text} {entry : Text} {role : Option Role}
    {r : Recipient} (h : Entries.interpret name entry role = .ok r) : r.Valid ∧ r.role = role := by
  simp only [Entries.interpret] at h
  split at h
  · cases h
  · split at h
    · exact ⟨Recipient.make_valid h, Recipient.make_role h⟩
    · exact ⟨Recipient.make_valid h, Recipient.make_role h⟩

theorem interpret_valid {name : Option Text} {address : Text} {field : Argument} {r : Recipient}
    (h : Recipient.interpret name address field = .ok r) : r.Valid := by
  simp only [Recipient.interpret] at h
  split at h
  · cases h
  · exact (interpretEntry_valid h).1

theorem Sound.setParty (h : e.Sound) {party : Party} {name : Option Text} {address : Text}
    (hs : e.setParty party name address = .ok e') : e'.Sound := by
  rw [setParty_eq] at hs
  obtain ⟨r, hr, rfl⟩ := map_ok hs
  exact h.setRecipient party (interpret_valid hr)

theorem Sound.setSubject (h : e.Sound) {subject : Text} (hs : e.setSubject subject = .ok e') :
    e'.Sound := by
  rw [setSubject_eq] at hs
  split at hs
  · cases hs
  · rename_i hne
    cases hs
    refine { h with subject := ?_ }
    simpa using hne

theorem Sound.extendRecipients (h : e.Sound) {rs : List Recipient}
    (hrs : ∀ r ∈ rs, r.Valid ∧ r.role ≠ none) : (e.extendRecipients rs).Sound := by
  refine { h with distinct := h.distinct.extend rs, recipients := ?_ }
  intro r hr
  rcases RecipientList.mem_extend hr with hr | hr
  · exact h.recipients r hr
  · exact hrs r hr

theorem Sound.addList (h : e.Sound) {role : Role} {name : Option Text} {list : Text}
    (hs : e.addList role name list = .ok e') : e'.Sound := by
  rw [addList_eq] at hs
  obtain ⟨rs, hrs, rfl⟩ := map_ok hs
  apply h.extendRecipients
  intro r hr
  simp only [Entries.parse] at hrs
  split at hrs
  · cases hrs
  · obtain ⟨entry, -, hentry⟩ := mem_mapM hrs hr
    obtain ⟨hvalid, hrole⟩ := interpretEntry_valid hentry
    exact ⟨hvalid, by simp [hrole]⟩

theorem Sound.addAddresses (h : e.Sound) {role : Role} {name : Option Text}
    {addresses : List Text} (hs : e.addAddresses role name addresses = .ok e') : e'.Sound := by
  rw [addAddresses_eq] at hs
  obtain ⟨rs, hrs, hs⟩ := bind_ok hs
  split at hs
  · cases hs
  · cases hs
    apply h.extendRecipients
    intro r hr
    obtain ⟨a, -, ha⟩ := mem_mapM hrs hr
    exact ⟨Recipient.make_valid ha, by simp [Recipient.make_role ha]⟩

theorem Sound.addRecipients (h : e.Sound) {role : Role} {rs : List Recipient}
    (hrs : ∀ r ∈ rs, r.Valid) (hs : e.addRecipients role rs = .ok e') : e'.Sound := by
  rw [addRecipients_eq] at hs
  split at hs
  · cases hs
  · cases hs
    apply h.extendRecipients
    intro r hr
    obtain ⟨r', hr', rfl⟩ := List.mem_map.1 hr
    exact ⟨(hrs r' hr').withRole _, by simp [Recipient.withRole]⟩

theorem Sound.pushImage (h : e.Sound) {name : Text} (hname : name ≠ []) {source : DataSource}
    (hs : source.Valid) : (e.pushImage (.make (some name) source)).Sound := by
  refine { h with images := ?_ }
  intro r hr
  rcases List.mem_append.1 hr with hr | hr
  · exact h.images r hr
  · rw [List.mem_singleton.1 hr]
    refine ⟨Resource.make_valid hs _, ?_⟩
    simp [Resource.name, Resource.make, hname]

theorem Sound.embed (h : e.Sound) {name : Text} {data : Octets} {contentType : Text}
    (hs : e.embed name data contentType = .ok e') : e'.Sound := by
  rw [embed_eq] at hs
  split at hs
  · cases hs
  · rename_i hne
    obtain ⟨source, hsource, rfl⟩ := map_ok hs
    exact h.pushImage hne (DataSource.make_valid hsource)

theorem Sound.embedSource (h : e.Sound) {name : Option Text} {source : DataSource}
    (hsource : source.Valid) (hs : e.embedSource name source = .ok e') : e'.Sound := by
  rw [embedSource_eq] at hs
  split at hs
  · rename_i n hn
    cases hs
    apply h.pushImage _ hsource
    rcases Option.or_eq_some_iff.1 hn with hn | ⟨-, hn⟩
    · simpa using (Option.filter_eq_some_iff.1 hn).2
    · simpa using (Option.filter_eq_some_iff.1 hn).2
  · cases hs

theorem Sound.embedAll (h : e.Sound) {images : List Resource} (himages : ∀ r ∈ images, r.Valid)
    (hs : e.embedAll images = .ok e') : e'.Sound := by
  rw [embedAll_eq] at hs
  split at hs
  · cases hs
  · rename_i hnamed
    cases hs
    refine { h with images := ?_ }
    intro r hr
    rcases List.mem_append.1 hr with hr | hr
    · exact h.images r hr
    · refine ⟨himages r hr, ?_⟩
      intro hn
      exact hnamed (List.any_eq_true.2 ⟨r, hr, by simp [hn]⟩)

theorem checkHeader_valid {name value : Text} {entry : Text × Text}
    (h : checkHeader name value = .ok entry) :
    entry = (name, value) ∧ FieldName.ValidEntry entry := by
  simp only [checkHeader] at h
  split at h
  · cases h
  · split at h
    · cases h
    · split at h
      · cases h
      · split at h
        · cases h
        · rename_i hname hvalue hline
          cases h
          refine ⟨rfl, by simpa using hname, hvalue, ?_⟩
          intro c hc
          simp only [List.any_eq_true, not_exists, not_and, Bool.not_eq_true] at hline
          have hc := hline c hc
          simpa [isLineBreak] using hc

theorem Sound.setHeaders (h : e.Sound) {headers : List (Text × Text)}
    (hh : ∀ p ∈ headers, FieldName.ValidEntry p) :
    Sound { e with headers := e.headers.setAll headers } := by
  refine { h with sorted := h.sorted.setAll headers, headers := ?_ }
  intro p hp
  rcases Dictionary.mem_setAll hp with hp | hp
  · exact hh p hp
  · exact h.headers p hp

theorem Sound.addHeader (h : e.Sound) {name value : Text}
    (hs : e.addHeader name value = .ok e') : e'.Sound := by
  rw [addHeader_eq] at hs
  obtain ⟨⟨n, v⟩, hentry, rfl⟩ := map_ok hs
  have hall : ∀ p ∈ [(n, v)], FieldName.ValidEntry p := by
    intro p hp
    rw [List.mem_singleton.1 hp]
    exact (checkHeader_valid hentry).2
  exact h.setHeaders hall

theorem Sound.addHeaders (h : e.Sound) {headers : List (Text × Text)}
    (hs : e.addHeaders headers = .ok e') : e'.Sound := by
  rw [addHeaders_eq] at hs
  obtain ⟨entries, hentries, rfl⟩ := map_ok hs
  apply h.setHeaders
  intro p hp
  obtain ⟨q, -, hq⟩ := mem_mapM hentries hp
  exact (checkHeader_valid hq).2

theorem Sound.attachAll (h : e.Sound) {resources : List Resource}
    (hr : ∀ r ∈ resources, r.Valid) : (e.attachAll resources).Sound := by
  refine { h with attachments := ?_ }
  intro r hmem
  rcases List.mem_append.1 hmem with hmem | hmem
  · exact h.attachments r hmem
  · exact hr r hmem

theorem Sound.attachSource (h : e.Sound) (name : Option Text) {source : DataSource}
    (hs : source.Valid) : (e.attachSource name source).Sound := by
  apply h.attachAll
  intro r hr
  rw [List.mem_singleton.1 hr]
  exact Resource.make_valid hs _

theorem Sound.attach (h : e.Sound) {name : Option Text} {data : Octets} {contentType : Text}
    (hs : e.attach name data contentType = .ok e') : e'.Sound := by
  rw [attach_eq] at hs
  obtain ⟨source, hsource, rfl⟩ := map_ok hs
  exact h.attachSource name (DataSource.make_valid hsource)

theorem Sound.signWith (h : e.Sound) {key : SigningKey} {domain selector : Text}
    (hs : e.signWith key domain selector = .ok e') : e'.Sound := by
  rw [signWith_eq] at hs
  obtain ⟨signing, hsigning, rfl⟩ := map_ok hs
  refine { h with signing := ?_ }
  rintro s ⟨⟩
  exact Signing.make_valid hsigning

theorem Sound.setNotice (h : e.Sound) (kind : NoticeKind) {n : Notice} (hn : n.Valid) :
    (e.setNotice kind n).Sound := by
  cases kind with
  | disposition => exact { h with disposition := hn }
  | receipt => exact { h with receipt := hn }

theorem Sound.requestNotice (h : e.Sound) (kind : NoticeKind) : (e.requestNotice kind).Sound :=
  h.setNotice kind .standard

theorem Sound.requestNoticeTo (h : e.Sound) (kind : NoticeKind) {r : Recipient} (hr : r.Valid) :
    (e.requestNoticeTo kind r).Sound := h.setNotice kind (.toward hr)

theorem Sound.requestNoticeAt (h : e.Sound) {kind : NoticeKind} {address : Text}
    (hs : e.requestNoticeAt kind address = .ok e') : e'.Sound := by
  rw [requestNoticeAt_eq] at hs
  obtain ⟨r, hr, rfl⟩ := map_ok hs
  exact h.requestNoticeTo kind (interpret_valid hr)

end Email
end Epistle
