import Epistle.Email.Render
import Epistle.Proofs.Address.Format
import Epistle.Proofs.Email.Invariant
import Epistle.Proofs.Mime.Part

/-!
A rendered letter has the fields that its letter calls for and no others, each on one line and in
the fixed order, whatever its texts hold: no value can add a field, remove one or move one.
-/
namespace Epistle
namespace Email

open LineEnding (crlf)
open FieldName (shown)

variable {e : Email}

/-- The fields in front of those of the body, as they are rendered from `mint`. -/
def topFields (e : Email) (mint : Mint) : List Field :=
  e.fields (e.messageId mint).1 (Date.format (Mint.readClock (e.messageId mint).2).1)

/-- The body as it is rendered from `mint`. -/
def topPart (e : Email) (mint : Mint) : Part Text :=
  (e.part.stamp (Mint.readClock (e.messageId mint).2).2).1

theorem render_octets (e : Email) (mint : Mint) :
    (e.render mint).1.octets =
      Field.writeAll (e.topFields mint ++ (e.topPart mint).fields) ++ crlf ++
        (e.topPart mint).body := by
  have hrender : (e.render mint).1.octets =
      Field.writeAll (e.topFields mint) ++ (e.topPart mint).write := rfl
  rw [hrender, Part.write]
  simp only [Field.writeAll, List.flatMap_append, List.append_assoc]

/-- The names of the custom headers that are no part of the structure of a message. -/
def customNames (e : Email) : List Text :=
  (e.headers.map (·.1)).filter fun name => !FieldName.isStructural name

/-- The names of the fields that the letter calls for, in their order. -/
def fieldNames (e : Email) : List Text :=
  ["Message-ID".toList, "Date".toList] ++ shown "From" e.sender.isSome ++
    shown "Reply-To" e.replyTo.isSome ++
    shown "To" (e.recipients.entries.any (·.role == some .direct)) ++
    shown "Cc" (e.recipients.entries.any (·.role == some .copy)) ++
    shown "Subject" e.subject.isSome ++
    shown "Disposition-Notification-To" (e.resolve e.disposition).isSome ++
    shown "Return-Receipt-To" (e.resolve e.receipt).isSome ++
    e.customNames ++ ["MIME-Version".toList] ++ e.part.fieldNames

theorem domainOf?_subset {address domain : Text} (h : domainOf? address = some domain) :
    domain ⊆ address := by
  simp only [domainOf?] at h
  split at h
  · cases h
    intro c hc
    exact List.mem_reverse.1 ((List.takeWhile_sublist _).subset (List.mem_reverse.1 hc))
  · cases h

theorem Sound.oneLine_domain (h : e.Sound) : Text.OneLine e.domain := by
  have hlocal : Text.OneLine "missive.local".toList := by decide
  rw [domain]
  cases hs : e.sender with
  | none => exact hlocal
  | some r =>
      rw [Option.bind_some]
      cases hd : domainOf? r.address with
      | none => exact hlocal
      | some d =>
          have hcontrol := (h.sender r hs).valid.address_control
          exact Text.oneLine_of_hasControl
            (Text.hasControl_of_subset (domainOf?_subset hd) hcontrol)

theorem Sound.oneLine_messageId (h : e.Sound) (mint : Mint) :
    Text.OneLine (e.messageId mint).1 := by
  rw [messageId]
  cases hid : e.id.filter (fun id => !Text.hasControl id) with
  | none => exact Mint.oneLine_messageIdText _ _ h.oneLine_domain
  | some id =>
      have hcontrol : Text.hasControl id = false := by
        simpa using (Option.filter_eq_some_iff.1 hid).2
      exact Text.oneLine_of_hasControl hcontrol

/-- What holds of all whom a notice may go to holds of whoever it goes to. -/
theorem forall_resolve {p : Recipient → Prop} {n : Notice}
    (hexplicit : ∀ r, n.explicit? = some r → p r) (hreplyTo : ∀ r, e.replyTo = some r → p r)
    (hsender : ∀ r, e.sender = some r → p r) : ∀ r, e.resolve n = some r → p r := by
  intro r hr
  rw [resolve] at hr
  split at hr
  · rcases Option.or_eq_some_iff.1 hr with hr | ⟨-, hr⟩
    · rcases Option.or_eq_some_iff.1 hr with hr | ⟨-, hr⟩
      · exact hexplicit r hr
      · exact hreplyTo r hr
    · exact hsender r hr
  · cases hr

theorem Sound.ofRole (h : e.Sound) (role : Role) : ∀ r ∈ e.recipients.ofRole role, r.Valid :=
  fun r hr => (h.recipients r (List.mem_filter.1 hr).1).1

theorem ofRole_eq_nil {l : RecipientList} {role : Role} :
    l.ofRole role = [] ↔ l.entries.any (·.role == some role) = false := by
  simp [RecipientList.ofRole, List.filter_eq_nil_iff]

/-- The recipients in a role as one text, if there are any. -/
def listText? (e : Email) (role : Role) : Option Text :=
  if Recipient.formatAll (e.recipients.ofRole role) = [] then none
  else some (Recipient.formatAll (e.recipients.ofRole role))

/-- The names of a letter's own fields. -/
def headNames : List Text :=
  ["Message-ID".toList, "Date".toList, "From".toList, "Reply-To".toList, "To".toList, "Cc".toList,
    "Subject".toList, "Disposition-Notification-To".toList, "Return-Receipt-To".toList]

/-- What the letter has under each of these names when it is rendered from `mint`. -/
def pairs (e : Email) (mint : Mint) : List (Text × Option Text) :=
  [("Message-ID", some (e.messageId mint).1),
    ("Date", some (Date.format (Mint.readClock (e.messageId mint).2).1)),
    ("From", e.sender.map Recipient.format), ("Reply-To", e.replyTo.map Recipient.format),
    ("To", e.listText? .direct), ("Cc", e.listText? .copy),
    ("Subject", e.subject.map EncodedWord.encode),
    ("Disposition-Notification-To", (e.resolve e.disposition).map Recipient.format),
    ("Return-Receipt-To", (e.resolve e.receipt).map Recipient.format)]

theorem names_pairs (e : Email) (mint : Mint) : (e.pairs mint).map (·.1) = headNames := rfl

theorem apart_pairs (e : Email) (mint : Mint) : FieldName.Apart ((e.pairs mint).map (·.1)) := by
  rw [names_pairs]
  decide

theorem mailboxField_eq (name : Text) (r : Option Recipient) :
    mailboxField name r = ((r.map Recipient.format).map (Field.ofText name)).toList := by
  cases r with
  | none => rfl
  | some r => rfl

theorem subjectField_eq (s : Option Text) :
    subjectField s = ((s.map EncodedWord.encode).map (Field.ofText "Subject")).toList := by
  cases s with
  | none => rfl
  | some s => rfl

theorem listField_eq (e : Email) (role : Role) :
    listField e role = ((e.listText? role).map (Field.ofText role.fieldName)).toList := by
  rw [listField, listText?]
  split <;> rfl

theorem topFields_eq (e : Email) (mint : Mint) : e.topFields mint =
    Field.ofPairs (e.pairs mint) ++ (customFields e ++ [Field.ofText "MIME-Version" "1.0"]) := by
  rw [topFields, fields, mailboxField_eq, mailboxField_eq, mailboxField_eq, mailboxField_eq,
    listField_eq, listField_eq, subjectField_eq]
  simp only [Field.ofPairs, pairs, List.flatMap_cons, List.flatMap_nil, List.append_assoc,
    List.append_nil, Option.map_some, Option.toList_some, List.cons_append, List.nil_append,
    Role.fieldName]

theorem Sound.isSome_listText? (h : e.Sound) (role : Role) :
    (e.listText? role).isSome = e.recipients.entries.any (·.role == some role) := by
  have hnil := Recipient.formatAll_eq_nil (h.ofRole role)
  rw [ofRole_eq_nil] at hnil
  rw [listText?]
  by_cases hf : Recipient.formatAll (e.recipients.ofRole role) = []
  · rw [if_pos hf, hnil.1 hf]
    rfl
  · rw [if_neg hf]
    simpa using fun hn => hf (hnil.2 hn)

theorem oneLine_mailbox {r : Option Recipient} (hr : ∀ r', r = some r' → r'.Alone) :
    ∀ v, r.map Recipient.format = some v → Text.OneLine v := by
  intro v hv
  obtain ⟨r', hr', rfl⟩ := Option.map_eq_some_iff.1 hv
  exact (hr r' hr').valid.oneLine_format

theorem Sound.oneLine_listText? (h : e.Sound) (role : Role) :
    ∀ v, e.listText? role = some v → Text.OneLine v := by
  intro v hv
  rw [listText?] at hv
  split at hv
  · cases hv
  · cases hv
    exact Recipient.oneLine_formatAll (h.ofRole role)

theorem oneLine_subject {s : Option Text} :
    ∀ v, s.map EncodedWord.encode = some v → Text.OneLine v := by
  intro v hv
  obtain ⟨t, -, rfl⟩ := Option.map_eq_some_iff.1 hv
  exact EncodedWord.oneLine_encode t

theorem Sound.oneLine_pairs (h : e.Sound) (mint : Mint) :
    ∀ p ∈ e.pairs mint, ∀ v, p.2 = some v → Text.OneLine v := by
  simp only [pairs, List.forall_mem_cons, Option.some.injEq, forall_eq', List.not_mem_nil,
    false_imp_iff, implies_true, and_true]
  exact ⟨h.oneLine_messageId mint, Date.oneLine_format _, oneLine_mailbox h.sender,
    oneLine_mailbox h.replyTo, h.oneLine_listText? .direct, h.oneLine_listText? .copy,
    oneLine_subject, oneLine_mailbox (forall_resolve h.disposition.alone h.replyTo h.sender),
    oneLine_mailbox (forall_resolve h.receipt.alone h.replyTo h.sender)⟩

theorem Sound.shownHeaders (h : e.Sound) :
    e.shownHeaders = e.headers.filter fun p => !FieldName.isStructural p.1 := by
  apply List.filter_congr
  rintro ⟨n, v⟩ hp
  have hvalid : FieldName.isValid n := (h.headers _ hp).name
  simp [hvalid]

theorem Sound.customFields_clean (h : e.Sound) : ∀ f ∈ customFields e, f.Clean := by
  intro f hf
  obtain ⟨⟨n, v⟩, hp, rfl⟩ := List.mem_map.1 hf
  rw [h.shownHeaders] at hp
  have hname := (h.headers _ (List.mem_filter.1 hp).1).name
  exact Field.ofText_clean hname (EncodedWord.oneLine_encode v)

theorem Sound.keys_customFields (h : e.Sound) :
    (customFields e).map Field.key = e.customNames := by
  have hkey : ∀ p ∈ e.shownHeaders,
      (Field.ofText p.1 (EncodedWord.encode p.2)).key = p.1 := by
    intro p hp
    rw [h.shownHeaders] at hp
    exact Field.key_ofText (h.headers _ (List.mem_filter.1 hp).1).name _
  rw [customFields, List.map_map, customNames, List.filter_map]
  change _ = (e.headers.filter fun p => !FieldName.isStructural p.1).map (·.1)
  rw [← h.shownHeaders]
  exact List.map_congr_left hkey

/-- Custom fields stand in the order of the octets of their names, each name once. -/
theorem Sound.customNames_sorted (h : e.Sound) :
    e.customNames.Pairwise fun a b => Utf8.encode a < Utf8.encode b := by
  have hnames : (e.headers.map (·.1)).Pairwise (· < ·) := List.pairwise_map.2 h.sorted
  refine (hnames.filter _).imp_of_mem ?_
  intro a b ha hb hlt
  obtain ⟨p, hp, rfl⟩ := List.mem_map.1 (List.mem_filter.1 ha).1
  obtain ⟨q, hq, rfl⟩ := List.mem_map.1 (List.mem_filter.1 hb).1
  exact FieldName.encode_lt (h.headers p hp).name (h.headers q hq).name hlt

theorem version_valid : FieldName.isValid "MIME-Version".toList := by decide

theorem Sound.topFields_clean (h : e.Sound) (mint : Mint) : ∀ f ∈ e.topFields mint, f.Clean := by
  have hversion : Text.OneLine "1.0".toList := by decide
  simp only [topFields_eq, List.forall_mem_append, List.forall_mem_cons, List.not_mem_nil,
    false_imp_iff, implies_true, and_true]
  exact ⟨Field.ofPairs_clean (e.apart_pairs mint).valid (h.oneLine_pairs mint),
    h.customFields_clean, Field.ofText_clean version_valid hversion⟩

theorem Sound.keys_topFields (h : e.Sound) (mint : Mint) :
    (e.topFields mint).map Field.key ++ e.part.fieldNames = e.fieldNames := by
  have hshown : ∀ name, shown name true = [name] := fun _ => rfl
  rw [topFields_eq, List.map_append, List.map_append, Field.keys_ofPairs (e.apart_pairs mint).valid,
    h.keys_customFields, List.map_singleton, Field.key_ofText version_valid]
  simp only [fieldNames, pairs, List.flatMap_cons, List.flatMap_nil, Option.isSome_some,
    Option.isSome_map, h.isSome_listText?, hshown, List.append_assoc, List.cons_append,
    List.nil_append]

/-- The parts inside the alternative of the texts. -/
def textParts (e : Email) : List (Part Unit) :=
  (e.text.map (Part.text "plain")).toList ++ (e.html.map (Part.text "html")).toList

/-- The parts inside what the texts refer to. -/
def relatedParts (e : Email) : List (Part Unit) :=
  (Part.container? "alternative" e.textParts).toList ++ e.images.map fun r => .resource r true

/-- The parts of the whole. -/
def mixedParts (e : Email) : List (Part Unit) :=
  (Part.container? "related" e.relatedParts).toList ++
    (e.attachments.map fun r => .resource r false) ++ (e.forwarded.map Part.message).toList

theorem part_eq (e : Email) :
    e.part = (Part.container? "mixed" e.mixedParts).getD (.text "plain" []) := rfl

theorem textParts_valid (e : Email) : ∀ p ∈ e.textParts, p.Valid fun _ => True := by
  intro p hp
  rcases List.mem_append.1 hp with hp | hp
  · obtain ⟨t, -, rfl⟩ := Option.map_eq_some_iff.1 (Option.mem_toList.1 hp)
    exact List.mem_cons_self
  · obtain ⟨t, -, rfl⟩ := Option.map_eq_some_iff.1 (Option.mem_toList.1 hp)
    exact List.mem_cons_of_mem _ List.mem_cons_self

theorem Sound.relatedParts_valid (h : e.Sound) : ∀ p ∈ e.relatedParts, p.Valid fun _ => True := by
  intro p hp
  rcases List.mem_append.1 hp with hp | hp
  · refine Part.container?_valid ?_ trivial e.textParts_valid (Option.mem_toList.1 hp)
    decide
  · obtain ⟨r, hr, rfl⟩ := List.mem_map.1 hp
    exact (h.images r hr).1

theorem Sound.mixedParts_valid (h : e.Sound) : ∀ p ∈ e.mixedParts, p.Valid fun _ => True := by
  intro p hp
  rcases List.mem_append.1 hp with hp | hp
  · rcases List.mem_append.1 hp with hp | hp
    · refine Part.container?_valid ?_ trivial h.relatedParts_valid (Option.mem_toList.1 hp)
      decide
    · obtain ⟨r, hr, rfl⟩ := List.mem_map.1 hp
      exact h.attachments r hr
  · obtain ⟨m, -, rfl⟩ := Option.map_eq_some_iff.1 (Option.mem_toList.1 hp)
    trivial

theorem Sound.part_valid (h : e.Sound) : e.part.Valid fun _ => True := by
  rw [part_eq]
  cases hc : Part.container? "mixed" e.mixedParts with
  | none => exact List.mem_cons_self
  | some p =>
      refine Part.container?_valid ?_ trivial h.mixedParts_valid hc
      decide

/-- The fields of a rendered letter as they are read back. -/
def readBack (e : Email) (mint : Mint) : List Field :=
  (e.topFields mint ++ (e.topPart mint).fields).map Field.stripped

theorem Sound.topPart_valid (h : e.Sound) (mint : Mint) :
    (e.topPart mint).Valid Part.IsBoundary := h.part_valid.stamp _

theorem Sound.readBlock_octets (h : e.Sound) (mint : Mint) :
    Field.readBlock (e.render mint).1.octets = .ok (e.readBack mint, (e.topPart mint).body) := by
  have hclean : ∀ f ∈ e.topFields mint ++ (e.topPart mint).fields, f.Clean :=
    List.forall_mem_append.2
      ⟨h.topFields_clean mint, Part.fields_clean (h.topPart_valid mint)⟩
  rw [render_octets]
  exact Field.readBlock_writeAll hclean _

theorem Sound.keys_readBack (h : e.Sound) (mint : Mint) :
    (e.readBack mint).map Field.key = e.fieldNames := by
  rw [readBack, Field.keys_stripped, List.map_append, Part.keys_fields, topPart,
    Part.fieldNames_stamp]
  exact h.keys_topFields mint

/-- What a program renders is read back as exactly the fields that its letter calls for. -/
theorem readBlock_render [Charsets] (h : Reachable e) (mint : Mint) :
    ∃ fields, Field.readBlock (e.render mint).1.octets = .ok (fields, (e.topPart mint).body) ∧
      fields.map Field.key = e.fieldNames ∧
      e.customNames.Pairwise fun a b => Utf8.encode a < Utf8.encode b :=
  ⟨e.readBack mint, h.sound.readBlock_octets mint, h.sound.keys_readBack mint,
    h.sound.customNames_sorted⟩

/-- A letter whose subject tries to bring in a field of its own. -/
def hostile : Email := { empty with subject := some "Hi\r\nBcc: evil@x.com".toList }

theorem readBlock_render_hostile :
    Reachable hostile ∧ ∃ fields body,
      Field.readBlock (hostile.render ⟨0, fun _ => 0⟩).1.octets = .ok (fields, body) ∧
      fields.map Field.key = ["Message-ID".toList, "Date".toList, "Subject".toList,
        "MIME-Version".toList, "Content-Type".toList, "Content-Transfer-Encoding".toList] := by
  have hset : ((Step.setSubject "Hi\r\nBcc: evil@x.com".toList).apply ∅ ⟨0, fun _ => 0⟩).1 =
      .ok hostile := rfl
  have hreach : Reachable hostile := by
    refine Reachable.empty.step ?_ ?_ hset
    · trivial
    · exact fun p hp => nomatch hp
  obtain ⟨fields, hread, hkeys, -⟩ := readBlock_render hreach ⟨0, fun _ => 0⟩
  exact ⟨hreach, fields, _, hread, hkeys⟩

end Email
end Epistle
