import Epistle.Email.Skeleton
import Epistle.Proofs.Address.Format
import Epistle.Proofs.Email.Reading
import Epistle.Proofs.Header.Pairs
import Epistle.Proofs.Mime.Reading

/-!
Skeletons of replies. Whatever the message that is replied to holds, the skeleton is read back with
exactly the fields that the reply calls for, from the placeholder and with its body, and it can be
read as a letter. Only a message whose fields cannot be read, or that has none, has no skeleton.
-/
namespace Epistle

namespace Skeleton

open FieldName (shown)

variable {fs : List Field} {toAll : Bool}

/-- The fields of a message that its reply depends on. -/
def consulted : List Text :=
  ["Reply-To".toList, "From".toList, "To".toList, "Cc".toList, "Subject".toList,
    "Message-ID".toList, "References".toList, "In-Reply-To".toList]

theorem fields_congr [Charsets] {fs gs : List Field}
    (h : ∀ name ∈ consulted, Field.find? fs name = Field.find? gs name) (toAll : Bool) :
    fields fs toAll = fields gs toAll := by
  have hlist : ∀ name ∈ consulted, Recipient.ofFields fs name = Recipient.ofFields gs name := by
    intro name hname
    rw [Recipient.ofFields, Recipient.ofFields, h name hname]
  have htext : ∀ name ∈ consulted, Field.textOf? fs name = Field.textOf? gs name := by
    intro name hname
    rw [Field.textOf?, Field.textOf?, h name hname]
  have haddressees : addressees fs toAll = addressees gs toAll := by
    rw [addressees, addressees, hlist _ (by decide : "Reply-To".toList ∈ consulted),
      hlist _ (by decide : "From".toList ∈ consulted),
      hlist _ (by decide : "To".toList ∈ consulted), hlist _ (by decide : "Cc".toList ∈ consulted)]
  have hthread : threadFields fs = threadFields gs := by
    rw [threadFields, threadFields, messageId?, messageId?, thread, thread,
      htext _ (by decide : "Message-ID".toList ∈ consulted),
      htext _ (by decide : "References".toList ∈ consulted),
      htext _ (by decide : "In-Reply-To".toList ∈ consulted)]
  rw [fields, fields, haddressees, hthread, subjectField, subjectField,
    htext _ (by decide : "Subject".toList ∈ consulted)]

theorem mem_keepNew {seen : List Text} {rs : List Recipient} {r : Recipient}
    (h : r ∈ (keepNew seen rs).1) : r ∈ rs := by
  induction rs generalizing seen with
  | nil => exact h
  | cons q rs ih =>
      simp only [keepNew] at h
      split at h
      · exact List.mem_cons_of_mem _ (ih h)
      · rcases List.mem_cons.1 h with rfl | h
        · exact List.mem_cons_self
        · exact List.mem_cons_of_mem _ (ih h)

theorem addressees_valid [Charsets] : (∀ r ∈ (addressees fs toAll).1, r.Valid) ∧
    ∀ r ∈ (addressees fs toAll).2, r.Valid := by
  have hfields : ∀ name r, r ∈ Recipient.ofFields fs name → r.Valid :=
    fun _ _ hr => (Recipient.ofFields_valid hr).1
  have hfirst : ∀ seen r, r ∈ (keepNew seen (if Recipient.ofFields fs "Reply-To" = [] then
      Recipient.ofFields fs "From" else Recipient.ofFields fs "Reply-To")).1 → r.Valid := by
    intro seen r hr
    have hr := mem_keepNew hr
    split at hr
    · exact hfields _ _ hr
    · exact hfields _ _ hr
  rw [addressees]
  cases toAll with
  | false => exact ⟨hfirst _, fun _ hr => nomatch hr⟩
  | true =>
      refine ⟨?_, fun _ hr => hfields _ _ (mem_keepNew hr)⟩
      intro r hr
      rcases List.mem_append.1 hr with hr | hr
      · exact hfirst _ r hr
      · exact hfields _ _ (mem_keepNew hr)

/-- The message that is replied to has an identifier that may be referred to. -/
def threaded [Charsets] (fs : List Field) : Bool :=
  (Field.textOf? fs "Message-ID").any fun t => Text.trim t ≠ [] && !Text.hasControl (Text.trim t)

/-- The names of the fields that a reply calls for, but for the one of its type. -/
def frontNames [Charsets] (fs : List Field) (toAll : Bool) : List Text :=
  ["From".toList] ++ shown "To" ((addressees fs toAll).1 ≠ []) ++
    shown "Cc" ((addressees fs toAll).2 ≠ []) ++
    shown "Subject" (Field.textOf? fs "Subject").isSome ++
    shown "In-Reply-To" (threaded fs) ++ shown "References" (threaded fs) ++
    ["MIME-Version".toList]

/-- The names of the fields that a reply calls for, in their order. -/
def names [Charsets] (fs : List Field) (toAll : Bool) : List Text :=
  frontNames fs toAll ++ ["Content-Type".toList]

theorem messageId?_isSome [Charsets] (fs : List Field) : (messageId? fs).isSome = threaded fs := by
  rw [messageId?, threaded]
  cases Field.textOf? fs "Message-ID" with
  | none => rfl
  | some t =>
      rw [Option.map_some, Option.any_some, Option.filter]
      split
      · rename_i h
        simpa using h
      · rename_i h
        simpa using h

theorem messageId?_line [Charsets] {id : Text} (h : messageId? fs = some id) : Text.OneLine id := by
  have hfit : id ≠ [] ∧ Text.hasControl id = false := by
    simpa using (Option.filter_eq_some_iff.1 h).2
  exact Text.oneLine_of_hasControl hfit.2

theorem oneLine_references [Charsets] {id : Text} (h : Text.OneLine id) :
    Text.OneLine (Text.joinWith [' '] (thread fs ++ [id])) := by
  refine Text.oneLine_joinWith (by decide) ?_
  intro t ht
  rcases List.mem_append.1 ht with ht | ht
  · have hcontrol : Text.hasControl t = false := by
      simpa using (List.mem_filter.1 ht).2
    exact Text.oneLine_of_hasControl hcontrol
  · rw [List.mem_singleton.1 ht]
    exact h

/-- A list of addressees as one text, if there are any. -/
def listText? (rs : List Recipient) : Option Text :=
  if rs = [] then none else some (Recipient.formatAll rs)

def contentType : Text := "text/plain; charset=utf-8"

/-- The names of the fields that a reply can call for. -/
def possibleNames : List Text :=
  ["From".toList, "To".toList, "Cc".toList, "Subject".toList, "In-Reply-To".toList,
    "References".toList, "MIME-Version".toList, "Content-Type".toList]

/-- What the skeleton has under each of these names. -/
def pairs [Charsets] (fs : List Field) (toAll : Bool) : List (Text × Option Text) :=
  [("From", some placeholderSender), ("To", listText? (addressees fs toAll).1),
    ("Cc", listText? (addressees fs toAll).2),
    ("Subject", (Field.textOf? fs "Subject").map fun s => EncodedWord.encode (subject s)),
    ("In-Reply-To", messageId? fs),
    ("References", (messageId? fs).map fun id => Text.joinWith [' '] (thread fs ++ [id])),
    ("MIME-Version", some "1.0"), ("Content-Type", some contentType)]

theorem names_pairs [Charsets] (fs : List Field) (toAll : Bool) :
    (pairs fs toAll).map (·.1) = possibleNames := rfl

theorem apart_pairs [Charsets] (fs : List Field) (toAll : Bool) :
    FieldName.Apart ((pairs fs toAll).map (·.1)) := by
  rw [names_pairs]
  decide

theorem listField_eq (name : Text) (rs : List Recipient) :
    listField name rs = ((listText? rs).map (Field.ofText name)).toList := by
  rw [listField, listText?]
  split <;> rfl

theorem threadFields_eq [Charsets] (fs : List Field) : threadFields fs =
    ((messageId? fs).map (Field.ofText "In-Reply-To")).toList ++
      (((messageId? fs).map fun id => Text.joinWith [' '] (thread fs ++ [id])).map
        (Field.ofText "References")).toList := by
  rw [threadFields]
  cases messageId? fs with
  | none => rfl
  | some id => rfl

theorem subjectField_eq [Charsets] (fs : List Field) : subjectField fs =
    (((Field.textOf? fs "Subject").map fun s => EncodedWord.encode (subject s)).map
      (Field.ofText "Subject")).toList := by
  rw [subjectField, Option.map_map]
  rfl

theorem fields_eq [Charsets] (fs : List Field) (toAll : Bool) :
    fields fs toAll = Field.ofPairs (pairs fs toAll) := by
  change [Field.ofText "From" placeholderSender] ++ listField "To" (addressees fs toAll).1 ++
    listField "Cc" (addressees fs toAll).2 ++ subjectField fs ++ threadFields fs ++
    [Field.ofText "MIME-Version" "1.0", Field.ofText "Content-Type" contentType] = _
  rw [listField_eq, listField_eq, subjectField_eq, threadFields_eq]
  simp only [List.append_assoc]
  rfl

theorem oneLine_listText? {rs : List Recipient} (h : ∀ r ∈ rs, r.Valid) :
    ∀ v, listText? rs = some v → Text.OneLine v := by
  intro v hv
  rw [listText?] at hv
  split at hv
  · cases hv
  · cases hv
    exact Recipient.oneLine_formatAll h

theorem oneLine_pairs [Charsets] (fs : List Field) (toAll : Bool) :
    ∀ p ∈ pairs fs toAll, ∀ v, p.2 = some v → Text.OneLine v := by
  have hsubject : ∀ v, ((Field.textOf? fs "Subject").map fun s =>
      EncodedWord.encode (subject s)) = some v → Text.OneLine v := by
    intro v hv
    obtain ⟨s, -, rfl⟩ := Option.map_eq_some_iff.1 hv
    exact EncodedWord.oneLine_encode _
  have hreferences : ∀ v, ((messageId? fs).map fun id =>
      Text.joinWith [' '] (thread fs ++ [id])) = some v → Text.OneLine v := by
    intro v hv
    obtain ⟨id, hid, rfl⟩ := Option.map_eq_some_iff.1 hv
    exact oneLine_references (messageId?_line hid)
  simp only [pairs, List.forall_mem_cons, Option.some.injEq, forall_eq', List.not_mem_nil,
    false_imp_iff, implies_true, and_true]
  exact ⟨by decide, oneLine_listText? addressees_valid.1, oneLine_listText? addressees_valid.2,
    hsubject, fun _ hid => messageId?_line hid, hreferences, by decide, by decide⟩

theorem fields_clean [Charsets] (fs : List Field) (toAll : Bool) :
    ∀ f ∈ fields fs toAll, f.Clean := by
  rw [fields_eq]
  exact Field.ofPairs_clean (apart_pairs fs toAll).valid (oneLine_pairs fs toAll)

/-- The fields of a skeleton as they are read back. -/
def readBack [Charsets] (fs : List Field) (toAll : Bool) : List Field :=
  (fields fs toAll).map Field.stripped

theorem isSome_listText? (rs : List Recipient) : (listText? rs).isSome = decide (rs ≠ []) := by
  rw [listText?]
  split
  · rename_i h
    simp [h]
  · rename_i h
    simp [h]

theorem keys_readBack [Charsets] (fs : List Field) (toAll : Bool) :
    (readBack fs toAll).map Field.key = names fs toAll := by
  have hshown : ∀ name, shown name true = [name] := fun _ => rfl
  rw [readBack, Field.keys_stripped, fields_eq, Field.keys_ofPairs (apart_pairs fs toAll).valid]
  simp only [names, frontNames, pairs, List.flatMap_cons, List.flatMap_nil, Option.isSome_some,
    Option.isSome_map, isSome_listText?, messageId?_isSome, hshown, List.append_assoc,
    List.append_nil, List.cons_append, List.nil_append]

theorem textOf?_sender [Charsets] (fs : List Field) (toAll : Bool) :
    Field.textOf? (readBack fs toAll) "From" = some placeholderSender := by
  rw [readBack, fields_eq]
  refine Field.textOf?_plain (apart_pairs fs toAll) List.mem_cons_self (by decide) (by decide) ?_
  rintro c ⟨⟩
  decide

theorem textOf?_type [Charsets] (fs : List Field) (toAll : Bool) :
    Field.textOf? (readBack fs toAll) "Content-Type" = some contentType := by
  have hmem : ("Content-Type".toList, some contentType) ∈ pairs fs toAll := by simp [pairs]
  rw [readBack, fields_eq]
  refine Field.textOf?_plain (apart_pairs fs toAll) hmem (by decide) (by decide) ?_
  rintro c ⟨⟩
  decide

theorem textOf?_absent [Charsets] {fs : List Field} {toAll : Bool} {name : Text}
    (h : ∀ key ∈ possibleNames, Text.sameName key name = false) :
    Field.textOf? (readBack fs toAll) name = none := by
  rw [readBack, fields_eq]
  exact Field.textOf?_missing (apart_pairs fs toAll).valid h

theorem type_readBack [Charsets] (fs : List Field) (toAll : Bool) :
    MediaType.ofFields false (readBack fs toAll) = MediaType.ofValue contentType := by
  rw [MediaType.ofFields, textOf?_type]
  rfl

/-- A skeleton can always be read as a letter. -/
theorem ofMessage_skeleton [Charsets] (fs : List Field) (toAll : Bool) {m : Message} {body : Octets}
    (h : Field.readBlock m.octets = .ok (readBack fs toAll, body)) :
    ∃ e, Email.ofMessage m = .ok e := by
  have hname : (MediaType.ofValue contentType).name = "text/plain".toList := rfl
  have hleaf : (MediaType.ofFields false (readBack fs toAll)).isMultipart = false := by
    rw [type_readBack, MediaType.isMultipart, hname]
    decide
  have hplace : Leaf.isAttachment ⟨readBack fs toAll, MediaType.ofValue contentType, body⟩ =
      false := by
    rw [Leaf.isAttachment, Leaf.disposition, textOf?_absent (by decide)]
    rfl
  have hdata : Leaf.data ⟨readBack fs toAll, MediaType.ofValue contentType, body⟩ = .ok body := by
    rw [Leaf.data, Leaf.encoding, textOf?_absent (by decide)]
    rfl
  have htype : Leaf.typeName ⟨readBack fs toAll, MediaType.ofValue contentType, body⟩ =
      "text/plain".toList := by
    rw [Leaf.typeName, hname]
    decide
  obtain ⟨e, he⟩ := Email.ofEntity_text hplace (.inl htype) hdata
  refine ⟨e, ?_⟩
  rw [Email.ofMessage, Entity.read_leaf h hleaf, type_readBack]
  exact he

end Skeleton

namespace Message

open LineEnding (crlf)
open Skeleton (placeholderBody placeholderSender)

theorem reply_error [Charsets] {m : Message} {toAll : Bool} : (∃ err, m.reply toAll = .error err) ↔
    (∃ err, Field.readBlock m.octets = .error err) ∨
      ∃ body, Field.readBlock m.octets = .ok ([], body) := by
  rw [reply]
  cases Field.readBlock m.octets with
  | error err => simp
  | ok block =>
      obtain ⟨fs, body⟩ := block
      cases fs with
      | nil => simp
      | cons f fs => simp

/-- The skeleton of a reply is read back with the fields that it was written with. -/
theorem readBlock_reply [Charsets] {m s : Message} {toAll : Bool} (h : m.reply toAll = .ok s) :
    ∃ fs body, Field.readBlock m.octets = .ok (fs, body) ∧
      Field.readBlock s.octets = .ok (Skeleton.readBack fs toAll, Utf8.encode placeholderBody) := by
  rw [reply] at h
  split at h
  · cases h
  · cases h
  · rename_i fs body _ hread
    cases h
    exact ⟨fs, body, hread, Field.readBlock_writeAll (Skeleton.fields_clean fs toAll) _⟩

/-- A reply fails only for want of fields. Its skeleton is read back with the fields that the reply
calls for, from the placeholder and with its body, and it is a letter. -/
theorem reply_wellFormed [Charsets] (m : Message) (toAll : Bool) :
    ((∃ err, m.reply toAll = .error err) ↔
      (∃ err, Field.readBlock m.octets = .error err) ∨
        ∃ body, Field.readBlock m.octets = .ok ([], body)) ∧
    ∀ s, m.reply toAll = .ok s → ∃ fs body gs, Field.readBlock m.octets = .ok (fs, body) ∧
      Field.readBlock s.octets = .ok (gs, Utf8.encode placeholderBody) ∧
      gs.map Field.key = Skeleton.names fs toAll ∧
      Field.textOf? gs "From" = some placeholderSender ∧ ∃ e, Email.ofMessage s = .ok e := by
  refine ⟨reply_error, ?_⟩
  intro s hs
  obtain ⟨fs, body, hread, hback⟩ := readBlock_reply hs
  exact ⟨fs, body, Skeleton.readBack fs toAll, hread, hback, Skeleton.keys_readBack fs toAll,
    Skeleton.textOf?_sender fs toAll, Skeleton.ofMessage_skeleton fs toAll hback⟩

/-- A field whose value hides a line break and a field behind it. -/
def hostileField : Field :=
  Field.ofText "Message-ID" (EncodedWord.encode "<a@x.com>\r\nBcc: evil@x.com".toList)

theorem hostileField_key : hostileField.key = "Message-ID".toList :=
  Field.key_ofText (by decide) _

theorem find?_hostile {name : Text} (h : Text.sameName "Message-ID" name = false) :
    Field.find? [hostileField] name = none := by
  apply Field.find?_eq_none
  intro key hkey
  rw [List.map_singleton, List.mem_singleton, hostileField_key] at hkey
  rwa [hkey]

theorem names_hostile [Charsets] : Skeleton.names [hostileField] true =
    ["From".toList, "MIME-Version".toList, "Content-Type".toList] := by
  have htext : Field.textOf? [hostileField] "Message-ID" =
      some "<a@x.com>\r\nBcc: evil@x.com".toList := by
    rw [Field.textOf?, Field.find?_cons (by rw [hostileField_key]; decide), Option.map_some,
      hostileField, Field.text_ofText, Token.decodeValue_encode]
    · intro h
      exact absurd h (by decide)
    · rintro c ⟨⟩
      decide
  have hthread : Skeleton.threaded [hostileField] = false := by
    rw [Skeleton.threaded, htext]
    decide
  have hnone : ∀ name : Text, Text.sameName "Message-ID" name = false →
      Recipient.ofFields [hostileField] name = [] := by
    intro name h
    rw [Recipient.ofFields, find?_hostile h]
    rfl
  have haddressees : Skeleton.addressees [hostileField] true = ([], []) := by
    simp only [Skeleton.addressees, hnone "Reply-To" (by decide), hnone "From" (by decide),
      hnone "To" (by decide), hnone "Cc" (by decide)]
    rfl
  have hsubject : Field.textOf? [hostileField] "Subject" = none := by
    rw [Field.textOf?, find?_hostile (by decide)]
    rfl
  rw [Skeleton.names, Skeleton.frontNames, hthread, haddressees, hsubject]
  decide

theorem reply_wellFormed_hostile : ∃ s gs,
    reply ⟨Field.writeAll [hostileField] ++ crlf ++ []⟩ true = .ok s ∧
    Field.readBlock s.octets = .ok (gs, Utf8.encode placeholderBody) ∧
    gs.map Field.key = ["From".toList, "MIME-Version".toList, "Content-Type".toList] := by
  have hclean : ∀ f ∈ [hostileField], f.Clean := by
    intro f hf
    rw [List.mem_singleton.1 hf]
    exact Field.ofText_clean (by decide) (EncodedWord.oneLine_encode _)
  have hread := Field.readBlock_writeAll hclean []
  have hself : [hostileField].map Field.stripped = [hostileField] := by
    rw [List.map_singleton, hostileField, Field.stripped_ofText]
    rfl
  rw [hself] at hread
  obtain ⟨hfails, hspec⟩ := reply_wellFormed ⟨Field.writeAll [hostileField] ++ crlf ++ []⟩ true
  cases hs : reply ⟨Field.writeAll [hostileField] ++ crlf ++ []⟩ true with
  | error err =>
      rcases hfails.1 ⟨err, hs⟩ with ⟨_, h⟩ | ⟨_, h⟩
      · rw [hread] at h
        cases h
      · rw [hread] at h
        cases h
  | ok s =>
      obtain ⟨fs, body, gs, hblock, hback, hkeys, -⟩ := hspec s hs
      rw [hread] at hblock
      cases hblock
      rw [names_hostile] at hkeys
      exact ⟨s, gs, rfl, hback, hkeys⟩

end Message
end Epistle
