import Epistle.Proofs.Mime.Content

/-!
What the leaves of a part are read as. Texts come back with plain line feeds, messages and the data
of resources octet for octet, and resources under the names they were given.
-/
namespace Epistle
namespace Part

variable [Charsets] {l : Leaf}

theorem isAttachment_of_none (h : Field.textOf? l.fields "Content-Disposition" = none) :
    l.isAttachment = false := by
  rw [Leaf.isAttachment, Leaf.disposition, h]
  rfl

namespace Shows

section Text

variable {subtype body : Text}

theorem isAttachment_text (h : Shows l (.text subtype body)) : l.isAttachment = false :=
  isAttachment_of_none (h.fields.textOf?_none (by simp [pairs]))

theorem typeName_text (h : Shows l (.text subtype body)) (hs : subtype ∈ textTypes) :
    l.typeName = "text/".toList ++ subtype := by
  have hall : ∀ s ∈ textTypes, Text.lowerAscii ("text/".toList ++ s) = "text/".toList ++ s := by
    decide
  rw [Leaf.typeName, h.type, h.fields.type_text hs, ofValue_textType hs]
  exact hall subtype hs

theorem charset_text (h : Shows l (.text subtype body)) (hs : subtype ∈ textTypes) :
    l.type.charset = "utf-8" := by
  rw [h.type, h.fields.type_text hs, ofValue_textType hs]
  rfl

theorem encoding_text (h : Shows l (.text subtype body)) :
    l.encoding = if LineEnding.isSevenBit body then .identity else .base64 := by
  have hmem : ("Content-Transfer-Encoding".toList, some (textEncoding body)) ∈
      pairs (.text subtype body) := by
    simp [pairs]
  have hvalue : MediaType.IsValue (textEncoding body) := by
    rw [textEncoding]
    split
    · exact ⟨by decide, by decide⟩
    · exact ⟨by decide, by decide⟩
  have htext := h.fields.textOf?_plain hmem (Text.lacks_of_not_mem_left hvalue.equals)
    hvalue.oneLine hvalue.start
  rw [Leaf.encoding, htext, textEncoding]
  split
  · decide
  · decide

/-- The content of a text arrives, only its line endings changed where it was sent as it is. -/
theorem data_text (h : Shows l (.text subtype body)) : l.data =
    .ok (if LineEnding.isSevenBit body then LineEnding.expand (Utf8.encode body)
      else Utf8.encode body) := by
  have hbody : l.body = textBody body := h.body
  rw [Leaf.data, h.encoding_text, hbody, textBody]
  split
  · rfl
  · rw [TransferEncoding.decode, Base64.decodeBody?_encodeWrapped]

theorem text_text (h : Shows l (.text subtype body)) (hs : subtype ∈ textTypes)
    (hmark : body.head? ≠ some Charset.byteOrderMark) :
    ∃ sent, l.text = .ok sent ∧ LineEnding.collapse sent = LineEnding.collapse body := by
  rw [Leaf.text, h.data_text, h.charset_text hs]
  by_cases hplain : LineEnding.isSevenBit body
  · have hall : body.all LineEnding.isPlain := by
      rw [LineEnding.isSevenBit, Bool.and_eq_true] at hplain
      exact hplain.1
    obtain ⟨sent, hsent, hfirst, hlines⟩ := LineEnding.exists_of_expand hall
    refine ⟨sent, ?_, hlines⟩
    rw [if_pos hplain, hsent, Except.map, Charset.decodeLabelled_encode hfirst]
  · refine ⟨body, ?_, rfl⟩
    rw [if_neg hplain, Except.map, Charset.decodeLabelled_encode hmark]

end Text

section Message

variable {m : Message}

theorem isAttachment_message (h : Shows l (.message m)) : l.isAttachment = false :=
  isAttachment_of_none (h.fields.textOf?_none (by simp [pairs]))

theorem typeName_message (h : Shows l (.message m)) : l.typeName = "message/rfc822".toList := by
  rw [Leaf.typeName, h.type, h.fields.type_message]
  decide

theorem data_message (h : Shows l (.message m)) : l.data = .ok m.octets := by
  have hbody : l.body = m.octets := h.body
  have hmem : ("Content-Transfer-Encoding".toList, none) ∈ pairs (.message m) := by simp [pairs]
  rw [Leaf.data, Leaf.encoding, h.fields.textOf?_none hmem, hbody]
  rfl

end Message

section Resource

variable {r : Resource} {inPlace : Bool} {name : Option Text}

theorem data_resource (h : Shows l (.resource r inPlace)) : l.data = .ok r.source.data := by
  have hbody : l.body = Utf8.encode (Base64.encodeWrapped r.source.data) := h.body
  have hbase : TransferEncoding.ofName "base64" = .base64 := by decide
  rw [Leaf.data, Leaf.encoding, h.fields.encoding_resource, hbody, Option.map_some,
    Option.getD_some, hbase, TransferEncoding.decode, Base64.decodeBody?_encodeWrapped]

theorem typeName_resource (h : Shows l (.resource r inPlace))
    (ht : MediaType.IsValue r.source.contentType) : l.typeName = r.source.contentType := by
  rw [Leaf.typeName, h.type, h.fields.type_resource ht, ht.lowerAscii]

theorem isAttachment_resource (h : Shows l (.resource r inPlace)) :
    l.isAttachment = !inPlace := by
  have hplace := isValue_placement inPlace
  obtain ⟨more, hvalue, hmore⟩ :=
    decodeValue_written hplace (by decide : "filename".toList ∈ parameterNames) r.name
  rw [Leaf.isAttachment, Leaf.disposition, h.fields.decode_disposition, hvalue, Option.map_some,
    Option.getD_some, Parameterized.value_read hplace.semicolon hplace.trim hmore, hplace.lower]
  cases inPlace with
  | false => decide
  | true => decide

/-- The file name is the name that was written, if there is one. -/
theorem fileName?_resource (h : Shows l (.resource r inPlace))
    (hr : Reads (r.name.map parameter) name) (ht : MediaType.IsValue r.source.contentType)
    (hname : ∀ n, name = some n → ';' ∉ n) : l.fileName? = name := by
  have hkey : "filename".toList ∈ parameterNames := by decide
  have hplace := read_withParameter (isValue_placement inPlace) hkey hname
  rw [Leaf.fileName?, Leaf.disposition, h.fields.disposition_resource hr, Option.map_some,
    Option.getD_some, hplace]
  cases name with
  | some n => rfl
  | none =>
      have hnone : r.name = none := by
        generalize hwritten : r.name.map parameter = written at hr
        cases hr
        exact Option.map_eq_none_iff.1 hwritten
      rw [h.type, h.fields.type_unnamed ht hnone]
      rfl

/-- A named resource in place is referred to by its name as it is quoted. -/
theorem contentId?_image (h : Shows l (.resource r true)) {n quoted : Text} (hn : r.name = some n)
    (hquoted : parameter n = quoted) (hplain : Token.Spelling.Plain quoted)
    (hline : Text.OneLine quoted) (hne : quoted ≠ []) (hangles : '<' ∉ quoted ∧ '>' ∉ quoted) :
    l.contentId? = some quoted := by
  have hmem : ("Content-ID".toList, some (['<'] ++ quoted ++ ['>'])) ∈
      pairs (.resource r true) := by
    simp [pairs, hn, hquoted]
  have hplain' : Token.Spelling.Plain (['<'] ++ quoted ++ ['>']) := by
    rw [Token.Spelling.Plain, Text.lacks_append, Text.lacks_append]
    exact ⟨⟨trivial, hplain, fun hc => absurd hc (by decide)⟩, trivial, fun _ => by decide⟩
  have hstart : ∀ c, (['<'] ++ quoted ++ ['>']).head? = some c → Text.isBlank c = false := by
    rintro c ⟨⟩
    decide
  have hend : ∀ c, (['<'] ++ quoted ++ ['>']).getLast? = some c → Text.isBlank c = false := by
    intro c hc
    rw [List.getLast?_append] at hc
    cases hc
    decide
  have htext := h.fields.textOf?_plain hmem hplain' (oneLine_reference hline) hstart
  have hopen : (['<'] ++ quoted ++ ['>']).dropWhile (· == '<') = quoted ++ ['>'] := by
    obtain ⟨c, more, rfl⟩ := List.exists_cons_of_ne_nil hne
    have hc : c ≠ '<' := fun hc => hangles.1 (by simp [hc])
    have hjoin : ['<'] ++ (c :: more) ++ ['>'] = '<' :: c :: (more ++ ['>']) := rfl
    rw [hjoin, List.dropWhile_cons_of_pos (by decide),
      List.dropWhile_cons_of_neg (by simpa using hc)]
    rfl
  have hclose : Text.dropEndWhile (· == '>') (quoted ++ ['>']) = quoted := by
    rw [Text.dropEndWhile_concat (by decide), Text.dropEndWhile_eq_self]
    intro c hc
    have hne' : c ≠ '>' := by
      rintro rfl
      exact hangles.2 (List.mem_of_getLast? hc)
    simpa using hne'
  rw [Leaf.contentId?, htext, Option.map_some, Text.trim_eq_self hstart hend, hopen, hclose,
    Option.filter_some, if_pos (by simpa using hne)]

end Resource

end Shows

end Part
end Epistle
