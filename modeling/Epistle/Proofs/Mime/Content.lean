import Epistle.Mime.Body
import Epistle.Proofs.Mime.Part
import Epistle.Proofs.Mime.Type
import Epistle.Proofs.Transfer.LineEnding

/-!
What the fields of a part say to a reader. The type, the disposition, the transfer encoding and the
name by which other parts refer to it are read as they were meant, also where the fields of the
head stand in front of them.
-/
namespace Epistle

namespace Part

open Token.Spelling (Plain)

/-- The fields among `fs` that describe content are those of the part. -/
def Describes (fs : List Field) (part : Part Text) : Prop :=
  ∀ target ∈ contentNames,
    Field.find? fs target = Field.find? (part.fields.map Field.stripped) target

theorem describes_fields (part : Part Text) : Describes (part.fields.map Field.stripped) part :=
  fun _ _ => rfl

variable {fs : List Field} {part : Part Text}

theorem Describes.textOf?_eq [Charsets] (h : Describes fs part) {target : Text}
    {value : Option Text} (hm : (target, value) ∈ part.pairs) : Field.textOf? fs target =
      Field.textOf? ((Field.ofPairs part.pairs).map Field.stripped) target := by
  have ht : target ∈ contentNames := by
    rw [← names_pairs part]
    exact List.mem_map_of_mem (f := Prod.fst) hm
  rw [Field.textOf?, h target ht, fields_pairs, Field.textOf?]

theorem Describes.textOf?_plain [Charsets] (h : Describes fs part) {target v : Text}
    (hm : (target, some v) ∈ part.pairs) (hplain : Plain v) (hline : Text.OneLine v)
    (hstart : ∀ c, v.head? = some c → Text.isBlank c = false) :
    Field.textOf? fs target = some v := by
  rw [h.textOf?_eq hm, Field.textOf?_plain part.apart_pairs hm hplain hline hstart]

theorem Describes.textOf? [Charsets] (h : Describes fs part) {target : Text} {value : Option Text}
    (hm : (target, value) ∈ part.pairs)
    (hstart : ∀ v, value = some v → ∀ c, v.head? = some c → Text.isBlank c = false) :
    Field.textOf? fs target = value.map Token.decodeValue := by
  rw [h.textOf?_eq hm, Field.textOf?_ofPairs part.apart_pairs hm hstart]

theorem Describes.textOf?_none [Charsets] (h : Describes fs part) {target : Text}
    (hm : (target, none) ∈ part.pairs) : Field.textOf? fs target = none :=
  h.textOf? hm fun _ hv => nomatch hv

/-- A leaf that has the fields and the body of a part. -/
structure Shows [Charsets] (l : Leaf) (part : Part Text) : Prop where
  fields : Describes l.fields part
  type : l.type = MediaType.ofFields false l.fields
  body : l.body = part.body

theorem Describes.shows [Charsets] (h : Describes fs part) :
    Shows ⟨fs, MediaType.ofFields false fs, part.body⟩ part := ⟨h, rfl, rfl⟩

theorem type_of_textOf? [Charsets] {value : Text}
    (h : Field.textOf? fs "Content-Type" = some value) :
    MediaType.ofFields false fs = MediaType.ofValue value := by
  rw [MediaType.ofFields, h]
  rfl

/-- The type of a text. -/
def textType (subtype : Text) : Text := "text/".toList ++ subtype ++ "; charset=utf-8".toList

theorem ofValue_textType [Charsets] {subtype : Text} (hs : subtype ∈ textTypes) :
    MediaType.ofValue (textType subtype) =
      ⟨"text/".toList ++ subtype, [("charset".toList, "utf-8".toList)]⟩ := by
  simp only [textTypes, List.mem_cons, List.not_mem_nil, or_false] at hs
  rcases hs with rfl | rfl <;> rfl

theorem Describes.type_text [Charsets] {subtype body : Text} (h : Describes fs (.text subtype body))
    (hs : subtype ∈ textTypes) :
    MediaType.ofFields false fs = MediaType.ofValue (textType subtype) := by
  have hall : ∀ s ∈ textTypes, Plain (textType s) ∧ Text.OneLine (textType s) ∧
      (textType s).head?.any Text.isBlank = false := by decide
  obtain ⟨hplain, hline, hhead⟩ := hall subtype hs
  refine type_of_textOf? (h.textOf?_plain List.mem_cons_self hplain hline ?_)
  intro c hc
  rwa [hc] at hhead

theorem Describes.isMultipart_text [Charsets] {subtype body : Text}
    (h : Describes fs (.text subtype body))
    (hs : subtype ∈ textTypes) : (MediaType.ofFields false fs).isMultipart = false := by
  rw [h.type_text hs, ofValue_textType hs]
  rfl

theorem Describes.type_message [Charsets] {m : Message} (h : Describes fs (.message m)) :
    MediaType.ofFields false fs = ⟨"message/rfc822", []⟩ := by
  have hvalue : MediaType.IsValue "message/rfc822".toList := ⟨by decide, by decide⟩
  rw [← MediaType.ofValue_alone hvalue]
  exact type_of_textOf? (h.textOf?_plain List.mem_cons_self (by decide) hvalue.oneLine hvalue.start)

/-- The keys of the parameters that parts are written with. -/
def parameterNames : List Text := ["name".toList, "filename".toList, "boundary".toList]

theorem isPlainName_of_mem {key : Text} (h : key ∈ parameterNames) :
    Parameters.IsPlainName key := by
  have hall : ∀ key ∈ parameterNames, (∀ c ∈ key, Case.isSmall c) ∧ Text.trim (' ' :: key) = key ∧
      '=' ∉ key ∧ ';' ∉ key ∧ Parameters.withoutEnd? ['*'] key = none ∧
      Parameters.withoutEnd? "*0".toList key = none := by decide
  obtain ⟨hsmall, htrim, hequals, hsemicolon, hstar, hfirst⟩ := hall key h
  exact ⟨hsmall, htrim, hequals, hsemicolon, hstar, hfirst⟩

theorem oneLine_of_mem {key : Text} (h : key ∈ parameterNames) : Text.OneLine key := by
  have hall : ∀ key ∈ parameterNames, Text.OneLine key := by decide
  exact hall key h

/-- How a name is written inside the quotes of a parameter, and what a reader takes it for. -/
inductive Reads [Charsets] : Option Text → Option Text → Prop where
  | none : Reads none none
  | some {written name : Text} : (∀ front, Front front →
      Token.decodeValue (front ++ written ++ ['"']) = front ++ name ++ ['"']) →
      Reads (some written) (some name)

variable {head key : Text} {written name : Option Text}

theorem start_withParameter (hh : MediaType.IsValue head) (key : Text) (name : Option Text) :
    ∀ c, (withParameter head key name).head? = some c → Text.isBlank c = false := by
  obtain ⟨d, more, rfl⟩ := List.exists_cons_of_ne_nil hh.ne_nil
  cases name with
  | none => exact hh.start
  | some n => exact hh.start

theorem Reads.decodeValue [Charsets] (h : Reads written name) (hh : MediaType.IsValue head)
    (hk : key ∈ parameterNames) :
    Token.decodeValue (withParameter head key written) = withParameter head key name := by
  cases h with
  | none =>
      refine Token.decodeValue_plain ?_ hh.oneLine hh.start
      exact Text.lacks_of_not_mem_left hh.equals
  | some h => exact h _ (hh.front (isPlainName_of_mem hk) (oneLine_of_mem hk))

/-- Whatever the name is, the value in front of it is read as it was written. -/
theorem decodeValue_written [Charsets] (hh : MediaType.IsValue head) (hk : key ∈ parameterNames)
    (name : Option Text) : ∃ more,
      Token.decodeValue (withParameter head key (name.map parameter)) = head ++ more ∧
        ∀ c, more.head? = some c → c = ';' := by
  cases name with
  | none =>
      refine ⟨[], ?_, fun c hc => nomatch hc⟩
      rw [List.append_nil]
      exact Token.decodeValue_plain (Text.lacks_of_not_mem_left hh.equals) hh.oneLine hh.start
  | some n =>
      have hfront := hh.front (isPlainName_of_mem hk) (oneLine_of_mem hk)
      have hquote : Text.OneLine ['"'] := by decide
      have hlast : (head ++ "; ".toList ++ key ++ "=\"".toList).getLast? ≠ some '=' := by
        rw [hfront.quote]
        decide
      have hline : Text.OneLine (head ++ "; ".toList ++ key ++ "=\"".toList ++
          (parameter n ++ ['"'])) := by
        simp only [Text.oneLine_append]
        exact ⟨by simpa only [Text.oneLine_append] using hfront.line, oneLine_parameter n, hquote⟩
      obtain ⟨more, hmore⟩ :=
        Token.decodeValue_front hfront.plain hlast hfront.ne_nil hline hfront.start
      refine ⟨"; ".toList ++ key ++ "=\"".toList ++ more, ?_, ?_⟩
      · rw [Option.map_some, withParameter, List.append_assoc _ (parameter n), hmore]
        simp only [List.append_assoc]
      · rintro c ⟨⟩
        rfl

theorem read_withParameter [Charsets] (hh : MediaType.IsValue head) (hk : key ∈ parameterNames)
    (hname : ∀ n, name = some n → ';' ∉ n) :
    Parameterized.read (withParameter head key name) =
      ⟨head, (name.map fun n => (key, n)).toList⟩ := by
  cases name with
  | none =>
      rw [withParameter, Parameterized.read_alone hh.semicolon hh.trim]
      rfl
  | some n =>
      rw [withParameter, Parameterized.read_quoted hh.semicolon hh.trim (isPlainName_of_mem hk)
        (hname n rfl)]
      rfl

theorem reads_plain [Charsets] {n : Text} (h : Plain n) (hl : Text.OneLine n) :
    Reads (some n) (some n) :=
  .some fun _ hf => decodeValue_plainName hf h hl

theorem IsBoundary.not_mem {b : Text} (hb : IsBoundary b) {c : Char}
    (hc : Mint.isBoundaryChar c = false) : c ∉ b := by
  obtain ⟨number, now, rfl⟩ := hb
  intro hmem
  rw [Mint.isBoundaryChar_of_mem hmem] at hc
  cases hc

theorem IsBoundary.oneLine {b : Text} (hb : IsBoundary b) : Text.OneLine b := by
  obtain ⟨number, now, rfl⟩ := hb
  exact Mint.oneLine_boundaryText number now

theorem isValue_containerType {subtype : Text} (h : subtype ∈ containerTypes) :
    MediaType.IsValue ("multipart/".toList ++ subtype) := by
  have hall : ∀ s ∈ containerTypes,
      ∀ c ∈ "multipart/".toList ++ s, MediaType.isValueChar c := by decide
  exact ⟨by simp, hall subtype h⟩

/-- The type of a container is read with its boundary. -/
theorem Describes.type_multipart [Charsets] {subtype boundary : Text} {parts : List (Part Text)}
    (h : Describes fs (.multipart subtype boundary parts)) (hs : subtype ∈ containerTypes)
    (hb : IsBoundary boundary) : MediaType.ofFields false fs =
      ⟨"multipart/".toList ++ subtype, [("boundary".toList, boundary)]⟩ := by
  have hvalue := isValue_containerType hs
  have hkey : "boundary".toList ∈ parameterNames := by decide
  have hreads : Reads (some boundary) (some boundary) :=
    reads_plain (Text.lacks_of_not_mem (hb.not_mem (by decide))) hb.oneLine
  have htext := h.textOf? List.mem_cons_self fun v hv => by
    cases hv
    exact start_withParameter hvalue _ _
  rw [Option.map_some, hreads.decodeValue hvalue hkey] at htext
  rw [type_of_textOf? htext]
  exact MediaType.ofValue_quoted hvalue (isPlainName_of_mem hkey) (hb.not_mem (by decide))

section Resource

variable {r : Resource} {inPlace : Bool}

/-- The type of a resource is read, whatever the name behind it. -/
theorem Describes.type_resource [Charsets] (h : Describes fs (.resource r inPlace))
    (ht : MediaType.IsValue r.source.contentType) :
    (MediaType.ofFields false fs).name = r.source.contentType := by
  have htext := h.textOf? List.mem_cons_self fun v hv => by
    cases hv
    exact start_withParameter ht _ _
  obtain ⟨more, hvalue, hmore⟩ := decodeValue_written ht (by decide : "name".toList ∈ _) r.name
  rw [Option.map_some, hvalue] at htext
  rw [type_of_textOf? htext, MediaType.name_ofValue ht hmore]

theorem Describes.type_unnamed [Charsets] (h : Describes fs (.resource r inPlace))
    (ht : MediaType.IsValue r.source.contentType) (hn : r.name = none) :
    MediaType.ofFields false fs = ⟨r.source.contentType, []⟩ := by
  have htext := h.textOf? List.mem_cons_self fun v hv => by
    cases hv
    exact start_withParameter ht _ _
  have hplain : Token.decodeValue r.source.contentType = r.source.contentType :=
    Token.decodeValue_plain (Text.lacks_of_not_mem_left ht.equals) ht.oneLine ht.start
  rw [hn, Option.map_none, withParameter, Option.map_some, hplain] at htext
  rw [type_of_textOf? htext, MediaType.ofValue_alone ht]

/-- The word that says how to show a part. -/
def placement (inPlace : Bool) : Text := if inPlace then "inline" else "attachment"

theorem isValue_placement (inPlace : Bool) : MediaType.IsValue (placement inPlace) := by
  cases inPlace with
  | false => exact ⟨by decide, by decide⟩
  | true => exact ⟨by decide, by decide⟩

theorem Describes.decode_disposition [Charsets] (h : Describes fs (.resource r inPlace)) :
    Field.textOf? fs "Content-Disposition" = some (Token.decodeValue
      (withParameter (placement inPlace) "filename" (r.name.map parameter))) := by
  have hmem : ("Content-Disposition".toList,
      some (withParameter (placement inPlace) "filename" (r.name.map parameter))) ∈
        pairs (.resource r inPlace) :=
    List.mem_cons_of_mem _ (List.mem_cons_of_mem _ List.mem_cons_self)
  exact h.textOf? hmem fun v hv => by
    cases hv
    exact start_withParameter (isValue_placement inPlace) _ _

theorem Describes.disposition_resource [Charsets] (h : Describes fs (.resource r inPlace))
    (hr : Reads (r.name.map parameter) name) : Field.textOf? fs "Content-Disposition" =
      some (withParameter (placement inPlace) "filename" name) := by
  rw [h.decode_disposition, hr.decodeValue (isValue_placement inPlace) (by decide)]

theorem Describes.encoding_resource [Charsets] (h : Describes fs (.resource r inPlace)) :
    Field.textOf? fs "Content-Transfer-Encoding" = some "base64".toList := by
  have hvalue : MediaType.IsValue "base64".toList := ⟨by decide, by decide⟩
  refine h.textOf?_plain ?_ (by decide) hvalue.oneLine hvalue.start
  exact List.mem_cons_of_mem _ (List.mem_cons_of_mem _ (List.mem_cons_of_mem _ List.mem_cons_self))

end Resource

end Part
end Epistle
