import Epistle.Proofs.Address.Spelling
import Epistle.Proofs.Email.Conservation

/-!
What each leaf of a rendered letter is read as. Texts and the forwarded message have their places,
images and attachments are kept under the names that are found, and a name that a reader can take
for the name that was given is given again.
-/
namespace Epistle

open LineEnding (collapse)
open Epistle.Part (Shows Reads)
open Token.Spelling (Plain)

namespace Resource

/-- A resource of a type in small letters that has no parts. -/
structure Simple (r : Resource) : Prop where
  type : MediaType.IsSimple r.source.contentType
  single : "multipart/".toList.isPrefixOf r.source.contentType = false

/-- An image whose name its text can refer to and no reader can mistake. -/
structure Embeddable (r : Resource) : Prop where
  type : MediaType.IsSimple r.source.contentType
  single : "multipart/".toList.isPrefixOf r.source.contentType = false
  place : r.source.contentType ∉ ["text/plain".toList, "text/html".toList, "message/rfc822".toList]
  name_control : ∀ n, r.name = some n → Text.hasControl n = false
  name_chars : ∀ n, r.name = some n → ∀ c ∈ ['"', '\\', '<', '>'], c ∉ n
  name_plain : ∀ n, r.name = some n → Plain n

/-- A name that survives inside the quotes of a parameter. -/
structure PortableName (n : Text) : Prop where
  ne_nil : n ≠ []
  control : Text.hasControl n = false
  chars : ∀ c ∈ ['"', '\\', ';'], c ∉ n
  plain : n.all Text.isAscii → Plain n

/-- An attachment that was added by its data, under such a name or none. -/
structure Attachable (r : Resource) : Prop where
  type : MediaType.IsSimple r.source.contentType
  single : "multipart/".toList.isPrefixOf r.source.contentType = false
  made : ∃ name data contentType source, DataSource.make data contentType = .ok source ∧
    r = make (name.map EncodedWord.encode) source ∧ ∀ n, name = some n → PortableName n

/-- The attachment as it is read under a file name. -/
def filed (r : Resource) (name : Option Text) : Resource :=
  make (name.map EncodedWord.encode) ⟨none, r.source.contentType, r.source.data⟩

/-- An image of a type that no place of a letter is for, under a name that holds nothing a reader
takes for a bracket or an encoded word. -/
structure Addressable (r : Resource) : Prop where
  simple : r.Simple
  place : r.source.contentType ∉ ["text/plain".toList, "text/html".toList, "message/rfc822".toList]
  name_control : ∀ n, r.name = some n → Text.hasControl n = false
  name_angles : ∀ n, r.name = some n → '<' ∉ n ∧ '>' ∉ n
  name_plain : ∀ n, r.name = some n → Plain n

/-- The image as it is read. -/
def quoted (r : Resource) : Resource :=
  ⟨r.name.map Quoted.escape, ⟨none, r.source.contentType, r.source.data⟩⟩

variable {r : Resource} {n : Text}

theorem Embeddable.simple (h : r.Embeddable) : r.Simple := ⟨h.type, h.single⟩

theorem Attachable.simple (h : r.Attachable) : r.Simple := ⟨h.type, h.single⟩

theorem ne_of_chars {cs : List Char} (h : ∀ c ∈ cs, c ∉ n) (hslash : '\\' ∈ cs)
    (hquote : '"' ∈ cs) : ∀ c ∈ n, c ≠ '\\' ∧ c ≠ '"' := by
  intro c hc
  constructor
  · rintro rfl
    exact h _ hslash hc
  · rintro rfl
    exact h _ hquote hc

theorem Embeddable.addressable (h : r.Embeddable) : r.Addressable where
  simple := h.simple
  place := h.place
  name_control := h.name_control
  name_angles := fun n hn => ⟨h.name_chars n hn _ (by decide), h.name_chars n hn _ (by decide)⟩
  name_plain := h.name_plain

theorem Addressable.parameter (h : r.Addressable) (hn : r.name = some n) :
    Part.parameter n = Quoted.escape n := by
  rw [Part.parameter, Text.withoutControls_eq_self (h.name_control n hn)]

theorem encode_ne_nil (h : n ≠ []) : EncodedWord.encode n ≠ [] := by
  by_cases hp : n.all Text.isPrintable
  · rwa [EncodedWord.encode, if_pos hp]
  · intro hnil
    have hhead := EncodedWord.head?_encode hp
    rw [hnil] at hhead
    cases hhead

/-- The name of an attachment is written in its header form. -/
theorem name_make {name data contentType source}
    (hs : DataSource.make data contentType = .ok source)
    (hn : ∀ n, name = some n → PortableName n) :
    (make (name.map EncodedWord.encode) source).name = name.map EncodedWord.encode := by
  obtain ⟨-, -, -, rfl⟩ := DataSource.make_ok hs
  cases name with
  | none => rfl
  | some n =>
      have hne := encode_ne_nil (hn n rfl).ne_nil
      simp [Resource.name, make, hne]

theorem reads_encode [Charsets] (h : PortableName n) :
    Reads (some (Part.parameter (EncodedWord.encode n))) (some n) := by
  have hchars := ne_of_chars h.chars (by decide) (by decide)
  have hself : Part.parameter (EncodedWord.encode n) = EncodedWord.encode n :=
    Part.parameter_eq_self
      (Text.hasControl_of_isPrintable fun c hc => EncodedWord.isPrintable_encode hc)
      fun c hc => EncodedWord.ne_of_mem_encode hchars hc
  rw [hself]
  exact .some fun front hf => Part.decodeValue_name hf h.control h.plain

theorem reads_make [Charsets] {name data contentType source}
    (hs : DataSource.make data contentType = .ok source)
    (hn : ∀ n, name = some n → PortableName n) :
    Reads ((make (name.map EncodedWord.encode) source).name.map Part.parameter) name := by
  rw [name_make hs hn]
  cases name with
  | none => exact .none
  | some n => exact reads_encode (hn n rfl)

end Resource

namespace Leaf

variable {l : Leaf} {r : Resource} {inPlace : Bool}

theorem prose?_text [Charsets] {subtype t : Text} (h : Shows l (.text subtype t))
    (hs : subtype ∈ Part.textTypes) (hmark : t.head? ≠ some Charset.byteOrderMark) :
    l.prose? = (some (collapse t)).filter (· ≠ []) := by
  obtain ⟨sent, hsent, hlines⟩ := h.text_text hs hmark
  rw [prose?, hsent, ← hlines]
  rfl

theorem place?_text [Charsets] {subtype t : Text} {p : Place} (h : Shows l (.text subtype t))
    (hs : subtype ∈ Part.textTypes) (hp : "text/".toList ++ subtype = p.type) :
    l.place? = some p :=
  Email.place?_eq_some.2 ⟨h.isAttachment_text, (h.typeName_text hs).trans hp⟩

theorem place?_message [Charsets] {m : Message} (h : Shows l (.message m)) :
    l.place? = some .forwarded :=
  Email.place?_eq_some.2 ⟨h.isAttachment_message, h.typeName_message⟩

theorem offers_message [Charsets] {m : Message} (h : Shows l (.message m)) :
    l.offers .forwarded = true := by
  simp [offers, place?_message h]

theorem content_message [Charsets] {m : Message} (h : Shows l (.message m)) :
    l.content = m.octets := by
  rw [content, h.data_message]
  rfl

theorem content_resource [Charsets] (h : Shows l (.resource r inPlace)) :
    l.content = r.source.data := by
  rw [content, h.data_resource]
  rfl

theorem source_resource [Charsets] (h : Shows l (.resource r inPlace)) (hr : r.Simple)
    (hv : r.Valid) : l.source = ⟨none, r.source.contentType, r.source.data⟩ := by
  rw [source, content_resource h, h.typeName_resource hr.type.isValue, hv.source.type_trimmed]

theorem fault?_resource [Charsets] (h : Shows l (.resource r inPlace)) (hr : r.Simple)
    (hv : r.Valid) : l.fault? = none := by
  have hblank := Text.allBlank_of_trim hv.source.type_trimmed hv.source.type_ne
  rw [fault?, h.data_resource, h.typeName_resource hr.type.isValue, hblank, hv.source.type_control]
  simp

theorem place?_attachment [Charsets] (h : Shows l (.resource r false)) : l.place? = none := by
  rw [place?, h.isAttachment_resource]
  rfl

theorem keep_attachment [Charsets] (h : Shows l (.resource r false)) (hv : r.Valid) :
    l.keep = .attachment := by
  rw [keep, content_resource h, if_neg hv.source.data_ne, h.isAttachment_resource]
  rfl

theorem place?_image [Charsets] (h : Shows l (.resource r true)) (hr : r.Addressable) :
    l.place? = none := by
  have htype := h.typeName_resource hr.simple.type.isValue
  cases hp : l.place? with
  | none => rfl
  | some p =>
      rw [(Email.place?_eq_some.1 hp).2] at htype
      refine absurd ?_ hr.place
      rw [← htype]
      cases p <;> decide

theorem contentId?_quoted [Charsets] (h : Shows l (.resource r true)) (hr : r.Addressable)
    {n : Text} (hn : r.name = some n) (hne : n ≠ []) : l.contentId? = some (Quoted.escape n) := by
  obtain ⟨hopen, hclose⟩ := hr.name_angles n hn
  refine h.contentId?_image hn (hr.parameter hn) (Token.Spelling.plain_escape (hr.name_plain n hn))
    (Quoted.oneLine_escape (Text.oneLine_of_hasControl (hr.name_control n hn)))
    (Quoted.escape_ne_nil hne) ⟨fun hc => ?_, fun hc => ?_⟩
  · exact (Quoted.mem_escape hc).elim hopen (by decide)
  · exact (Quoted.mem_escape hc).elim hclose (by decide)

theorem image_quoted [Charsets] (h : Shows l (.resource r true)) (hr : r.Addressable)
    (hv : r.Valid ∧ r.name ≠ none) : l.keep = .image ∧ l.image = r.quoted := by
  obtain ⟨n, hn⟩ := Option.ne_none_iff_exists'.1 hv.2
  have hne : n ≠ [] := by
    rintro rfl
    exact hv.1.name_ne hn
  have hid := contentId?_quoted h hr hn hne
  constructor
  · rw [keep, content_resource h, if_neg hv.1.source.data_ne, h.isAttachment_resource, hid]
    rfl
  · rw [image, hid, source_resource h hr.simple hv.1, Resource.quoted, hn]
    rfl

theorem attachment_filed [Charsets] (h : Shows l (.resource r false)) (hr : r.Simple)
    (hv : r.Valid) : l.attachment = r.filed l.fileName? := by
  rw [attachment, source_resource h hr hv, Resource.filed]

/-- An attachment whose name the reader finds is read as it was. -/
theorem filed_eq_self [Charsets] {r : Resource} (h : Shows l (.resource r false))
    (hr : r.Attachable) : r.filed l.fileName? = r := by
  obtain ⟨name, data, contentType, source, hsource, rfl, hname⟩ := hr.made
  have hfile := h.fileName?_resource (Resource.reads_make hsource hname) hr.type.isValue
    fun n hn => (hname n hn).chars _ (by decide)
  obtain ⟨-, -, -, rfl⟩ := DataSource.make_ok hsource
  rw [hfile]
  rfl

end Leaf

end Epistle
