import Epistle.Proofs.Email.Resources

/-!
What a letter keeps of its body when it is rendered and read again. Whichever parts it has, and so
whichever containers are around them, its texts come back with plain line feeds, its images and
attachments in their order with all they carry, and the forwarded message octet for octet.
-/
namespace Epistle

open LineEnding (collapse)
open Epistle.Part (Shows Piece ShowsAll)

namespace Email

variable {e : Email} {leaves : List Leaf}

/-- A letter whose body holds nothing that a reader could take for something else. -/
structure Portable (e : Email) : Prop where
  text : ∀ t, e.text = some t → t.head? ≠ some Charset.byteOrderMark
  html : ∀ t, e.html = some t → t.head? ≠ some Charset.byteOrderMark
  images : ∀ r ∈ e.images, r.Embeddable
  attachments : ∀ r ∈ e.attachments, r.Attachable

/-- `e'` has the body of `e`, with plain line feeds and without empty texts. -/
structure SameBody (e e' : Email) : Prop where
  text : e'.text = (e.text.map collapse).filter (· ≠ [])
  html : e'.html = (e.html.map collapse).filter (· ≠ [])
  images : e'.images.map contentOf = e.images.map contentOf
  attachments : e'.attachments = e.attachments
  forwarded : e'.forwarded = e.forwarded

/-- A letter whose body can be read, though the names of its attachments may not be. -/
structure Quotable (e : Email) : Prop where
  text : ∀ t, e.text = some t → t.head? ≠ some Charset.byteOrderMark
  html : ∀ t, e.html = some t → t.head? ≠ some Charset.byteOrderMark
  images : ∀ r ∈ e.images, r.Embeddable
  attachments : ∀ r ∈ e.attachments, r.Simple

theorem Portable.quotable (hp : e.Portable) : e.Quotable :=
  ⟨hp.text, hp.html, hp.images, fun r hr => (hp.attachments r hr).simple⟩

theorem Quotable.separable (hp : e.Quotable) : e.Separable :=
  ⟨fun r hr => (hp.images r hr).addressable, hp.attachments⟩

/-- A text that is there comes back with plain line feeds, unless it is empty. -/
theorem Meets.prose? [Charsets] {text : Option Text} {subtype : Text} {p : Place}
    (h : Meets p leaves (text.map (Piece.text subtype)).toList) (hs : subtype ∈ Part.textTypes)
    (hp : "text/".toList ++ subtype = p.type)
    (hmark : ∀ t, text = some t → t.head? ≠ some Charset.byteOrderMark) :
    (leaves.find? (Leaf.offers p)).bind Leaf.prose? = (text.map collapse).filter (· ≠ []) := by
  obtain ⟨ls, hl, hfind⟩ := h
  rw [hfind]
  cases text with
  | none =>
      cases hl
      rfl
  | some t =>
      obtain _ | ⟨hshows, ⟨⟩⟩ := hl
      have hplace := Leaf.place?_text hshows hs hp
      have htext : p ≠ .forwarded := by
        rintro rfl
        exact absurd (List.isPrefixOf_iff_prefix.2 ⟨subtype, hp⟩) (by decide)
      rw [List.find?_singleton, prose?_offered htext hplace,
        Leaf.prose?_text hshows hs (hmark t rfl)]
      rfl

/-- A message that is carried comes back octet for octet. -/
theorem Meets.content [Charsets] {forwarded : Option Message}
    (h : Meets .forwarded leaves (forwarded.map Piece.message).toList) :
    ((leaves.find? (Leaf.offers .forwarded)).map fun l => Message.mk l.content) = forwarded := by
  obtain ⟨ls, hl, hfind⟩ := h
  rw [hfind]
  cases forwarded with
  | none =>
      cases hl
      rfl
  | some m =>
      obtain _ | ⟨hshows, ⟨⟩⟩ := hl
      rw [List.find?_singleton, if_pos (Leaf.offers_message hshows), Option.map_some,
        Leaf.content_message hshows]

theorem contentOf_quoted_embeddable {r : Resource} (hr : r.Embeddable) :
    contentOf r.quoted = contentOf r :=
  (contentOf_quoted_iff r).2 fun n hn =>
    Resource.ne_of_chars (hr.name_chars n hn) (by decide) (by decide)

/-- The attachment of a leaf, and what it is read as. -/
def Filed [Charsets] (r a : Resource) : Prop :=
  ∃ l, Shows l (.resource r false) ∧ a = r.filed l.fileName?

theorem filed_attachments [Charsets] {rs : List Resource}
    (hl : ShowsAll leaves (rs.map (Piece.resource · false)))
    (hr : ∀ r ∈ rs, r.Simple ∧ r.Valid) : List.Forall₂ Filed rs (leaves.map Leaf.attachment) := by
  induction rs generalizing leaves with
  | nil =>
      cases hl
      exact .nil
  | cons r rs ih =>
      obtain _ | ⟨hshows, hrest⟩ := hl
      obtain ⟨hfirst, hothers⟩ := List.forall_mem_cons.1 hr
      exact .cons ⟨_, hshows, Leaf.attachment_filed hshows hfirst.1 hfirst.2⟩ (ih hrest hothers)

theorem filed_eq [Charsets] {rs as : List Resource} (h : List.Forall₂ Filed rs as)
    (hr : ∀ r ∈ rs, r.Attachable) : as = rs := by
  induction h with
  | nil => rfl
  | cons hfirst _ ih =>
      obtain ⟨hattachable, hr⟩ := List.forall_mem_cons.1 hr
      obtain ⟨l, hshows, rfl⟩ := hfirst
      rw [Leaf.filed_eq_self hshows hattachable, ih hr]

/-- A quotable letter comes back with its body, but for the names of its attachments. -/
theorem Sound.ofMessage_quotable [Charsets] (h : e.Sound) (hp : e.Quotable) {mint : Mint}
    (hq : e.Quiet mint) : ∃ as e', List.Forall₂ Filed e.attachments as ∧
      ofMessage (e.render mint).1 = .ok e' ∧ SameBody { e with attachments := as } e' := by
  obtain ⟨e', leaves, text, htext, hsorted, hread, hconserves⟩ := h.read_sorted hp.separable hq
  have hmark : ∀ t, text = some t → t.head? ≠ some Charset.byteOrderMark := by
    rintro t rfl
    rcases htext with htext | ⟨-, ⟨⟩⟩
    · exact hp.text t htext.symm
    · simp
  have hsame : (text.map collapse).filter (· ≠ []) = (e.text.map collapse).filter (· ≠ []) := by
    rcases htext with rfl | ⟨hnone, rfl⟩
    · rfl
    · rw [hnone]
      rfl
  have hplain := hsorted.text.prose? (by decide) (by decide) hmark
  have hrich := hsorted.html.prose? (by decide) (by decide) hp.html
  have himages : e'.images = e.images.map Resource.quoted := hconserves.images.trans
    (map_image_quoted hsorted.images fun r hr =>
      ⟨(hp.images r hr).addressable, h.images r hr⟩)
  refine ⟨_, e', filed_attachments hsorted.attachments fun r hr =>
    ⟨hp.attachments r hr, h.attachments r hr⟩, hread, ?_⟩
  exact {
    text := (hconserves.text.trans hplain).trans hsame
    html := hconserves.html.trans hrich
    images := by
      rw [himages, List.map_map]
      exact List.map_congr_left fun r hr => contentOf_quoted_embeddable (hp.images r hr)
    attachments := hconserves.attachments
    forwarded := hconserves.forwarded.trans hsorted.forwarded.content }

/-- A portable letter comes back with its body, unless a line of it is one of the boundaries. -/
theorem ofMessage_render_body [Charsets] (h : Reachable e) (hp : e.Portable) {mint : Mint}
    (hq : e.Quiet mint) : ∃ e', ofMessage (e.render mint).1 = .ok e' ∧ e.SameBody e' := by
  obtain ⟨as, e', hfiled, hread, hsame⟩ := h.sound.ofMessage_quotable hp.quotable hq
  rw [filed_eq hfiled hp.attachments] at hsame
  exact ⟨e', hread, hsame⟩

def noteField : Field := Field.ofText "Subject" (EncodedWord.encode "Friday".toList)

/-- A message to forward. -/
def note : Message :=
  ⟨Field.writeAll [noteField] ++ LineEnding.crlf ++ Utf8.encode "Shall we?\r\n".toList⟩

theorem subject_note [Charsets] : note.subject = .ok (some "Friday".toList) := by
  have hclean : ∀ f ∈ [noteField], f.Clean := by
    intro f hf
    rw [List.mem_singleton.1 hf]
    exact Field.ofText_clean (by decide) (EncodedWord.oneLine_encode _)
  have hfind : Field.find? [noteField] "Subject" = some noteField :=
    Field.find?_cons (by rw [noteField, Field.key_ofText (by decide)]; decide) []
  have htext : noteField.stripped.text = "Friday".toList :=
    Field.text_encode _ (by decide) (by decide)
  rw [Message.subject, Message.header, note, Field.readBlock_writeAll hclean]
  simp only [Field.textOf?, Field.find?_stripped, hfind, Option.map_some, htext]

def parcel : Email :=
  { empty with
    subject := some "Fwd: Friday".toList
    text := some "Héllo\r\nJane".toList
    html := some "<img src=\"cid:logo\">".toList
    images := [⟨some "logo".toList, ⟨none, "image/png".toList, [0x89, 0x50, 0x4E, 0x47]⟩⟩]
    attachments := [⟨some (EncodedWord.encode "résumé.pdf".toList),
      ⟨none, "application/pdf".toList, [0x25, 0x50, 0x44, 0x46]⟩⟩]
    forwarded := some note }

theorem parcel_reachable [Charsets] : Reachable parcel := by
  have hfirst := Reachable.empty.write (.setText (some "Héllo\r\nJane".toList)) trivial rfl rfl
  have hsecond := hfirst.write (.setHtml (some "<img src=\"cid:logo\">".toList)) trivial rfl rfl
  have hthird := hsecond.write (.embed "logo".toList [0x89, 0x50, 0x4E, 0x47] "image/png".toList)
    trivial rfl rfl
  have hfourth := hthird.write (.attach (some "résumé.pdf".toList) [0x25, 0x50, 0x44, 0x46]
    "application/pdf".toList) trivial rfl rfl
  refine hfourth.write (.forward (.message note)) trivial rfl ?_
  refine (congrArg Prod.fst (primeForward_apply (.message note) _ _)).trans ?_
  simp only [Parent.asMessage, Mint.pure_apply, subject_note]
  rfl

theorem parcel_portable : parcel.Portable := by
  have hpng : MediaType.IsSimple "image/png".toList :=
    ⟨"image".toList, "png".toList, rfl, by decide⟩
  have hpdf : MediaType.IsSimple "application/pdf".toList :=
    ⟨"application".toList, "pdf".toList, rfl, by decide⟩
  have hname : Resource.PortableName "résumé.pdf".toList :=
    ⟨by decide, by decide, by decide, by decide⟩
  refine ⟨?_, ?_, ?_, ?_⟩
  · rintro t ⟨⟩
    decide
  · rintro t ⟨⟩
    decide
  · intro r hr
    rw [List.mem_singleton.1 hr]
    refine ⟨hpng, by decide, by decide, ?_, ?_, ?_⟩
    all_goals
      rintro n ⟨⟩
      decide
  · intro r hr
    rw [List.mem_singleton.1 hr]
    refine ⟨hpdf, by decide, some "résumé.pdf".toList, [0x25, 0x50, 0x44, 0x46],
      "application/pdf".toList, _, by decide, rfl, ?_⟩
    rintro n ⟨⟩
    exact hname

theorem parcel_quiet (mint : Mint) : parcel.Quiet mint := by
  refine quiet_of_no_dash ?_ ?_ ?_
  · rintro t ⟨⟩
    decide
  · rintro t ⟨⟩
    decide
  · rintro m ⟨⟩
    decide

theorem ofMessage_render_body_parcel : ∃ e', ofMessage (parcel.render ⟨0, fun _ => 0⟩).1 = .ok e' ∧
    e'.text = some "Héllo\nJane".toList ∧ e'.html = parcel.html ∧
    e'.images.map contentOf =
      [(some "logo".toList, "image/png".toList, [0x89, 0x50, 0x4E, 0x47])] ∧
    e'.attachments = parcel.attachments ∧ e'.forwarded = some note := by
  obtain ⟨e', hread, hsame⟩ :=
    ofMessage_render_body parcel_reachable parcel_portable (parcel_quiet ⟨0, fun _ => 0⟩)
  exact ⟨e', hread, hsame.text, hsame.html, hsame.images, hsame.attachments, hsame.forwarded⟩

end Email
end Epistle
