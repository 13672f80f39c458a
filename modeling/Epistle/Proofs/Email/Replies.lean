import Epistle.Proofs.Email.BodyRoundTrip
import Epistle.Proofs.Email.Skeleton

/-!
Replies to a letter and to the message that it was rendered as. Both take their skeleton from a
rendering, which says the same of the letter whenever it was made, and both quote the same texts and
carry the same images, one from the letter and the other from what is read of the message.
-/
namespace Epistle

open LineEnding (collapse)

namespace Email

variable {e e' b : Email} {toAll : Bool}

/-- A message with fields has a skeleton that depends on its fields alone. -/
theorem skeletonOf_eq [Charsets] {m : Message} {fs : List Field} {body : Octets}
    (h : Field.readBlock m.octets = .ok (fs, body)) (hne : fs ≠ []) (toAll : Bool) :
    skeletonOf m toAll = ofMessage ⟨Field.writeAll (Skeleton.fields fs toAll) ++ LineEnding.crlf ++
      Utf8.encode Skeleton.placeholderBody⟩ := by
  cases fs with
  | nil => exact absurd rfl hne
  | cons f fs =>
      rw [skeletonOf, Message.reply, h]

theorem skeletonOf_ok [Charsets] {m : Message} {fs : List Field} {body : Octets}
    (h : Field.readBlock m.octets = .ok (fs, body)) (hne : fs ≠ []) (toAll : Bool) :
    ∃ skeleton, skeletonOf m toAll = .ok skeleton := by
  rw [skeletonOf_eq h hne]
  exact Skeleton.ofMessage_skeleton fs toAll
    (Field.readBlock_writeAll (Skeleton.fields_clean fs toAll) _)

theorem Sound.readBack_ne_nil (h : e.Sound) (mint : Mint) : e.readBack mint ≠ [] := by
  intro hnil
  have hkeys := h.keys_readBack mint
  rw [hnil] at hkeys
  cases hkeys

/-- All renderings of a letter with an identifier of its own have the same skeleton. -/
theorem Sound.skeletonOf_render [Charsets] (h : e.Sound) (hid : e.id ≠ none) (toAll : Bool)
    (mint mint' : Mint) :
    skeletonOf (e.render mint).1 toAll = skeletonOf (e.render mint').1 toAll := by
  have hall : ∀ name ∈ Skeleton.consulted, Text.sameName "Date" name = false ∧
      ∀ content ∈ Part.contentNames, Text.sameName content name = false := by decide
  have hfields : Skeleton.fields (e.readBack mint) toAll =
      Skeleton.fields (e.readBack mint') toAll :=
    Skeleton.fields_congr (fun name hname => h.find?_readBack_own hid (hall name hname).1
      (hall name hname).2 mint mint') toAll
  rw [skeletonOf_eq (h.readBlock_octets mint) (h.readBack_ne_nil mint),
    skeletonOf_eq (h.readBlock_octets mint') (h.readBack_ne_nil mint'), hfields]

/-- What a reply ends in when its skeleton and the letter that it answers can be read. -/
theorem primeReply_eq [Charsets] {parent : Parent} {template : Text} {mint : Mint}
    {skeleton repliedTo : Email} (ht : Quotation.countPlaceholders template = 1)
    (hskeleton : skeletonOf (parent.asMessage mint).1 toAll = .ok skeleton)
    (hparent : parent.asEmail = .ok repliedTo) :
    (b.primeReply parent toAll template mint).1 =
      .ok (adoptReply template skeleton repliedTo b) := by
  rw [primeReply_apply, if_neg (not_not.2 ht), hskeleton, hparent]

theorem Sound.primeReply_email [Charsets] (h : e.Sound) (b : Email) (toAll : Bool) {template : Text}
    (ht : Quotation.countPlaceholders template = 1) (mint : Mint) :
    ∃ e', (b.primeReply (.email e) toAll template mint).1 = .ok e' := by
  obtain ⟨skeleton, hskeleton⟩ :=
    skeletonOf_ok (h.readBlock_octets mint) (h.readBack_ne_nil mint) toAll
  exact ⟨_, primeReply_eq ht hskeleton rfl⟩

/-- `e'` is quoted like `e`: it has the same texts, empty ones aside, and the same images. -/
structure QuotedLike (e e' : Email) : Prop where
  text : e'.text = e.text.filter (· ≠ [])
  html : e'.html = e.html.filter (· ≠ [])
  images : e'.images.map contentOf = e.images.map contentOf

theorem SameBody.quotedLike {as : List Resource} (h : SameBody { e with attachments := as } e')
    (hline : ∀ t, e.text = some t ∨ e.html = some t → '\r' ∉ t) : QuotedLike e e' := by
  have hcollapse : ∀ text : Option Text, (∀ t, text = some t → '\r' ∉ t) →
      text.map collapse = text := by
    intro text htext
    cases text with
    | none => rfl
    | some t => exact congrArg some (LineEnding.collapseWith_eq_self (htext t rfl))
  refine ⟨?_, ?_, h.images⟩
  · rw [h.text, hcollapse e.text fun t ht => hline t (.inl ht)]
  · rw [h.html, hcollapse e.html fun t ht => hline t (.inr ht)]

theorem quoteText_filter (text : Option Text) (b : Email) :
    b.quoteText (text.filter (· ≠ [])) = b.quoteText text := by
  rw [quoteText, quoteText, Option.filter_filter]
  simp only [Bool.and_self]

theorem quoteHtml_filter (template : Text) (html : Option Text) (b : Email) :
    b.quoteHtml template (html.filter (· ≠ [])) = b.quoteHtml template html := by
  rw [quoteHtml, quoteHtml, Option.filter_filter]
  simp only [Bool.and_self]

/-- Beside its texts and its images a reply changes only what its skeleton speaks of. -/
theorem adoptReply_eq (template : Text) (skeleton repliedTo b : Email) :
    adoptReply template skeleton repliedTo b = { b with
      subject := skeleton.subject.or b.subject
      recipients :=
        b.recipients.extend (skeleton.recipients.entries.map (·.withRole (some .direct)))
      text := (b.quoteText repliedTo.text).text
      html := (b.quoteHtml template repliedTo.html).html
      images := b.images ++ repliedTo.images
      headers := b.headers.setAll skeleton.headers } := by
  simp only [adoptReply, quoteHtml, quoteText]
  split <;> split <;> rfl

/-- A reply takes the same from both, but for how its images are held. -/
theorem QuotedLike.adoptReply (h : QuotedLike e e') (template : Text) (skeleton b : Email) :
    { Email.adoptReply template skeleton e b with images := [] } =
        { Email.adoptReply template skeleton e' b with images := [] } ∧
      (Email.adoptReply template skeleton e b).images.map contentOf =
        (Email.adoptReply template skeleton e' b).images.map contentOf := by
  simp only [adoptReply_eq, h.text, h.html, quoteText_filter, quoteHtml_filter, List.map_append,
    h.images, and_self]

/-- From a letter with an identifier of its own and from the message it was rendered as the same
reply results, whatever it is written in and whenever, the images being the same by name, type and
data. -/
theorem primeReply_render [Charsets] (h : Reachable e) (hid : e.id ≠ none) (hp : e.Quotable)
    (hline : ∀ t, e.text = some t ∨ e.html = some t → '\r' ∉ t) {sent : Mint} (hq : e.Quiet sent)
    (b : Email) (toAll : Bool) {template : Text}
    (ht : Quotation.countPlaceholders template = 1) (mint mint' : Mint) : ∃ s s',
      (b.primeReply (.email e) toAll template mint).1 = .ok s ∧
      (b.primeReply (.message (e.render sent).1) toAll template mint').1 = .ok s' ∧
      { s with images := [] } = { s' with images := [] } ∧
      s.images.map contentOf = s'.images.map contentOf := by
  obtain ⟨as, e', -, hread, hsame⟩ := h.sound.ofMessage_quotable hp hq
  obtain ⟨skeleton, hskeleton⟩ :=
    skeletonOf_ok (h.sound.readBlock_octets sent) (h.sound.readBack_ne_nil sent) toAll
  have hown : skeletonOf (e.render mint).1 toAll = .ok skeleton :=
    (h.sound.skeletonOf_render hid toAll mint sent).trans hskeleton
  obtain ⟨hfields, himages⟩ := (hsame.quotedLike hline).adoptReply template skeleton b
  exact ⟨_, _, primeReply_eq ht hown rfl, primeReply_eq ht hskeleton hread, hfields, himages⟩

/-- A letter from Joe with an image, a forwarded message and an attachment whose name no reader can
make out. -/
def enquiry : Email :=
  { parcel with
    id := some "<one@x.com>".toList
    sender := some ⟨some "Joe".toList, "joe@x.com".toList, none⟩
    text := some "Héllo\nJane".toList
    attachments := parcel.attachments ++
      [⟨some "=?; \"\\".toList, ⟨none, "text/plain".toList, [0x41]⟩⟩] }

theorem enquiry_reachable [Charsets] : Reachable enquiry := by
  have hjoe : Recipient.Made ⟨some "Joe".toList, "joe@x.com".toList, none⟩ :=
    ⟨some "Joe".toList, "joe@x.com".toList, none, by decide⟩
  have hfirst := parcel_reachable.write (.setId (some "<one@x.com>".toList)) trivial rfl rfl
  have hsecond := hfirst.write (.setRecipient .sender _) hjoe rfl rfl
  have hthird := hsecond.write (.setText (some "Héllo\nJane".toList)) trivial rfl rfl
  exact hthird.write (.attach (some "=?; \"\\".toList) [0x41] "text/plain".toList) trivial rfl rfl

theorem enquiry_quotable : enquiry.Quotable := by
  have hparcel := parcel_portable.quotable
  refine ⟨?_, hparcel.html, hparcel.images, ?_⟩
  · rintro t ⟨⟩
    decide
  · intro r hr
    rcases List.mem_append.1 hr with hr | hr
    · exact hparcel.attachments r hr
    · rw [List.mem_singleton.1 hr]
      exact ⟨⟨"text".toList, "plain".toList, rfl, by decide⟩, by decide⟩

theorem enquiry_quiet (mint : Mint) : enquiry.Quiet mint := by
  refine quiet_of_no_dash ?_ ?_ ?_
  · rintro t ⟨⟩
    decide
  · rintro t ⟨⟩
    decide
  · rintro m ⟨⟩
    decide

theorem primeReply_render_enquiry : ∃ s s',
    (primeReply (.email enquiry) true Quotation.standardTemplate ∅ ⟨7, fun _ => 9⟩).1 = .ok s ∧
    (primeReply (.message (enquiry.render ⟨0, fun _ => 0⟩).1) true Quotation.standardTemplate ∅
      ⟨8, fun _ => 5⟩).1 = .ok s' ∧
    { s with images := [] } = { s' with images := [] } ∧
    s.images.map contentOf = s'.images.map contentOf := by
  have hline : ∀ t, enquiry.text = some t ∨ enquiry.html = some t → '\r' ∉ t := by
    intro t ht
    cases ht with
    | inl ht =>
        cases ht
        decide
    | inr ht =>
        cases ht
        decide
  have hid : enquiry.id ≠ none := by decide
  exact primeReply_render enquiry_reachable hid enquiry_quotable hline
    (enquiry_quiet ⟨0, fun _ => 0⟩) ∅ true (by decide) ⟨7, fun _ => 9⟩ ⟨8, fun _ => 5⟩

end Email
end Epistle
