import Epistle.Proofs.Email.Invariant
import Epistle.Proofs.Email.Quotation
import Epistle.Proofs.Email.Replies

/-!
What making a letter a reply changes and when it is refused. Of the letter that is answered only the
texts, behind marks and in the template, and the images come in, and of the skeleton the subject,
the addressees and the thread; whatever else the letter holds stays, and a refusal changes nothing.
-/
namespace Epistle

namespace Skeleton

variable {fs : List Field} {toAll : Bool}

/-- The fields that make a reply part of a thread. -/
def threadNames : List Text := ["In-Reply-To".toList, "References".toList]

theorem key_readBack [Charsets] {f : Field} (h : f ∈ readBack fs toAll) :
    f.key ∈ possibleNames := by
  have hkey : f.key ∈ (readBack fs toAll).map Field.key := List.mem_map_of_mem h
  rw [readBack, Field.keys_stripped] at hkey
  obtain ⟨g, hg, hkey⟩ := List.mem_map.1 hkey
  rw [fields_eq] at hg
  rw [← hkey, ← names_pairs fs toAll]
  exact Field.key_ofPairs (apart_pairs fs toAll).valid hg

/-- Of the names that a skeleton can have the others have places of their own. -/
theorem mem_threadNames {name : Text} (h : name ∈ possibleNames)
    (hs : FieldName.isStructural name = false) : name ∈ threadNames := by
  have hall : ∀ name ∈ possibleNames, FieldName.isStructural name = false →
      name ∈ threadNames := by decide
  exact hall name h hs

end Skeleton

namespace Email

open Quotation (placeholder)

variable {e e' b skeleton repliedTo : Email} {m : Message} {toAll : Bool} {template : Text}

/-- The custom headers of a skeleton make the reply part of a thread. -/
theorem headers_skeleton [Charsets] {s : Message} (hs : m.reply toAll = .ok s)
    (hread : ofMessage s = .ok skeleton) : ∀ p ∈ skeleton.headers, p.1 ∈ Skeleton.threadNames := by
  obtain ⟨fs, body, -, hback⟩ := Message.readBlock_reply hs
  obtain ⟨images, attachments, slots, rfl⟩ := head_of_ofMessage hback hread
  intro p hp
  simp only [fill, withFields_empty] at hp
  rcases Dictionary.mem_setAll hp with hp | hp
  · obtain ⟨f, hf, hheader⟩ := List.mem_filterMap.1 hp
    obtain ⟨hname, hcustom⟩ := customHeader?_name hheader
    rw [hname]
    exact Skeleton.mem_threadNames (Skeleton.key_readBack hf) hcustom
  · cases hp

theorem skeletonOf_error [Charsets] {err : ReadError} (h : m.reply toAll = .error err) :
    skeletonOf m toAll = .error err := by
  rw [skeletonOf, h]

/-- A skeleton can be read whenever there is one. -/
theorem skeletonOf_reply [Charsets] {s : Message} (h : m.reply toAll = .ok s) :
    ∃ skeleton, ofMessage s = .ok skeleton ∧ skeletonOf m toAll = .ok skeleton := by
  obtain ⟨fs, body, -, hback⟩ := Message.readBlock_reply h
  obtain ⟨skeleton, hread⟩ := Skeleton.ofMessage_skeleton fs toAll hback
  refine ⟨skeleton, hread, ?_⟩
  rw [skeletonOf, h]
  exact hread

theorem primeReply_badTemplate [Charsets] (ht : Quotation.countPlaceholders template ≠ 1)
    (b : Email) (parent : Parent) (toAll : Bool) (mint : Mint) :
    (b.primeReply parent toAll template mint).1 = .error (.badTemplate template) := by
  rw [primeReply_apply, if_pos ht]

/-- What a reply ends in when its skeleton or the letter that it answers cannot be read. -/
theorem primeReply_failed [Charsets] {parent : Parent} {mint : Mint} {err : ReadError}
    (ht : Quotation.countPlaceholders template = 1)
    (h : skeletonOf (parent.asMessage mint).1 toAll = .error err ∨
      (∃ skeleton, skeletonOf (parent.asMessage mint).1 toAll = .ok skeleton) ∧
        parent.asEmail = .error err) :
    (b.primeReply parent toAll template mint).1 = .error (.replyFailed err) := by
  rw [primeReply_apply, if_neg (not_not.2 ht)]
  cases h with
  | inl hskeleton => rw [hskeleton]
  | inr h =>
      obtain ⟨⟨skeleton, hskeleton⟩, hparent⟩ := h
      rw [hskeleton, hparent]

theorem quoteText_absent {text : Option Text} (h : text.getD [] = []) (b : Email) :
    b.quoteText text = b := by
  cases text with
  | none => rfl
  | some t =>
      cases h
      rfl

theorem quoteText_present {t : Text} (h : t ≠ []) (b : Email) :
    b.quoteText (some t) = b.appendText (Quotation.markLines t) := by
  rw [quoteText, Option.filter_some, if_pos (by simpa using h)]

theorem quoteHtml_absent {html : Option Text} (h : html.getD [] = []) (template : Text)
    (b : Email) : b.quoteHtml template html = b := by
  cases html with
  | none => rfl
  | some t =>
      cases h
      rfl

theorem quoteHtml_present {t : Text} (h : t ≠ []) (template : Text) (b : Email) :
    b.quoteHtml template (some t) = b.appendHtml (Quotation.fill template t) := by
  rw [quoteHtml, Option.filter_some, if_pos (by simpa using h)]

/-- `e'` is `b` made a reply to the letter `repliedTo`, whose skeleton was read as `skeleton`. -/
structure Primed (template : Text) (skeleton repliedTo b e' : Email) : Prop where
  subject : e'.subject = skeleton.subject.or b.subject
  recipients : e'.recipients =
    b.recipients.extend (skeleton.recipients.entries.map (·.withRole (some .direct)))
  text_kept : repliedTo.text.getD [] = [] → e'.text = b.text
  text_quoted : ∀ t, repliedTo.text = some t → t ≠ [] →
    ∃ q, Quotation.Quotes t q ∧ e'.text = some (b.text.getD [] ++ q)
  html_kept : repliedTo.html.getD [] = [] → e'.html = b.html
  html_quoted : ∀ h, repliedTo.html = some h → h ≠ [] →
    ∀ before after, template = before ++ placeholder ++ after →
      e'.html = some (b.html.getD [] ++ before ++ h ++ after)
  images : e'.images = b.images ++ repliedTo.images
  headers : ∀ name, e'.headers.get? name = (skeleton.headers.get? name).or (b.headers.get? name)
  headers_kept : ∀ name, name ∉ Skeleton.threadNames →
    e'.headers.get? name = b.headers.get? name
  rest_kept : { e' with
    subject := b.subject
    recipients := b.recipients
    text := b.text
    html := b.html
    images := b.images
    headers := b.headers } = b

theorem primed_adoptReply (ht : Quotation.countPlaceholders template = 1)
    (hsorted : skeleton.headers.Sorted)
    (hthread : ∀ p ∈ skeleton.headers, p.1 ∈ Skeleton.threadNames) (repliedTo b : Email) :
    Primed template skeleton repliedTo b (adoptReply template skeleton repliedTo b) := by
  rw [adoptReply_eq]
  constructor
  case subject => rfl
  case recipients => rfl
  case text_kept =>
    intro h
    rw [quoteText_absent h]
  case text_quoted =>
    intro t htext hne
    refine ⟨Quotation.markLines t, Quotation.quotes_markLines t, ?_⟩
    rw [htext, quoteText_present hne]
    rfl
  case html_kept =>
    intro h
    rw [quoteHtml_absent h]
  case html_quoted =>
    intro h hhtml hne before after htemplate
    rw [hhtml, quoteHtml_present hne, htemplate, Quotation.fill_eq (htemplate ▸ ht)]
    simp [appendHtml]
  case images => rfl
  case headers => exact hsorted.get?_setAll b.headers
  case headers_kept =>
    intro name hname
    have hnone : skeleton.headers.get? name = none := by
      rw [Option.eq_none_iff_forall_ne_some]
      exact fun v hv => hname (hthread _ (Dictionary.mem_of_get? hv))
    refine (hsorted.get?_setAll b.headers name).trans ?_
    rw [hnone, Option.none_or]
  case rest_kept => rfl

/-- A letter becomes a reply unless the template does not have one place for what is quoted, or what
is answered cannot be replied to or read. -/
theorem primeReply_primed [Charsets] (b : Email) (parent : Parent) (toAll : Bool) (template : Text)
    (mint : Mint) :
    ((b.primeReply parent toAll template mint).1 = .error (.badTemplate template) ↔
      ¬ Quotation.Fits template) ∧
    (∀ err, (b.primeReply parent toAll template mint).1 = .error (.replyFailed err) ↔
      Quotation.Fits template ∧ ((parent.asMessage mint).1.reply toAll = .error err ∨
        (∃ s, (parent.asMessage mint).1.reply toAll = .ok s) ∧ parent.asEmail = .error err)) ∧
    (∀ err, (b.primeReply parent toAll template mint).1 = .error err →
      (err = .badTemplate template ∨ ∃ cause, err = .replyFailed cause) ∧
      ((Step.reply parent toAll template).perform b mint).1 = b) ∧
    ∀ e', (b.primeReply parent toAll template mint).1 = .ok e' →
      ∃ s skeleton repliedTo, (parent.asMessage mint).1.reply toAll = .ok s ∧
        ofMessage s = .ok skeleton ∧ parent.asEmail = .ok repliedTo ∧
        Primed template skeleton repliedTo b e' := by
  have hperform : ((Step.reply parent toAll template).perform b mint).1 =
      (b.primeReply parent toAll template mint).1.toOption.getD b :=
    congrArg Prod.fst (Step.perform_eq _ b mint)
  rw [hperform, Quotation.fits_iff]
  by_cases ht : Quotation.countPlaceholders template = 1
  case neg =>
    rw [primeReply_badTemplate ht]
    simp [ht, Except.toOption]
  case pos =>
    cases hreply : (parent.asMessage mint).1.reply toAll with
    | error err =>
        rw [primeReply_failed ht (.inl (skeletonOf_error hreply))]
        simp [ht, Except.toOption]
    | ok s =>
        obtain ⟨skeleton, hread, hskeleton⟩ := skeletonOf_reply hreply
        cases hparent : parent.asEmail with
        | error err =>
            rw [primeReply_failed ht (.inr ⟨⟨skeleton, hskeleton⟩, hparent⟩)]
            simp [ht, Except.toOption]
        | ok repliedTo =>
            have hprimed := primed_adoptReply ht (ofMessage_sound hread).sorted
              (headers_skeleton hreply hread) repliedTo b
            rw [primeReply_eq ht hskeleton hparent]
            refine ⟨by simp [ht], by simp, by simp, ?_⟩
            rintro e' ⟨⟩
            exact ⟨s, skeleton, repliedTo, rfl, hread, rfl, hprimed⟩

/-- A letter with an empty line, no line feed at its end, the placeholder in its HTML, and an
image. -/
def question : Email :=
  { empty with
    text := some "Hi\n\nHow?".toList
    html := some "<p>100%s</p>".toList
    images := [⟨some "logo".toList, ⟨none, "image/png".toList, [0x89, 0x50]⟩⟩] }

theorem question_reachable [Charsets] : Reachable question := by
  have hfirst := Reachable.empty.write (.setText (some "Hi\n\nHow?".toList)) trivial rfl rfl
  have hsecond := hfirst.write (.setHtml (some "<p>100%s</p>".toList)) trivial rfl rfl
  exact hsecond.write (.embed "logo".toList [0x89, 0x50] "image/png".toList) trivial rfl rfl

/-- An answer that is begun before the question is quoted in it. -/
def answer : Email :=
  { empty with
    sender := some ⟨none, "ann@x.com".toList, none⟩
    text := some "Fine.\n".toList
    html := some "<p>Fine.</p>".toList }

theorem primeReply_primed_question :
    (∃ e', (answer.primeReply (.email question) false "<q>%s</q>".toList ⟨0, fun _ => 0⟩).1 =
        .ok e' ∧
      e'.sender = answer.sender ∧ e'.text = some "Fine.\n> Hi\n> \n> How?".toList ∧
      e'.html = some "<p>Fine.</p><q><p>100%s</p></q>".toList ∧ e'.images = question.images) ∧
    (answer.primeReply (.email question) false "<q>%s%s</q>".toList ⟨0, fun _ => 0⟩).1 =
      .error (.badTemplate "<q>%s%s</q>".toList) := by
  constructor
  · obtain ⟨e', he'⟩ := question_reachable.sound.primeReply_email answer false
      (by decide : Quotation.countPlaceholders "<q>%s</q>".toList = 1) ⟨0, fun _ => 0⟩
    obtain ⟨-, -, -, hok⟩ := primeReply_primed answer (.email question) false "<q>%s</q>".toList
      ⟨0, fun _ => 0⟩
    obtain ⟨s, skeleton, repliedTo, -, -, hparent, hprimed⟩ := hok e' he'
    cases hparent
    obtain ⟨q, hq, htext⟩ := hprimed.text_quoted _ rfl (by decide)
    have hquoted : q = "> Hi\n> \n> How?".toList := by
      rw [← Text.flatten_linesWithEnds q, hq.lines]
      decide
    have hhtml := hprimed.html_quoted _ rfl (by decide) "<q>".toList "</q>".toList (by decide)
    have hsender := congrArg sender hprimed.rest_kept
    refine ⟨e', he', hsender, ?_, hhtml, hprimed.images⟩
    rw [htext, hquoted]
    decide
  · obtain ⟨hmisfit, -⟩ := primeReply_primed answer (.email question) false "<q>%s%s</q>".toList
      ⟨0, fun _ => 0⟩
    rw [hmisfit, Quotation.fits_iff]
    decide

end Email
end Epistle
