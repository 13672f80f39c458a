import Epistle.Proofs.Email.Session
import Epistle.Proofs.Mime.Mint

/-!
What blind copies are kept from. Two letters that differ only in who gets a blind copy, in where
bounces go and in how they are signed are rendered as the same octets, and a reply to one or a
forward of it is a reply to the other or its forward. Each function below reads only what the two
letters share, so a run on the one is a run on the other, down to the numbers and instants taken.
-/
namespace Epistle
namespace Email

/-- The letters agree in everything that is shown. -/
structure Alike (a b : Email) : Prop where
  id : a.id = b.id
  sender : a.sender = b.sender
  replyTo : a.replyTo = b.replyTo
  subject : a.subject = b.subject
  text : a.text = b.text
  html : a.html = b.html
  direct : a.recipients.ofRole .direct = b.recipients.ofRole .direct
  copy : a.recipients.ofRole .copy = b.recipients.ofRole .copy
  images : a.images = b.images
  attachments : a.attachments = b.attachments
  headers : a.headers = b.headers
  disposition : a.disposition = b.disposition
  receipt : a.receipt = b.receipt
  forwarded : a.forwarded = b.forwarded

variable {a b : Email}

theorem Alike.messageId (h : Alike a b) : a.messageId = b.messageId := by
  rw [Email.messageId, Email.messageId, domain, domain, h.id, h.sender]

theorem Alike.part (h : Alike a b) : a.part = b.part := by
  rw [Email.part, Email.part, h.text, h.html, h.images, h.attachments, h.forwarded]

/-- Of the recipients only those in the two shown roles reach a field. -/
theorem Alike.listField (h : Alike a b) (role : Role) (hrole : role ≠ .blind) :
    a.listField role = b.listField role := by
  cases role with
  | direct => rw [Email.listField, Email.listField, h.direct]
  | copy => rw [Email.listField, Email.listField, h.copy]
  | blind => exact absurd rfl hrole

theorem Alike.resolve (h : Alike a b) (n : Notice) : a.resolve n = b.resolve n := by
  rw [Email.resolve, Email.resolve, h.replyTo, h.sender]

theorem Alike.customFields (h : Alike a b) : a.customFields = b.customFields := by
  rw [Email.customFields, Email.customFields, shownHeaders, shownHeaders, h.headers]

theorem Alike.fields (h : Alike a b) (id date : Text) : a.fields id date = b.fields id date := by
  rw [Email.fields, Email.fields, h.sender, h.replyTo, h.listField .direct (by decide),
    h.listField .copy (by decide), h.subject, h.disposition, h.receipt, h.resolve,
    h.resolve, h.customFields]

theorem Alike.render (h : Alike a b) : a.render = b.render := by
  have hfields : a.fields = b.fields := by
    funext id date
    exact h.fields id date
  rw [Email.render, Email.render, h.messageId, h.part, hfields]

theorem Alike.asMessage (h : Alike a b) :
    (Parent.email a).asMessage = (Parent.email b).asMessage := h.render

/-- Of the letter that it answers a reply takes only the texts and the images. -/
theorem Alike.adoptReply (h : Alike a b) (template : Text) (skeleton e : Email) :
    Email.adoptReply template skeleton a e = Email.adoptReply template skeleton b e := by
  rw [Email.adoptReply, Email.adoptReply, h.text, h.html, h.images]

theorem Alike.primeReply [Charsets] (h : Alike a b) (e : Email) (toAll : Bool) (template : Text) :
    e.primeReply (.email a) toAll template = e.primeReply (.email b) toAll template := by
  funext mint
  simp only [primeReply_apply, h.asMessage, Parent.asEmail]
  cases skeletonOf ((Parent.email b).asMessage mint).1 toAll with
  | error err => rfl
  | ok skeleton => simp only [h.adoptReply]

theorem Alike.primeForward [Charsets] (h : Alike a b) (e : Email) :
    e.primeForward (.email a) = e.primeForward (.email b) := by
  funext mint
  rw [primeForward_apply, primeForward_apply, h.asMessage]

/-- Whoever gets a blind copy, wherever bounces go and however the letter is signed: from the same
numbers and instants it is rendered as the same octets, and whatever replies to it or forwards it
ends in the same way, in the same letter and with the same numbers and instants left. -/
theorem secret_of_alike [Charsets] (h : Alike a b) (mint : Mint) :
    a.render mint = b.render mint ∧ ∀ e : Email, (∀ toAll template,
      e.primeReply (.email a) toAll template mint = e.primeReply (.email b) toAll template mint ∧
      (Step.reply (.email a) toAll template).perform e mint =
        (Step.reply (.email b) toAll template).perform e mint) ∧
    e.primeForward (.email a) mint = e.primeForward (.email b) mint ∧
    (Step.forward (.email a)).perform e mint = (Step.forward (.email b)).perform e mint := by
  refine ⟨by rw [h.render], ?_⟩
  intro e
  refine ⟨?_, by rw [h.primeForward], ?_⟩
  · intro toAll template
    have happly : Step.apply e (.reply (.email a) toAll template) =
        Step.apply e (.reply (.email b) toAll template) := h.primeReply e toAll template
    refine ⟨by rw [h.primeReply], ?_⟩
    rw [Step.perform_eq, Step.perform_eq, happly]
  · have happly : Step.apply e (.forward (.email a)) = Step.apply e (.forward (.email b)) :=
      h.primeForward e
    rw [Step.perform_eq, Step.perform_eq, happly]

/-- A letter to Jane, with a copy to Joe. -/
def invitation : Email :=
  { empty with
    recipients := ⟨[⟨some "Jane".toList, "jane@x.com".toList, some .direct⟩,
      ⟨none, "joe@x.com".toList, some .copy⟩]⟩
    subject := some "Friday".toList }

/-- The same letter with two blind copies, a place for bounces and a signature. -/
def covert : Email :=
  { invitation with
    recipients := ⟨[⟨none, "boss@x.com".toList, some .blind⟩,
      ⟨some "Jane".toList, "jane@x.com".toList, some .direct⟩,
      ⟨none, "jane@x.com".toList, some .blind⟩, ⟨none, "joe@x.com".toList, some .copy⟩]⟩
    bounceTo := some ⟨none, "bounces@x.com".toList, none⟩
    signing := some ⟨.octets [0x4B], "x.com".toList, "one".toList⟩ }

theorem covert_alike : Alike covert invitation := by
  constructor
  all_goals rfl

theorem secret_of_alike_covert : covert ≠ invitation ∧
    covert.render ⟨0, fun _ => 0⟩ = invitation.render ⟨0, fun _ => 0⟩ ∧
    (Step.reply (.email covert) true Quotation.standardTemplate).perform ∅ ⟨0, fun _ => 0⟩ =
      (Step.reply (.email invitation) true Quotation.standardTemplate).perform ∅
        ⟨0, fun _ => 0⟩ := by
  obtain ⟨hrender, hsteps⟩ := secret_of_alike covert_alike ⟨0, fun _ => 0⟩
  have hbounces : covert.bounceTo ≠ invitation.bounceTo := by decide
  exact ⟨fun h => hbounces (congrArg Email.bounceTo h), hrender, ((hsteps ∅).1 _ _).2⟩

end Email
end Epistle
