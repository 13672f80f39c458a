import Epistle.Proofs.Email.Reading
import Epistle.Proofs.Mime.Mint

/-!
Every letter that a program can come to hold is sound: the empty one is, defaults and received
messages make sound ones, and each step leads from sound letters to sound ones.
-/
namespace Epistle
namespace Email

open Checked (map_ok mapError_ok bind_ok)

variable {e e' : Email}

/-- What a reply consists of when it went through. -/
theorem primeReply_ok [Charsets] {parent : Parent} {toAll : Bool} {template : Text} {mint : Mint}
    (h : (e.primeReply parent toAll template mint).1 = .ok e') :
    ∃ skeleton repliedTo, skeletonOf (parent.asMessage mint).1 toAll = .ok skeleton ∧
      parent.asEmail = .ok repliedTo ∧ e' = adoptReply template skeleton repliedTo e := by
  rw [primeReply_apply] at h
  split at h
  · cases h
  · cases hs : skeletonOf (parent.asMessage mint).1 toAll with
    | error err =>
        rw [hs] at h
        cases h
    | ok skeleton =>
        cases hr : parent.asEmail with
        | error err =>
            rw [hs, hr] at h
            cases h
        | ok repliedTo =>
            rw [hs, hr] at h
            cases h
            exact ⟨skeleton, repliedTo, rfl, rfl, rfl⟩

theorem primeForward_ok [Charsets] {parent : Parent} {mint : Mint}
    (h : (e.primeForward parent mint).1 = .ok e') :
    ∃ subject, (parent.asMessage mint).1.subject = .ok subject ∧
      e' = { e with
        subject := some ("Fwd: ".toList ++ subject.getD [])
        forwarded := some (parent.asMessage mint).1 } := by
  rw [primeForward_apply] at h
  cases hs : (parent.asMessage mint).1.subject with
  | error err =>
      rw [hs] at h
      cases h
  | ok subject =>
      rw [hs] at h
      cases h
      exact ⟨subject, rfl, rfl⟩

theorem skeletonOf_sound [Charsets] {parent : Message} {toAll : Bool}
    (h : skeletonOf parent toAll = .ok e) : e.Sound := by
  simp only [skeletonOf] at h
  split at h
  · cases h
  · exact ofMessage_sound h

theorem asEmail_sound [Charsets] {parent : Parent} (h : parent.asEmail = .ok e)
    (hp : ∀ p : Email, parent = .email p → p.Sound) : e.Sound := by
  cases parent with
  | email p =>
      rw [← Except.ok.inj h]
      exact hp p rfl
  | message m => exact ofMessage_sound h

theorem Sound.quoteText (h : e.Sound) (text : Option Text) : (e.quoteText text).Sound := by
  simp only [Email.quoteText]
  split
  · exact { h with }
  · exact h

theorem Sound.quoteHtml (h : e.Sound) (template : Text) (html : Option Text) :
    (e.quoteHtml template html).Sound := by
  simp only [Email.quoteHtml]
  split
  · exact { h with }
  · exact h

/-- A reply takes over nothing but what a sound letter may hold. -/
theorem Sound.adoptReply (h : e.Sound) {skeleton repliedTo : Email} (hs : skeleton.Sound)
    (hr : repliedTo.Sound) (template : Text) :
    (Email.adoptReply template skeleton repliedTo e).Sound := by
  have hsubject : Sound { e with subject := skeleton.subject.or e.subject } := by
    refine { h with subject := ?_ }
    intro hn
    rcases Option.or_eq_some_iff.1 hn with hn | ⟨-, hn⟩
    · exact hs.subject hn
    · exact h.subject hn
  have hdirect : ∀ r ∈ skeleton.recipients.entries.map (·.withRole (some .direct)),
      r.Valid ∧ r.role ≠ none := by
    intro r hmem
    obtain ⟨r', hr', rfl⟩ := List.mem_map.1 hmem
    exact ⟨(hs.recipients r' hr').1.withRole _, by simp [Recipient.withRole]⟩
  have hquoted := ((hsubject.extendRecipients hdirect).quoteText repliedTo.text).quoteHtml template
    repliedTo.html
  have hheaders := hquoted.setHeaders hs.headers
  refine { hheaders with images := ?_ }
  intro r hmem
  rcases List.mem_append.1 hmem with hmem | hmem
  · exact hheaders.images r hmem
  · exact hr.images r hmem

theorem Sound.primeReply [Charsets] (h : e.Sound) {parent : Parent} {toAll : Bool} {template : Text}
    {mint : Mint} (hp : ∀ p : Email, parent = .email p → p.Sound)
    (hs : (e.primeReply parent toAll template mint).1 = .ok e') : e'.Sound := by
  obtain ⟨skeleton, repliedTo, hskeleton, hparent, rfl⟩ := primeReply_ok hs
  exact h.adoptReply (skeletonOf_sound hskeleton) (asEmail_sound hparent hp) template

theorem Sound.primeForward [Charsets] (h : e.Sound) {parent : Parent} {mint : Mint}
    (hs : (e.primeForward parent mint).1 = .ok e') : e'.Sound := by
  obtain ⟨subject, -, rfl⟩ := primeForward_ok hs
  refine { h with subject := ?_ }
  simp

theorem checked_ok {s : Setter} {mint : Mint} (h : (s.toPriming.attempt e mint).1 = .ok e') :
    s.attempt e = .ok e' := by
  rw [Setter.attempt_toPriming] at h
  exact mapError_ok h

/-- One step leads from sound letters to sound ones. -/
theorem Sound.step [Charsets] (h : e.Sound) {s : Step} {mint : Mint} (hs : s.Made)
    (hp : ∀ p, s.parent? = some p → p.Sound) (happly : (s.apply e mint).1 = .ok e') :
    e'.Sound := by
  cases s with
  | setId id => exact h.setId (checked_ok happly)
  | setParty party name address => exact h.setParty (checked_ok happly)
  | setRecipient party r =>
      cases happly
      exact h.setRecipient party (Recipient.Made.valid hs)
  | setSubject subject => exact h.setSubject (checked_ok happly)
  | setText | prependText | appendText | setHtml | prependHtml | appendHtml =>
      cases happly
      exact { h with }
  | addList role name list => exact h.addList (checked_ok happly)
  | addAddresses role name addresses => exact h.addAddresses (checked_ok happly)
  | addRecipients role rs =>
      exact h.addRecipients (fun r hr => (hs r hr).valid) (checked_ok happly)
  | embed name data contentType => exact h.embed (checked_ok happly)
  | embedSource name source =>
      exact h.embedSource (DataSource.Made.valid hs) (checked_ok happly)
  | embedAll images => exact h.embedAll (fun r hr => (hs r hr).valid) (checked_ok happly)
  | addHeader name value => exact h.addHeader (checked_ok happly)
  | addHeaders headers => exact h.addHeaders (checked_ok happly)
  | attach name data contentType => exact h.attach (checked_ok happly)
  | attachSource name source =>
      cases happly
      exact h.attachSource name (DataSource.Made.valid hs)
  | attachAll resources =>
      cases happly
      exact h.attachAll fun r hr => (hs r hr).valid
  | signWith key domain selector => exact h.signWith (checked_ok happly)
  | requestNotice kind =>
      cases happly
      exact h.requestNotice kind
  | requestNoticeTo kind r =>
      cases happly
      exact h.requestNoticeTo kind (Recipient.Made.valid hs)
  | requestNoticeAt kind address => exact h.requestNoticeAt (checked_ok happly)
  | reply parent toAll template =>
      refine h.primeReply ?_ happly
      rintro p rfl
      exact hp p rfl
  | forward parent => exact h.primeForward happly

theorem Sound.given (h : e.Sound) {α : Type} {x : Option α}
    {step : α → Email → Except Rejection Email}
    (hstep : ∀ a e e', Sound e → step a e = .ok e' → Sound e') (hs : e.given x step = .ok e') :
    e'.Sound := by
  cases x with
  | none =>
      cases hs
      exact h
  | some a => exact hstep a e e' h hs

theorem setDefaultParty_sound {party : Party} {field : Argument} (d : DefaultRecipient)
    (e e' : Email) (h : e.Sound) (hs : e.setDefaultParty party field d = .ok e') : e'.Sound := by
  obtain ⟨r, hr, rfl⟩ := map_ok hs
  exact h.setRecipient party (interpret_valid hr)

theorem addDefaultList_sound {role : Role} (d : DefaultRecipient) (e e' : Email) (h : e.Sound)
    (hs : e.addDefaultList role d = .ok e') : e'.Sound := h.addList hs

theorem ofDefaults_sound {d : Defaults} (h : ofDefaults d = .ok e) : e.Sound := by
  obtain ⟨e₁, h₁, h⟩ := bind_ok h
  obtain ⟨e₂, h₂, h⟩ := bind_ok h
  obtain ⟨e₃, h₃, h⟩ := bind_ok h
  obtain ⟨e₄, h₄, h⟩ := bind_ok h
  obtain ⟨e₅, h₅, h⟩ := bind_ok h
  obtain ⟨e₆, h₆, h⟩ := bind_ok h
  have hparties := ((Sound.empty.given setDefaultParty_sound h₁).given setDefaultParty_sound
    h₂).given setDefaultParty_sound h₃
  have hlists := ((hparties.given addDefaultList_sound h₄).given addDefaultList_sound h₅).given
    addDefaultList_sound h₆
  exact hlists.given (fun _ _ _ he hs => he.setSubject hs) h

theorem Reachable.sound [Charsets] (h : Reachable e) : e.Sound := by
  induction h with
  | empty => exact Sound.empty
  | seeded hd => exact ofDefaults_sound hd
  | received hm => exact ofMessage_sound hm
  | step _ hs _ happly ih ihp => exact ih.step hs ihp happly

end Email
end Epistle
