import Epistle.Email.Step
import Mathlib.Control.Basic

/-!
Steps as programs. Nothing keeps a program from writing before it is refused; that none of the steps
does is proved here, along the way each is put together: what it checks comes before what it writes.
So a step is known by the letter that it leads to, and a refused one leaves the letter alone.
-/
namespace Epistle

namespace Writing

section

variable {m : Type → Type} [Monad m] [LawfulMonad m] {ε α : Type} {w : Writing m ε Unit}

theorem attempt_eq (w : Writing m ε Unit) (e : Email) :
    w.attempt e = (fun p => p.1.map fun _ => p.2) <$> w.perform e := by
  rw [map_eq_pure_bind]
  rfl

theorem perform_modify (f : Email → Email) (e : Email) :
    (modify f : Writing m ε Unit).perform e = pure (.ok (), f e) := by
  change (ExceptT.lift (StateT.modifyGet fun e => ((), f e)) : Writing m ε Unit).run.run e = _
  rw [ExceptT.run_lift, StateT.run_map]
  exact map_pure _ _

theorem perform_check (x : Except ε α) (f : α → Writing m ε Unit) (e : Email) :
    (liftM x >>= f : Writing m ε Unit).perform e = match x with
      | .error err => pure (.error err, e)
      | .ok a => (f a).perform e := by
  cases x <;> exact pure_bind _ _

theorem perform_lift (x : m α) (f : α → Writing m ε Unit) (e : Email) :
    (liftM x >>= f : Writing m ε Unit).perform e = x >>= fun a => (f a).perform e := by
  change (ExceptT.lift (StateT.lift x) >>= f : Writing m ε Unit).run.run e = _
  rw [ExceptT.run_bind_lift, StateT.run_bind, StateT.run_lift, bind_assoc]
  simp only [pure_bind]
  rfl

/-- The program leaves the letter as it was unless it goes through. -/
def Cautious (w : Writing m ε Unit) : Prop :=
  ∀ e, w.perform e = (fun r => (r.map fun _ => (), r.toOption.getD e)) <$> w.attempt e

theorem cautious_iff : Cautious w ↔ ∀ e, w.perform e =
    (fun p => (p.1, (p.1.map fun _ => p.2).toOption.getD e)) <$> w.perform e := by
  have hsame : ∀ p : Except ε Unit × Email, ((p.1.map fun _ => p.2).map fun _ => ()) = p.1 := by
    rintro ⟨_ | _, _⟩ <;> rfl
  refine forall_congr' fun e => ?_
  rw [attempt_eq, Functor.map_map]
  simp only [hsame]

theorem Cautious.throw (err : ε) : Cautious (throw err : Writing m ε Unit) := by
  refine cautious_iff.2 fun e => ?_
  have hperform : (MonadExcept.throw err : Writing m ε Unit).perform e = pure (.error err, e) := rfl
  rw [hperform, map_pure]
  rfl

theorem Cautious.modify (f : Email → Email) : Cautious (modify f : Writing m ε Unit) := by
  refine cautious_iff.2 fun e => ?_
  rw [perform_modify, map_pure]
  rfl

theorem Cautious.check {x : Except ε α} {f : α → Writing m ε Unit} (h : ∀ a, Cautious (f a)) :
    Cautious (liftM x >>= f) := by
  refine cautious_iff.2 fun e => ?_
  rw [perform_check]
  cases x with
  | error err =>
      dsimp only
      rw [map_pure]
      rfl
  | ok a => exact cautious_iff.1 (h a) e

theorem Cautious.lift {x : m α} {f : α → Writing m ε Unit} (h : ∀ a, Cautious (f a)) :
    Cautious (liftM x >>= f) := by
  refine cautious_iff.2 fun e => ?_
  rw [perform_lift, map_bind]
  exact bind_congr fun a => cautious_iff.1 (h a) e

omit [LawfulMonad m] in
theorem Cautious.ite {c : Prop} [Decidable c] {v : Writing m ε Unit} (hv : Cautious v)
    (hw : Cautious w) : Cautious (if c then v else w) := by
  split
  · exact hv
  · exact hw

end

end Writing

namespace Setter

open Writing (Cautious)

variable {s : Setter}

theorem perform_toPriming (s : Setter) (e : Email) (mint : Mint) : s.toPriming.perform e mint =
    (((s.perform e).1.mapError ComposeError.rejected, (s.perform e).2), mint) := rfl

theorem attempt_toPriming (s : Setter) (e : Email) (mint : Mint) :
    s.toPriming.attempt e mint = (Except.mapError ComposeError.rejected (s.attempt e), mint) := by
  rw [Writing.attempt_eq, Writing.attempt_eq]
  change (((s.perform e).1.mapError ComposeError.rejected).map fun _ => (s.perform e).2, mint) =
    (((s.perform e).1.map fun _ => (s.perform e).2).mapError ComposeError.rejected, mint)
  cases (s.perform e).1 <;> rfl

theorem toPriming_cautious (h : Cautious s) : Cautious s.toPriming := by
  intro e
  funext mint
  -- Neither the clock nor the counter is touched, so both sides leave the same mint.
  change s.toPriming.perform e mint = (((s.toPriming.attempt e mint).1.map fun _ => (),
    (s.toPriming.attempt e mint).1.toOption.getD e), (s.toPriming.attempt e mint).2)
  rw [perform_toPriming, attempt_toPriming, h e]
  cases s.attempt e <;> rfl

theorem embedSource_cautious (name : Option Text) (source : DataSource) :
    Cautious (embedSource name source) := by
  rw [embedSource]
  split
  · exact .modify _
  · exact .throw _

end Setter

namespace Priming

open Writing (Cautious)

variable [Charsets]

theorem reply_cautious (parent : Parent) (toAll : Bool) (template : Text) :
    Cautious (reply parent toAll template) :=
  .ite (.throw _) (.lift fun _ => .check fun _ => .check fun _ => .modify _)

theorem forward_cautious (parent : Parent) : Cautious (forward parent) :=
  .lift fun _ => .check fun _ => .modify _

end Priming

namespace Email

namespace Step

variable [Charsets]

/-- Every step checks all that it is given before it writes anything. -/
theorem program_cautious (s : Step) : s.program.Cautious := by
  -- By the way the program is put together, not by its name: guarded, checked, or writing at once.
  cases s with
  | setId | setSubject | addRecipients | embedAll =>
      exact Setter.toPriming_cautious (.ite (.throw _) (.modify _))
  | setParty | addList | addHeader | addHeaders | attach | signWith | requestNoticeAt =>
      exact Setter.toPriming_cautious (.check fun _ => .modify _)
  | addAddresses => exact Setter.toPriming_cautious (.check fun _ => .ite (.throw _) (.modify _))
  | embed => exact Setter.toPriming_cautious (.ite (.throw _) (.check fun _ => .modify _))
  | embedSource => exact Setter.toPriming_cautious (Setter.embedSource_cautious _ _)
  | setRecipient | setText | prependText | appendText | setHtml | prependHtml | appendHtml
  | attachSource | attachAll | requestNotice | requestNoticeTo => exact .modify _
  | reply => exact Priming.reply_cautious _ _ _
  | forward => exact Priming.forward_cautious _

/-- So the step leaves the letter that it leads to, and if it is refused the letter as it was. -/
theorem perform_eq (s : Step) (e : Email) (mint : Mint) :
    s.perform e mint = ((s.apply e mint).1.toOption.getD e, (s.apply e mint).2) := by
  have hperform := congrFun (s.program_cautious e) mint
  change ((s.program.perform e mint).1.2, (s.program.perform e mint).2) = _
  rw [hperform]
  rfl

end Step

section

variable {α : Type}

theorem attempt_checked (x : Except Rejection α) (f : α → Email → Email) (e : Email) :
    (liftM x >>= fun a => modify (f a) : Setter).attempt e = x.map fun a => f a e := by
  cases x <;> rfl

theorem attempt_guarded (c : Prop) [Decidable c] (err : Rejection) (f : Email → Email)
    (e : Email) : (if c then throw err else modify f : Setter).attempt e =
      if c then .error err else .ok (f e) := by
  split <;> rfl

end

theorem setId_eq (id : Option Text) (e : Email) : e.setId id =
    if id.any Text.hasControl then .error (.invalid .id) else .ok { e with id } :=
  attempt_guarded _ _ _ e

theorem setParty_eq (party : Party) (name : Option Text) (address : Text) (e : Email) :
    e.setParty party name address =
      (Recipient.interpret name address party.argument).map fun r => e.setRecipient party r :=
  attempt_checked _ _ e

theorem setSubject_eq (subject : Text) (e : Email) : e.setSubject subject =
    if subject = [] then .error (.missing .subject) else .ok { e with subject := some subject } :=
  attempt_guarded _ _ _ e

theorem addList_eq (role : Role) (name : Option Text) (list : Text) (e : Email) :
    e.addList role name list = (Entries.parse name list (some role)).map e.extendRecipients :=
  attempt_checked _ _ e

theorem addAddresses_eq (role : Role) (name : Option Text) (addresses : List Text) (e : Email) :
    e.addAddresses role name addresses = (do
      let rs ← addresses.mapM fun a => Recipient.make name a (some role)
      if rs = [] then .error (.missing .addresses) else .ok (e.extendRecipients rs)) := by
  rw [addAddresses, Setter.addAddresses]
  cases addresses.mapM fun a => Recipient.make name a (some role) with
  | error err => rfl
  | ok rs => exact attempt_guarded _ _ _ e

theorem addRecipients_eq (role : Role) (rs : List Recipient) (e : Email) :
    e.addRecipients role rs = if rs = [] then .error (.missing .recipients)
      else .ok (e.extendRecipients (rs.map (·.withRole (some role)))) := attempt_guarded _ _ _ e

theorem embed_eq (name : Text) (data : Octets) (contentType : Text) (e : Email) :
    e.embed name data contentType = if name = [] then .error (.missing .imageName)
      else (DataSource.make data contentType).map fun s => e.pushImage (.make (some name) s) := by
  rw [embed, Setter.embed]
  split
  · rfl
  · exact attempt_checked _ _ e

theorem embedSource_eq (name : Option Text) (source : DataSource) (e : Email) :
    e.embedSource name source =
      match (name.filter (· ≠ [])).or (source.name.filter (· ≠ [])) with
      | some n => .ok (e.pushImage (.make (some n) source))
      | none => .error .unnamedImage := by
  rw [embedSource, Setter.embedSource]
  cases (name.filter (· ≠ [])).or (source.name.filter (· ≠ [])) <;> rfl

theorem embedSource_named {n : Text} (hn : n ≠ []) (source : DataSource) (e : Email) :
    e.embedSource (some n) source = .ok { e with images := e.images ++ [⟨some n, source⟩] } := by
  have hfilter : (some n).filter (fun t => decide (t ≠ [])) = some n := by simp [Option.filter, hn]
  rw [embedSource_eq, hfilter, Option.some_or]
  simp only [pushImage, Resource.make, hfilter]

theorem embedAll_eq (images : List Resource) (e : Email) : e.embedAll images =
    if images.any (·.name.isNone) then .error .unnamedImage
    else .ok { e with images := e.images ++ images } := attempt_guarded _ _ _ e

theorem addHeader_eq (name value : Text) (e : Email) : e.addHeader name value =
    (checkHeader name value).map fun h => { e with headers := e.headers.set h.1 h.2 } :=
  attempt_checked _ _ e

theorem addHeaders_eq (headers : List (Text × Text)) (e : Email) : e.addHeaders headers =
    (headers.mapM fun h => checkHeader h.1 h.2).map fun hs =>
      { e with headers := e.headers.setAll hs } := attempt_checked _ _ e

theorem attach_eq (name : Option Text) (data : Octets) (contentType : Text) (e : Email) :
    e.attach name data contentType =
      (DataSource.make data contentType).map fun s => e.attachSource name s :=
  attempt_checked _ _ e

theorem signWith_eq (key : SigningKey) (domain selector : Text) (e : Email) :
    e.signWith key domain selector =
      (Signing.make key domain selector).map fun s => { e with signing := some s } :=
  attempt_checked _ _ e

theorem requestNoticeAt_eq (kind : NoticeKind) (address : Text) (e : Email) :
    e.requestNoticeAt kind address =
      (Recipient.interpret none address kind.argument).map fun r => e.requestNoticeTo kind r :=
  attempt_checked _ _ e

theorem attempt_after {α : Type} (x : Minting α) (f : α → Priming) (e : Email) (mint : Mint) :
    (liftM x >>= f : Priming).attempt e mint = (f (x mint).1).attempt e (x mint).2 := rfl

section

variable [Charsets]

theorem primeReply_apply (parent : Parent) (toAll : Bool) (template : Text) (e : Email)
    (mint : Mint) : e.primeReply parent toAll template mint =
      if Quotation.countPlaceholders template ≠ 1 then (.error (.badTemplate template), mint)
      else (match skeletonOf (parent.asMessage mint).1 toAll, parent.asEmail with
        | .error err, _ => .error (.replyFailed err)
        | .ok _, .error err => .error (.replyFailed err)
        | .ok skeleton, .ok repliedTo => .ok (adoptReply template skeleton repliedTo e),
        (parent.asMessage mint).2) := by
  rw [primeReply, Priming.reply]
  split
  · rfl
  · rw [attempt_after]
    cases skeletonOf (parent.asMessage mint).1 toAll with
    | error err => rfl
    | ok skeleton => cases parent.asEmail <;> rfl

theorem primeForward_apply (parent : Parent) (e : Email) (mint : Mint) :
    e.primeForward parent mint = ((parent.asMessage mint).1.subject.mapError .forwardFailed |>.map
      fun subject => { e with
        subject := some ("Fwd: ".toList ++ subject.getD [])
        forwarded := some (parent.asMessage mint).1 }, (parent.asMessage mint).2) := by
  rw [primeForward, Priming.forward, attempt_after]
  cases (parent.asMessage mint).1.subject <;> rfl

end

end Email
end Epistle
