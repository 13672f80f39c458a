import Epistle.Proofs.Email.Setters
import Epistle.Proofs.Mime.Resource
import Epistle.Settings.Defaults

/-!
The letters a program can come to hold. A letter begins empty, from defaults, or as a message that
was received, and changes by steps whose arguments come out of their constructors; what is replied
to or forwarded is a message of any kind or a letter held before.
-/
namespace Epistle
namespace Email

namespace Step

/-- The recipients, sources and resources that the step is given were made by their
constructors. -/
def Made : Step → Prop
  | setRecipient _ r | requestNoticeTo _ r => r.Made
  | addRecipients _ rs => ∀ r ∈ rs, r.Made
  | embedSource _ s | attachSource _ s => s.Made
  | embedAll rs | attachAll rs => ∀ r ∈ rs, r.Made
  | _ => True

/-- The letter that the step replies to or forwards, if it is one. -/
def parent? : Step → Option Email
  | reply (.email p) _ _ | forward (.email p) => some p
  | _ => none

end Step

theorem performAll_cons [Charsets] (s : Step) (steps : List Step) (e : Email) (mint : Mint) :
    e.performAll (s :: steps) mint =
      (s.perform e mint).1.performAll steps (s.perform e mint).2 := rfl

/-- The letters that a program can come to hold. -/
inductive Reachable [Charsets] : Email → Prop where
  | empty : Reachable ∅
  | seeded {d : Defaults} {e : Email} : ofDefaults d = .ok e → Reachable e
  | received {m : Message} {e : Email} : ofMessage m = .ok e → Reachable e
  | step {e e' : Email} {s : Step} {mint : Mint} : Reachable e → s.Made →
      (∀ p, s.parent? = some p → Reachable p) → (s.apply e mint).1 = .ok e' → Reachable e'

/-- A step that needs neither another letter nor the mint. -/
theorem Reachable.write [Charsets] {e e' : Email} (he : Reachable e) (s : Step) (hs : s.Made)
    (hp : s.parent? = none) (h : (s.apply e ⟨0, fun _ => 0⟩).1 = .ok e') : Reachable e' := by
  refine he.step hs ?_ h
  intro p hparent
  rw [hp] at hparent
  cases hparent

theorem Reachable.perform [Charsets] {e : Email} (he : Reachable e) {s : Step} (hs : s.Made)
    (hp : ∀ p, s.parent? = some p → Reachable p) (mint : Mint) :
    Reachable (s.perform e mint).1 := by
  rw [Step.perform_eq]
  cases hstep : (s.apply e mint).1 with
  | error err => exact he
  | ok e' => exact he.step hs hp hstep

theorem Reachable.performAll [Charsets] {e : Email} (he : Reachable e) {steps : List Step}
    (hs : ∀ s ∈ steps, s.Made ∧ ∀ p, s.parent? = some p → Reachable p) (mint : Mint) :
    Reachable (e.performAll steps mint).1 := by
  induction steps generalizing e mint with
  | nil => exact he
  | cons s steps ih =>
      have hfirst := he.perform (hs s (by simp)).1 (hs s (by simp)).2 mint
      rw [performAll_cons]
      exact ih hfirst (fun t ht => hs t (by simp [ht])) (s.perform e mint).2

end Email
end Epistle
