import Epistle.Proofs.Email.Nesting
import Mathlib.Data.List.Induction

/-!
Chains of forwards. Each letter carries the one before it as it was rendered, so the last holds them
all, one inside the other, and they are found again one after the other. Freshness is stated for the
mint that a letter is rendered from: what it gives then was not given before.
-/
namespace Epistle

namespace Email

/-- From `mint` the letter is rendered with boundaries that were not there before: the counter does
not come round, and where the letter carries `first`, no header of that has guessed a delimiter for
its name. -/
structure Fresh (first e : Email) (mint : Mint) : Prop where
  counter : mint.counter ≤ (e.render mint).2.counter
  names : e.forwarded ≠ none →
    ∀ b ∈ (e.topPart mint).boundaries, ∀ p ∈ first.headers, ¬ "--".toList ++ b <+: p.1

/-- `last` is the last of a chain of forwards that begins with `first`. Each is written from one of
the texts `ts` and the letter before it, and `ms` are the messages that they carry, the last one
first. `mint` is what the chain leaves of the mint, from which others may take numbers meanwhile. -/
inductive Forwards [Charsets] (first : Email) :
    List (Option Text) → List Message → Email → Mint → Prop
  | first (mint : Mint) : Forwards first [] [] first mint
  | next {ts : List (Option Text)} {ms : List Message} {t : Option Text} {m : Message}
      {parent last : Email} {before mint after : Mint} : Forwards first ts ms parent before →
      before.counter ≤ mint.counter → Fresh first parent mint →
      (setText t ∅).primeForward (.email parent) mint = (.ok last, after) →
      last.forwarded = some m → Forwards first (ts ++ [t]) (m :: ms) last after

/-- The messages `ms` are carried one inside the other, the first of them by the letter that the
message is. -/
def Unfolds [Charsets] : Message → List Message → Prop
  | _, [] => True
  | m, inner :: rest => ∃ e, ofMessage m = .ok e ∧ e.forwarded = some inner ∧ Unfolds inner rest

def forwardedSubject (n : Nat) (s : Text) : Text :=
  (List.replicate n "Fwd: ".toList).flatten ++ s

variable {first e parent last : Email} {ts : List (Option Text)} {ms : List Message} {s : Text}
  {before mint after : Mint}

theorem forwardedSubject_succ (n : Nat) (s : Text) :
    forwardedSubject (n + 1) s = "Fwd: ".toList ++ forwardedSubject n s := by
  rw [forwardedSubject, List.replicate_succ, List.flatten_cons, List.append_assoc]
  rfl

theorem legible_forwardedSubject (h : LegibleText s) (hne : s ≠ []) (n : Nat) :
    LegibleText (forwardedSubject n s) ∧ forwardedSubject n s ≠ [] := by
  induction n with
  | zero => exact ⟨h, hne⟩
  | succ n ih =>
      have hfwd : LegibleText "Fwd:".toList := ⟨by decide, fun _ => by decide⟩
      rw [forwardedSubject_succ]
      exact ⟨hfwd.join ih.1 (by decide) ih.2, by simp⟩

/-- What every letter of a chain of forwards is: light, with the subject of its place, and carrying
the messages before it in order, which show no boundary that is taken later. -/
structure Nested [Charsets] (first : Email) (s : Text) (ms : List Message) (e : Email)
    (mint : Mint) : Prop where
  legible : LegibleText s
  ne_nil : s ≠ []
  sound : e.Sound
  light : e.Light
  headers : ∀ p ∈ e.headers, p ∈ first.headers
  subject : e.subject = some (forwardedSubject ms.length s)
  forwarded : e.forwarded = ms.head?
  clear : ∀ number now, mint.counter ≤ number →
    (∀ p ∈ first.headers, ¬ "--".toList ++ Mint.boundaryText number now <+: p.1) →
    ∀ m, e.forwarded = some m → m.Clear (Mint.boundaryText number now)
  unfolds : ∀ m rest, ms = m :: rest → Unfolds m rest

/-- The rendering of a letter of the chain unfolds into all the messages it carries. -/
theorem Nested.unfolds_render [Charsets] (h : Nested first s ms e before)
    (hlater : before.counter ≤ mint.counter) (hfresh : Fresh first e mint) :
    Unfolds (e.render mint).1 ms := by
  have hclear : ∀ b ∈ (e.topPart mint).boundaries, ∀ m, e.forwarded = some m → m.Clear b := by
    intro b hb m hm
    have hnames := hfresh.names (by simp [hm]) b hb
    obtain ⟨number, now, rfl, hnumber, -⟩ := number_of_boundaries hfresh.counter hb
    exact h.clear number now (UInt64.le_trans hlater hnumber) hnames m hm
  obtain ⟨e', hread, hforwarded⟩ := h.sound.ofMessage_light h.light hclear
  cases ms with
  | nil => trivial
  | cons m rest => exact ⟨e', hread, hforwarded.trans h.forwarded, h.unfolds m rest rfl⟩

theorem Nested.clear_render [Charsets] (h : Nested first s ms e before)
    (hlater : before.counter ≤ mint.counter) (hfresh : Fresh first e mint) {number : UInt64}
    {now : Date.Instant} (hnumber : (e.render mint).2.counter ≤ number)
    (hnames : ∀ p ∈ first.headers, ¬ "--".toList ++ Mint.boundaryText number now <+: p.1) :
    (e.render mint).1.Clear (Mint.boundaryText number now) := by
  have hmint : before.counter ≤ number :=
    UInt64.le_trans hlater (UInt64.le_trans hfresh.counter hnumber)
  exact h.sound.clear_render h.light hfresh.counter hnumber
    (fun p hp => hnames p (h.headers p hp)) (h.clear number now hmint hnames)

theorem Sound.subject_render [Charsets] (h : e.Sound) (hs : e.subject = some s)
    (hlegible : LegibleText s) (mint : Mint) : (e.render mint).1.subject = .ok (some s) := by
  rw [Message.subject, Message.header, h.readBlock_octets mint]
  exact congrArg Except.ok (h.subject_readBack mint hs hlegible)

/-- A forward of a sound letter succeeds: it says that it is one and carries the letter as it is
rendered. -/
theorem Sound.primeForward_email [Charsets] (h : parent.Sound) (hs : parent.subject = some s)
    (hlegible : LegibleText s) (b : Email) (mint : Mint) :
    b.primeForward (.email parent) mint =
      (.ok { b with
        subject := some ("Fwd: ".toList ++ s)
        forwarded := some (parent.render mint).1 }, (parent.render mint).2) := by
  have hsubject : ((Parent.email parent).asMessage mint).1.subject = .ok (some s) :=
    h.subject_render hs hlegible mint
  rw [primeForward_apply, hsubject]
  rfl

theorem Nested.forward [Charsets] (h : Nested first s ms parent before)
    (hlater : before.counter ≤ mint.counter) (hfresh : Fresh first parent mint) {t : Option Text}
    (ht : ∀ t', t = some t' → Calm t') {m : Message}
    (hforward : (setText t ∅).primeForward (.email parent) mint = (.ok last, after))
    (hm : last.forwarded = some m) : Nested first s (m :: ms) last after := by
  have hsound : Sound (setText t ∅) := { Sound.empty with }
  have hparent := (legible_forwardedSubject h.legible h.ne_nil ms.length).1
  -- The new letter is a text and the message, so its other parts are empty and it has no headers.
  rw [h.sound.primeForward_email h.subject hparent] at hforward
  cases hforward
  cases hm
  exact {
    legible := h.legible
    ne_nil := h.ne_nil
    sound := { hsound with subject := by simp }
    light := ⟨rfl, rfl, ht, nofun⟩
    headers := nofun
    subject := congrArg some (forwardedSubject_succ ms.length s).symm
    forwarded := rfl
    clear := by
      rintro number now hnumber hnames m ⟨⟩
      exact h.clear_render hlater hfresh hnumber hnames
    unfolds := by
      rintro m rest ⟨⟩
      exact h.unfolds_render hlater hfresh }

/-- A letter that carries none yet is where a chain may begin. -/
theorem nested_first [Charsets] (hsound : first.Sound) (hlight : first.Light)
    (hnone : first.forwarded = none) (hs : first.subject = some s) (hlegible : LegibleText s)
    (mint : Mint) : Nested first s [] first mint where
  legible := hlegible
  ne_nil := fun he => hsound.subject (by rw [hs, he])
  sound := hsound
  light := hlight
  headers := fun _ hp => hp
  subject := hs
  forwarded := hnone
  clear := by
    intro number now _ _ m hm
    rw [hnone] at hm
    cases hm
  unfolds := nofun

theorem Forwards.nested [Charsets] (h : Forwards first ts ms last mint)
    (hfirst : ∀ mint, Nested first s [] first mint) (hts : ∀ t, some t ∈ ts → Calm t) :
    ms.length = ts.length ∧ Nested first s ms last mint := by
  induction h with
  | first mint => exact ⟨rfl, hfirst mint⟩
  | @next ts ms t m parent last before mint after _ hlater hfresh hforward hm ih =>
      obtain ⟨hlength, hnested⟩ := ih fun t' ht' => hts t' (List.mem_append_left _ ht')
      have ht : ∀ t', t = some t' → Calm t' := by
        rintro t' rfl
        exact hts t' (by simp)
      exact ⟨by simp [hlength], hnested.forward hlater hfresh ht hforward hm⟩

/-- However often a letter is forwarded, the subject says so as often, and the rendering of the last
forward unfolds into the messages that the forwards carry, octet for octet. -/
theorem forwards_unfold [Charsets] (h : Reachable first) (hlight : first.Light)
    (hnone : first.forwarded = none) (hs : first.subject = some s) (hlegible : LegibleText s)
    (hts : ∀ t, some t ∈ ts → Calm t) (hchain : Forwards first ts ms last before)
    (hlater : before.counter ≤ mint.counter) (hfresh : Fresh first last mint) :
    last.subject = some ((List.replicate ts.length "Fwd: ".toList).flatten ++ s) ∧
      ms.length = ts.length ∧ Unfolds (last.render mint).1 ms := by
  have hfirst := nested_first h.sound hlight hnone hs hlegible
  obtain ⟨hlength, hnested⟩ := hchain.nested hfirst hts
  refine ⟨?_, hlength, hnested.unfolds_render hlater hfresh⟩
  rw [← hlength]
  exact hnested.subject

theorem calm_of_no_dash {t : Text} (h : Delimiter.dash ∉ Utf8.encode t) : Calm t :=
  Delimiter.not_startsLine ⟨by decide, by decide, by decide⟩ h

/-- No delimiter is guessed by names that do not begin with a dash. -/
theorem fresh_of_names (h : ∀ p ∈ first.headers, p.1.head? ≠ some '-')
    (hcounter : mint.counter ≤ (e.render mint).2.counter) : Fresh first e mint :=
  ⟨hcounter, fun _ _ _ p hp => not_prefix_of_head (h p hp)⟩

/-- Chains of any length exist as long as the counter lasts. -/
theorem exists_forwards [Charsets] (hfirst : ∀ mint, Nested first s [] first mint)
    (hnames : ∀ p ∈ first.headers, p.1.head? ≠ some '-') (hts : ∀ t, some t ∈ ts → Calm t)
    (hroom : 4 * ts.length < UInt64.size) : ∃ ms last before, Forwards first ts ms last before ∧
      before.counter.toNat ≤ 4 * ts.length := by
  induction ts using List.reverseRecOn with
  | nil => exact ⟨[], first, ⟨0, fun _ => 0⟩, .first _, Nat.le_refl 0⟩
  | append_singleton ts t ih =>
      rw [List.length_append, List.length_singleton] at hroom ⊢
      have hfront : ∀ t, some t ∈ ts → Calm t := fun t ht => hts t (List.mem_append_left _ ht)
      obtain ⟨ms, parent, before, hchain, hcounter⟩ := ih hfront (by omega)
      obtain ⟨-, hnested⟩ := hchain.nested hfirst hfront
      have hparent := (legible_forwardedSubject hnested.legible hnested.ne_nil ms.length).1
      have hbefore : before.counter.toNat + 4 < UInt64.size := by omega
      -- A forward renders its parent, and that takes four numbers at most.
      obtain ⟨hrender, hafter⟩ := counter_render parent hbefore
      have hforward := hnested.sound.primeForward_email hnested.subject hparent (setText t ∅) before
      have hnext := hchain.next (UInt64.le_refl _) (fresh_of_names hnames hrender) hforward rfl
      exact ⟨_, _, _, hnext, by omega⟩

def bulletin : Email :=
  { empty with
    subject := some "Grüße".toList
    text := some "Hi Jane".toList
    html := some "<p>Hi Jane</p>".toList
    headers := [("X-Priority".toList, "1".toList)] }

theorem unheaded_reachable [Charsets] : Reachable { bulletin with headers := [] } := by
  have hfirst := Reachable.empty.write (.setSubject "Grüße".toList) trivial rfl rfl
  have hsecond := hfirst.write (.setText (some "Hi Jane".toList)) trivial rfl rfl
  exact hsecond.write (.setHtml (some "<p>Hi Jane</p>".toList)) trivial rfl rfl

theorem bulletin_reachable [Charsets] : Reachable bulletin :=
  unheaded_reachable.write (.addHeader "X-Priority".toList "1".toList) trivial rfl rfl

theorem bulletin_light : bulletin.Light where
  images := rfl
  attachments := rfl
  text := by
    rintro t ⟨⟩
    exact calm_of_no_dash (by decide)
  html := by
    rintro t ⟨⟩
    exact calm_of_no_dash (by decide)

theorem legible_bulletin : LegibleText "Grüße".toList := ⟨by decide, by decide⟩

/-- The bulletin is forwarded with a text above it, and the forward once more with none. -/
theorem forwards_unfold_bulletin : ∃ ms last before,
    Forwards bulletin [some "See below".toList, none] ms last before ∧
    last.subject = some "Fwd: Fwd: Grüße".toList ∧ ms.length = 2 ∧
    Unfolds (last.render before).1 ms := by
  have hcalm : ∀ t, some t ∈ [some "See below".toList, none] → Calm t := by
    intro t ht
    simp only [List.mem_cons, Option.some.injEq, reduceCtorEq, List.not_mem_nil, or_false] at ht
    rw [ht]
    exact calm_of_no_dash (by decide)
  have hnames : ∀ p ∈ bulletin.headers, p.1.head? ≠ some '-' := by decide
  have hfirst := nested_first bulletin_reachable.sound bulletin_light rfl rfl legible_bulletin
  obtain ⟨ms, last, before, hchain, hfew⟩ := exists_forwards hfirst hnames hcalm (by decide)
  have hroom : before.counter.toNat + 4 < UInt64.size := Nat.lt_of_le_of_lt
    (Nat.add_le_add_right hfew 4) (by decide)
  have hfresh : Fresh bulletin last before := fresh_of_names hnames (counter_render last hroom).1
  obtain ⟨hsubject, hlength, hunfolds⟩ := forwards_unfold bulletin_reachable bulletin_light rfl rfl
    legible_bulletin hcalm hchain (UInt64.le_refl _) hfresh
  exact ⟨ms, last, before, hchain, hsubject, hlength, hunfolds⟩

/-- The bulletin with a header whose name is the delimiter of the letter that is to carry it. -/
def guessing : Email := { bulletin with headers := [("------=_Part_3_0".toList, "1".toList)] }

theorem guessing_reachable [Charsets] : Reachable guessing :=
  unheaded_reachable.write (.addHeader "------=_Part_3_0".toList "1".toList) trivial rfl rfl

/-- The forward of a letter with the bulletin's subject that is rendered from the first numbers. -/
def passedOn (e : Email) : Email :=
  { setText (some "See below".toList) ∅ with
    subject := some "Fwd: Grüße".toList
    forwarded := some (e.render ⟨0, fun _ => 0⟩).1 }

theorem forwards_passedOn [Charsets] (h : e.Sound) (hs : e.subject = some "Grüße".toList)
    (hnone : e.forwarded = none) : Forwards e [some "See below".toList]
      [(e.render ⟨0, fun _ => 0⟩).1] (passedOn e) (e.render ⟨0, fun _ => 0⟩).2 := by
  have hforward := h.primeForward_email hs legible_bulletin (setText (some "See below".toList) ∅)
    ⟨0, fun _ => 0⟩
  have hfresh : Fresh e e ⟨0, fun _ => 0⟩ :=
    ⟨(counter_render e (by decide)).1, fun hsome => absurd hnone hsome⟩
  exact (Forwards.first ⟨0, fun _ => 0⟩).next (UInt64.le_refl _) hfresh hforward rfl

theorem not_unfolds [Charsets] {m inner : Message}
    (h : (ofMessage m).toOption.bind forwarded ≠ some inner) : ¬ Unfolds m [inner] := by
  rintro ⟨e, hread, hinner, -⟩
  rw [hread] at h
  exact h hinner

/-- A message that has a line like a delimiter of the letter that carries it is not found whole: not
where the name of a header is that delimiter, and not where the delimiter is one of its own, the
counter having come round to where it began. -/
theorem forwards_cut :
    (Reachable guessing ∧ guessing.Light ∧ guessing.forwarded = none ∧
      guessing.subject = some "Grüße".toList ∧ LegibleText "Grüße".toList ∧
      Calm "See below".toList) ∧
    (Forwards guessing [some "See below".toList] [(guessing.render ⟨0, fun _ => 0⟩).1]
      (passedOn guessing) ⟨2, fun _ => 0⟩ ∧
      ¬ Unfolds ((passedOn guessing).render ⟨2, fun _ => 0⟩).1
        [(guessing.render ⟨0, fun _ => 0⟩).1]) ∧
    Forwards bulletin [some "See below".toList] [(bulletin.render ⟨0, fun _ => 0⟩).1]
      (passedOn bulletin) ⟨2, fun _ => 0⟩ ∧
      ¬ Unfolds ((passedOn bulletin).render ⟨0, fun _ => 0⟩).1
        [(bulletin.render ⟨0, fun _ => 0⟩).1] := by
  have hguessing := forwards_passedOn guessing_reachable.sound rfl rfl
  have hbulletin := forwards_passedOn bulletin_reachable.sound rfl rfl
  refine ⟨⟨guessing_reachable, { bulletin_light with }, rfl, rfl, legible_bulletin,
    calm_of_no_dash (by decide)⟩, ⟨hguessing, not_unfolds ?_⟩, hbulletin, not_unfolds ?_⟩
  · decide +kernel
  · decide +kernel

end Email
end Epistle
