import Epistle.Proofs.Email.Invariant

/-!
What can be relied on in any letter, said of its fields one by one. It holds however the letter came
to be held, after any steps, refused ones among them, and whatever the messages say that it was read
from or replies to.
-/
namespace Epistle
namespace Email

/-- Everyone whom a letter names outside its list of recipients. -/
def parties (e : Email) : List Recipient :=
  e.sender.toList ++ e.replyTo.toList ++ e.bounceTo.toList ++ e.disposition.explicit?.toList ++
    e.receipt.explicit?.toList

structure WellFormed (e : Email) : Prop where
  distinct : e.recipients.entries.Pairwise fun a b => ¬ (a.address = b.address ∧ a.role = b.role)
  recipients : ∀ r ∈ e.recipients.entries, r.Valid ∧ r.role ≠ none
  parties : ∀ r ∈ e.parties, r.Valid ∧ r.role = none
  notices : ∀ n ∈ [e.disposition, e.receipt], n.explicit? ≠ none → n.isRequested
  subject : ∀ s, e.subject = some s → s ≠ []
  id : ∀ id, e.id = some id → Text.hasControl id = false
  headers : ∀ p ∈ e.headers, FieldName.isValid p.1 ∧ p.2 ≠ [] ∧ '\r' ∉ p.2 ∧ '\n' ∉ p.2
  images : ∀ r ∈ e.images, ∃ name, r.name = some name ∧ name ≠ []
  sources : ∀ r ∈ e.images ++ e.attachments, r.source.Valid
  signing : ∀ s, e.signing = some s → s.Valid

variable {e : Email}

theorem alone_of_mem {party : Option Recipient} (hp : ∀ r, party = some r → r.Alone)
    {r : Recipient} (hr : r ∈ party.toList) : r.Valid ∧ r.role = none :=
  ⟨(hp r (Option.mem_toList.1 hr)).valid, (hp r (Option.mem_toList.1 hr)).role⟩

theorem Sound.parties_alone (h : e.Sound) : ∀ r ∈ e.parties, r.Valid ∧ r.role = none := by
  simp only [Email.parties, List.forall_mem_append]
  exact ⟨⟨⟨⟨fun _ => alone_of_mem h.sender, fun _ => alone_of_mem h.replyTo⟩,
    fun _ => alone_of_mem h.bounceTo⟩, fun _ => alone_of_mem h.disposition.alone⟩,
    fun _ => alone_of_mem h.receipt.alone⟩

theorem same_eq_false {a b : Recipient} (h : a.same b = false) :
    ¬ (a.address = b.address ∧ a.role = b.role) := by
  rintro ⟨haddress, hrole⟩
  simp [Recipient.same, haddress, hrole] at h

theorem Sound.wellFormed (h : e.Sound) : e.WellFormed where
  distinct := h.distinct.imp same_eq_false
  recipients := h.recipients
  parties := h.parties_alone
  notices := List.forall_mem_cons.2
    ⟨h.disposition.requested, List.forall_mem_singleton.2 h.receipt.requested⟩
  subject s hs := by
    rintro rfl
    exact h.subject hs
  id := h.id
  headers p hp := by
    have hentry := h.headers p hp
    exact ⟨hentry.name, hentry.value_ne, fun hc => (hentry.value_line _ hc).1 rfl,
      fun hc => (hentry.value_line _ hc).2 rfl⟩
  images r hr := by
    obtain ⟨name, hname⟩ := Option.ne_none_iff_exists'.1 (h.images r hr).2
    refine ⟨name, hname, ?_⟩
    rintro rfl
    exact (h.images r hr).1.name_ne hname
  sources := List.forall_mem_append.2
    ⟨fun r hr => (h.images r hr).1.source, fun r hr => (h.attachments r hr).source⟩
  signing := h.signing

/-- After any steps a letter is well formed, whether or not each of them went through. -/
theorem performAll_wellFormed [Charsets] (h : Reachable e) {steps : List Step}
    (hs : ∀ s ∈ steps, s.Made ∧ ∀ p, s.parent? = some p → Reachable p) (mint : Mint) :
    (e.performAll steps mint).1.WellFormed := (h.performAll hs mint).sound.wellFormed

/-- Steps of which the second, the third and the fifth are refused. -/
def stubborn : List Step :=
  [.addAddresses .direct (some "Jane".toList) ["jane@x.com".toList, " jane@x.com ".toList],
    .setSubject [], .addHeader "X-Note".toList "a\r\nBcc: evil@x.com".toList,
    .requestNoticeTo .receipt ⟨none, "jane@x.com".toList, some .direct⟩,
    .setParty .sender none "\r\n".toList]

theorem performAll_wellFormed_stubborn :
    (performAll ∅ stubborn ⟨0, fun _ => 0⟩).1.WellFormed ∧
      (performAll ∅ stubborn ⟨0, fun _ => 0⟩).1 =
        { empty with
          recipients := ⟨[⟨some "Jane".toList, "jane@x.com".toList, some .direct⟩]⟩
          receipt := .toward ⟨none, "jane@x.com".toList, none⟩ } := by
  have hmade : Recipient.Made ⟨none, "jane@x.com".toList, some .direct⟩ :=
    ⟨none, "jane@x.com".toList, some .direct, by decide⟩
  refine ⟨performAll_wellFormed .empty ?_ _, rfl⟩
  simp only [stubborn, List.forall_mem_cons, List.not_mem_nil, false_imp_iff, implies_true,
    and_true]
  exact ⟨⟨trivial, fun _ hp => nomatch hp⟩, ⟨trivial, fun _ hp => nomatch hp⟩,
    ⟨trivial, fun _ hp => nomatch hp⟩, ⟨hmade, fun _ hp => nomatch hp⟩,
    ⟨trivial, fun _ hp => nomatch hp⟩⟩

end Email
end Epistle
