import Epistle.Proofs.Address.Entries
import Epistle.Proofs.Address.Machine
import Epistle.Proofs.Checked

/-!
Recipients as the text of a list. Each of them is one entry, which is read as the name and the
address that it shows, so the whole list comes back from its text. Names may hold anything: what is
quoted hides from the scan, and the reader of mailboxes takes the escapes off again.
-/
namespace Epistle

namespace Recipient

/-- The characters that mean something in the text of a list where an address stands. -/
def punctuation : Text := ['"', '<', '>', '(', ',', ';', ':', '\\']

/-- A recipient whose address can stand in the text of a list. -/
def Listable (r : Recipient) : Prop := '@' ∈ r.address ∧ ∀ c ∈ punctuation, c ∉ r.address

instance (r : Recipient) : Decidable r.Listable := inferInstanceAs (Decidable (_ ∧ _))

variable {r : Recipient}

theorem Listable.isCalm (h : r.Listable) {c : Char} (hc : c ∈ r.address) :
    Entries.Scan.isCalm c := by
  have hother : ∀ d ∈ punctuation, c ≠ d := by
    rintro d hd rfl
    exact h.2 c hd hc
  exact Entries.Scan.isCalm_iff.2 ⟨hother _ (by decide), hother _ (by decide),
    hother _ (by decide), hother _ (by decide), hother _ (by decide), hother _ (by decide)⟩

end Recipient

namespace AddressList

open Machine (run_append run_quoted run_mailbox run_address)

variable {r : Recipient}

theorem ofText?_display (hvalid : r.Valid) (h : r.Listable) :
    ofText? r.display = some [.single ⟨r.name, r.address⟩] := by
  obtain ⟨hat, hplain⟩ := h
  cases hn : r.name with
  | none =>
      have hstart := Text.isBlank_head_of_trim hvalid.address_trimmed
      have hquote : r.address.head? ≠ some '"' :=
        fun hhead => hplain '"' (by decide) (List.mem_of_mem_head? hhead)
      have hbare : ∀ c ∈ [',', ';', ':', '<', '('], c ∉ r.address := by
        have hall : ∀ c ∈ [',', ';', ':', '<', '('], c ∈ Recipient.punctuation := by decide
        exact fun c hc => hplain c (hall c hc)
      have hrun := @run_address [] [] r.address hvalid.address_ne hstart hquote hbare
      change (Machine.init.run (r.display.map .char)).bind Machine.finish = _
      simp only [Recipient.display, hn]
      rw [Machine.init, hrun]
      simp [Machine.finish, Machine.push, Mailbox.make?, hat, Machine.trimEnd_address hvalid]
  | some name =>
      have hopen : Machine.init.run ((['"'] : Text).map .char) =
          some ⟨[], none, [], .quoted []⟩ := rfl
      have hclose : Machine.run ⟨[], none, [], .quoted name⟩ ("\" <".toList.map .char) =
          some ⟨[], none, [' '], .bracketed (some name) []⟩ := rfl
      have hbox := @run_mailbox [] [' '] r.address (some name) hat (hplain '>' (by decide))
      change (Machine.init.run (r.display.map .char)).bind Machine.finish = _
      simp only [Recipient.display, hn, List.append_assoc, List.map_append]
      rw [run_append hopen, run_append (run_quoted []), List.nil_append, run_append hclose,
        ← List.map_append, hbox]
      rfl

end AddressList

namespace Recipient

variable {r : Recipient} {l : RecipientList}

/-- The text of a recipient means that recipient, in whichever role it is asked for. -/
theorem interpret_display (hvalid : r.Valid) (h : r.Listable) (role : Option Role) :
    Entries.interpret none r.display role = .ok (r.withRole role) := by
  have hclosed := closed_display hvalid fun c hc => h.isCalm hc
  simp only [Entries.interpret, hclosed.trimmed, if_neg hclosed.ne,
    AddressList.ofText?_display hvalid h, Option.none_or, hvalid.make_self role]

/-- A list is cut into the texts of its recipients and read as the same recipients in their order,
in the role that is asked for, whatever their names hold. -/
theorem parse_display (hne : l.entries ≠ []) (h : ∀ r ∈ l.entries, r.Made ∧ r.Listable)
    (role : Option Role) :
    Entries.split l.display = l.entries.map display ∧
      Entries.parse none l.display role = .ok (l.entries.map (·.withRole role)) := by
  have hsplit : Entries.split l.display = l.entries.map display := by
    refine Entries.split_joinWith ?_ (by simpa using hne)
    intro e he
    obtain ⟨r, hr, rfl⟩ := List.mem_map.1 he
    exact closed_display (h r hr).1.valid fun c hc => (h r hr).2.isCalm hc
  refine ⟨hsplit, ?_⟩
  have hentries : Entries.split l.display ≠ [] := by simpa [hsplit] using hne
  rw [Entries.parse_of_split_ne_nil hentries, hsplit, List.mapM_map]
  exact Checked.mapM_of_ok fun r hr => interpret_display (h r hr).1.valid (h r hr).2 role

/-- Names that hold quotes, separators, brackets, a last backslash and a Greek word, and an address
without a name. -/
def guests : RecipientList := ⟨[
  ⟨some "Ann \"A, B; <c@d>\" \\".toList, "ann@x.com".toList, some .direct⟩,
  ⟨none, "joe@x.com".toList, none⟩,
  ⟨some "Ζωή \\\"".toList, "zoe@x.com".toList, some .blind⟩]⟩

theorem parse_display_guests : (∀ r ∈ guests.entries, r.Made ∧ r.Listable) ∧
    Entries.split guests.display =
      ["\"Ann \\\"A, B; <c@d>\\\" \\\\\" <ann@x.com>".toList, "joe@x.com".toList,
        "\"Ζωή \\\\\\\"\" <zoe@x.com>".toList] ∧
    Entries.parse none guests.display (some .copy) =
      .ok (guests.entries.map (·.withRole (some .copy))) := by
  have hmade : ∀ r ∈ guests.entries, make r.name r.address r.role = .ok r ∧ r.Listable := by decide
  have hguests : ∀ r ∈ guests.entries, r.Made ∧ r.Listable :=
    fun r hr => ⟨⟨_, _, _, (hmade r hr).1⟩, (hmade r hr).2⟩
  obtain ⟨hsplit, hparse⟩ := parse_display (by decide) hguests (some .copy)
  exact ⟨hguests, hsplit, hparse⟩

end Recipient
end Epistle
