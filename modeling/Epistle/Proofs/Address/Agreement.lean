import Epistle.Proofs.Address.Entries
import Epistle.Proofs.Address.Machine
import Epistle.Proofs.Checked

/-!
The scan that cuts a list into entries and the machine that reads an entry. Each has its own idea of
quotes and brackets, and an entry holds more than one mailbox only where the machine ends an address
at a separator that the scan took for a hidden one. In an orderly entry that does not happen, so
whoever keeps only the first mailbox of an entry keeps them all.
-/
namespace Epistle

theorem Entries.Scan.step_unquoted {s : Scan} {c : Char} (hc : c ≠ '"') (h : s.inQuotes = false) :
    (s.step c).inQuotes = false ∧
      (s.step c).inBrackets = (c == '<' || c != '>' && s.inBrackets) := by
  obtain ⟨quotes, brackets, backslash⟩ := s
  cases h
  by_cases hopen : c = '<'
  · simp [step, hopen]
  · by_cases hclose : c = '>'
    · simp [step, hclose]
    · have hneither : (c == '<') = false ∧ (c != '>') = true :=
        ⟨beq_false_of_ne hopen, bne_iff_ne.2 hclose⟩
      simp [step, hc, hopen, hclose, hneither]

namespace AddressList

open Entries (isSeparator Scan)

/-- The places at which a separator ends an entry. -/
def Place.isOpen : Place → Bool
  | .start | .opened | .bare _ | .afterBracketed => true
  | _ => false

namespace Machine

variable {m m' : Machine} {t : Text} {c : Char}

/-- No mailbox has been read. -/
structure Unfilled (m : Machine) : Prop where
  done : m.done = []
  members : ∀ g, m.group = some g → g.members = []

/-- Either one mailbox is all that has been read, or a group is open that can never be ended. -/
def Filled (m : Machine) : Prop := m.group ≠ none ∨ ∃ box, m.done = [.single box]

/-- At most one mailbox has been read, and that one in brackets which end the entry. -/
def Single (m : Machine) : Prop :=
  match m.place with
  | .afterBracketed | .comment none => m.Filled
  | _ => m.Unfilled

theorem Unfilled.openGroup (h : m.Unfilled) {name : Text} (hs : m.openGroup name = some m') :
    m'.Single := by
  rw [Machine.openGroup] at hs
  split at hs
  · cases hs
    refine ⟨h.done, ?_⟩
    rintro g ⟨⟩
    rfl
  · cases hs

theorem Unfilled.push (h : m.Unfilled) {name : Option Text} {address : Text}
    (hs : m.push name address = some m') : m'.Filled := by
  simp only [Machine.push, Option.bind_eq_bind, Option.bind_eq_some_iff] at hs
  obtain ⟨box, -, hs⟩ := hs
  split at hs
  · cases hs
    exact .inr ⟨box, by simp [h.done]⟩
  · cases hs
    exact .inl (by simp)

theorem Unfilled.startChar (h : m.Unfilled) (hc : c ≠ ';') (hs : m.startChar c = some m') :
    m'.Single := by
  simp only [Machine.startChar, if_neg hc] at hs
  split at hs
  · cases hs
    exact ⟨h.done, h.members⟩
  · split at hs
    · cases hs
      exact ⟨h.done, h.members⟩
    · split at hs <;>
      · cases hs
        exact ⟨h.done, h.members⟩

theorem Unfilled.bareChar (h : m.Unfilled) (hc : c ≠ ',' ∧ c ≠ ';') {text : Text}
    (hs : m.bareChar text c = some m') : m'.Single := by
  simp only [Machine.bareChar, if_neg hc.1, if_neg hc.2] at hs
  split at hs
  · cases hs
    exact ⟨h.done, h.members⟩
  · split at hs
    · exact h.openGroup hs
    · split at hs <;>
      · cases hs
        exact ⟨h.done, h.members⟩

theorem Unfilled.phraseChar (h : m.Unfilled) {text : Text}
    (hs : m.phraseChar text c = some m') : m'.Single := by
  simp only [Machine.phraseChar] at hs
  split at hs
  · cases hs
    exact ⟨h.done, h.members⟩
  · split at hs
    · exact h.openGroup hs
    · cases hs
      exact ⟨h.done, h.members⟩

/-- A step keeps to a single mailbox unless it reads a separator that ends the entry. -/
theorem step_single (h : m.Single) (hc : isSeparator c → m.place.isOpen = false)
    (hs : m.stepChar c = some m') : m'.Single := by
  have hopen : m.place.isOpen = true → c ≠ ',' ∧ c ≠ ';' := by
    intro hopen
    have hnot : isSeparator c = false := by
      cases hsep : isSeparator c with
      | false => rfl
      | true =>
          rw [hc hsep] at hopen
          cases hopen
    simpa [isSeparator] using hnot
  -- Only brackets that close fill the machine, and behind them only a separator leads on.
  obtain ⟨done, group, gap, place⟩ := m
  cases place with
  | start => exact h.startChar (hopen rfl).2 hs
  | opened => exact h.startChar (hopen rfl).2 hs
  | quoted name =>
      simp only [stepChar] at hs
      split at hs
      · cases hs
        exact ⟨h.done, h.members⟩
      · split at hs <;>
        · cases hs
          exact ⟨h.done, h.members⟩
  | escaped name =>
      cases hs
      exact ⟨h.done, h.members⟩
  | afterQuoted name =>
      simp only [stepChar] at hs
      split at hs
      · cases hs
        exact ⟨h.done, h.members⟩
      · split at hs
        · cases hs
          exact ⟨h.done, h.members⟩
        · split at hs
          · exact Unfilled.openGroup ⟨h.done, h.members⟩ hs
          · split at hs <;>
            · cases hs
              exact ⟨h.done, h.members⟩
  | bracketed name address =>
      simp only [stepChar] at hs
      split at hs
      · obtain ⟨next, hpush, rfl⟩ := Option.map_eq_some_iff.1 hs
        have hfilled : next.Filled := Unfilled.push ⟨h.done, h.members⟩ hpush
        exact hfilled
      · cases hs
        exact ⟨h.done, h.members⟩
  | afterBracketed =>
      obtain ⟨hcomma, hsemicolon⟩ := hopen rfl
      simp only [stepChar, if_neg hcomma, if_neg hsemicolon] at hs
      split at hs
      · cases hs
        exact h
      · split at hs
        · cases hs
          exact h
        · cases hs
  | bare text => exact h.bareChar (hopen rfl) hs
  | phrase text => exact h.phraseChar hs
  | comment text =>
      simp only [stepChar] at hs
      split at hs
      · cases hs
        cases text with
        | none => exact h
        | some text => exact ⟨h.done, h.members⟩
      · cases hs
        exact h

/-- No separator in the text ends an entry for the machine. -/
def Uncut (m : Machine) : Text → Prop
  | [] => True
  | c :: t => (isSeparator c → m.place.isOpen = false) ∧
      ∀ m', m.stepChar c = some m' → m'.Uncut t

theorem run_char (m : Machine) (c : Char) (t : Text) :
    m.run ((c :: t).map .char) = (m.stepChar c).bind fun m' => m'.run (t.map .char) := by
  rw [List.map_cons, run, List.foldlM_cons]
  rfl

theorem run_single (h : m.Single) (hcut : m.Uncut t) (hrun : m.run (t.map .char) = some m') :
    m'.Single := by
  induction t generalizing m with
  | nil =>
      cases hrun
      exact h
  | cons c t ih =>
      rw [run_char] at hrun
      obtain ⟨next, hstep, hrun⟩ := Option.bind_eq_some_iff.1 hrun
      exact ih (step_single h hcut.1 hstep) (hcut.2 next hstep) hrun

/-- The list of at most one mailbox that a machine ends with. -/
theorem finish_single (h : m.Single) {entries : List AddressEntry}
    (hf : m.finish = some entries) :
    entries = [] ∨ (∃ box, entries = [.single box]) ∨ ∃ name, entries = [.group name []] := by
  rw [finish.eq_def] at hf
  split at hf
  · rename_i g hplace hgroup
    simp only [Single, hplace] at h
    cases hf
    exact .inr (.inr ⟨g.name, by simp [h.done, h.members g hgroup]⟩)
  · rename_i hplace hgroup
    simp only [Single, hplace] at h
    cases hf
    exact .inl h.done
  · rename_i hplace hgroup
    simp only [Single, hplace] at h
    cases hf
    exact .inr (.inl (h.resolve_left (not_not.2 hgroup)))
  · rename_i text hplace hgroup
    simp only [Single, hplace] at h
    obtain ⟨next, hpush, rfl⟩ := Option.map_eq_some_iff.1 hf
    simp only [Machine.push, hgroup, Option.bind_eq_bind, Option.bind_eq_some_iff] at hpush
    obtain ⟨box, -, hnext⟩ := hpush
    cases hnext
    exact .inr (.inl ⟨box, by simp [h.done]⟩)
  · cases hf

theorem uncut_of_no_separator (h : ∀ c ∈ t, isSeparator c = false) (m : Machine) : m.Uncut t := by
  induction t generalizing m with
  | nil => trivial
  | cons c t ih =>
      obtain ⟨hc, ht⟩ := List.forall_mem_cons.1 h
      refine ⟨?_, fun m' _ => ih ht m'⟩
      intro hsep
      rw [hc] at hsep
      cases hsep

/-- Where the scan and the machine agree, outside quotes: in brackets both are, or neither. In a
comment, which only the machine knows of, no bracket may open. -/
def InStep (m : Machine) (s : Scan) (inComment : Bool) : Prop :=
  match m.place with
  | .quoted _ | .escaped _ => False
  | .bracketed _ _ => s.inQuotes = false ∧ s.inBrackets = true
  | .comment _ => s.outside ∧ inComment
  | _ => s.outside

theorem InStep.isOpen_eq_false {s : Scan} {inComment : Bool} (h : m.InStep s inComment)
    (hhidden : s.outside = false) : m.place.isOpen = false := by
  obtain ⟨done, group, gap, place⟩ := m
  cases place with
  | quoted | escaped | afterQuoted | bracketed | phrase | comment => rfl
  | start | opened | afterBracketed | bare =>
      simp only [InStep] at h
      rw [hhidden] at h
      cases h

/-- No bracket opens between parentheses. -/
def quietComments (inComment : Bool) : Text → Bool
  | [] => true
  | c :: t => !(inComment && c == '<') && quietComments (c == '(' || inComment && c != ')') t

/-- What a step has to bring the machine to, from outside all brackets. -/
structure Leads (s : Scan) (c : Char) : Prop where
  opens : c = '<' → (s.step c).inQuotes = false ∧ (s.step c).inBrackets = true
  stays : c ≠ '<' → (s.step c).outside

theorem leads_of_outside {s : Scan} (h : s.outside) (hc : c ≠ '"') : Leads s c := by
  simp only [Scan.outside, Bool.and_eq_true, Bool.not_eq_true'] at h
  obtain ⟨hquotes, hbrackets⟩ := Scan.step_unquoted hc h.1
  refine ⟨?_, ?_⟩
  · rintro rfl
    exact ⟨hquotes, hbrackets.trans rfl⟩
  · intro hne
    simp [Scan.outside, hquotes, hbrackets, h.2, hne]

variable {s : Scan} {inComment : Bool}

theorem openGroup_inStep {name : Text} (h : s.outside) (hs : m.openGroup name = some m') :
    m'.InStep s inComment := by
  rw [Machine.openGroup] at hs
  split at hs
  · cases hs
    exact h
  · cases hs

theorem startChar_inStep (h : Leads s c) (hquote : c ≠ '"') (hsemicolon : c ≠ ';')
    (hs : m.startChar c = some m') : m'.InStep (s.step c) inComment := by
  simp only [startChar, if_neg hquote, if_neg hsemicolon] at hs
  split at hs
  · rename_i hblank
    cases hs
    refine h.stays ?_
    rintro rfl
    exact absurd hblank (by decide)
  · split at hs
    · rename_i hopen
      cases hs
      exact h.opens hopen
    · rename_i hopen
      cases hs
      exact h.stays hopen

theorem bareChar_inStep (h : Leads s c) (hsep : c ≠ ',' ∧ c ≠ ';') {text : Text}
    (hs : m.bareChar text c = some m') :
    m'.InStep (s.step c) (c == '(' || inComment && c != ')') := by
  simp only [bareChar, if_neg hsep.1, if_neg hsep.2] at hs
  split at hs
  · rename_i hopen
    cases hs
    exact h.opens hopen
  · rename_i hopen
    split at hs
    · exact openGroup_inStep (h.stays hopen) hs
    · split at hs
      · rename_i hcomment
        cases hs
        exact ⟨h.stays hopen, by simp [hcomment]⟩
      · cases hs
        exact h.stays hopen

theorem phraseChar_inStep (h : Leads s c) {text : Text} (hs : m.phraseChar text c = some m') :
    m'.InStep (s.step c) inComment := by
  simp only [phraseChar] at hs
  split at hs
  · rename_i hopen
    cases hs
    exact h.opens hopen
  · rename_i hopen
    split at hs
    · exact openGroup_inStep (h.stays hopen) hs
    · cases hs
      exact h.stays hopen

theorem step_inStep (h : m.InStep s inComment) (hquote : c ≠ '"') (hcalm : inComment → c ≠ '<')
    (hcut : ¬ (isSeparator c ∧ s.outside)) (hs : m.stepChar c = some m') :
    m'.InStep (s.step c) (c == '(' || inComment && c != ')') := by
  have hsep : s.outside → c ≠ ',' ∧ c ≠ ';' := by
    intro hout
    simpa [isSeparator, hout] using hcut
  -- A bracket opens or closes for both at once; only a comment could hide one from the machine.
  obtain ⟨done, group, gap, place⟩ := m
  cases place with
  | start => exact startChar_inStep (leads_of_outside h hquote) hquote (hsep h).2 hs
  | opened => exact startChar_inStep (leads_of_outside h hquote) hquote (hsep h).2 hs
  | quoted name => exact h.elim
  | escaped name => exact h.elim
  | afterQuoted name =>
      have hleads := leads_of_outside h hquote
      simp only [stepChar, if_neg hquote] at hs
      split at hs
      · rename_i hblank
        cases hs
        refine hleads.stays ?_
        rintro rfl
        exact absurd hblank (by decide)
      · split at hs
        · rename_i hopen
          cases hs
          exact hleads.opens hopen
        · rename_i hopen
          split at hs
          · exact openGroup_inStep (hleads.stays hopen) hs
          · cases hs
            exact hleads.stays hopen
  | bracketed name address =>
      obtain ⟨hquotes, hbrackets⟩ := Scan.step_unquoted hquote h.1
      simp only [stepChar] at hs
      split at hs
      · rename_i hclose
        obtain ⟨next, -, rfl⟩ := Option.map_eq_some_iff.1 hs
        subst hclose
        have hout : (s.step '>').outside := by simp [Scan.outside, hquotes, hbrackets]
        exact hout
      · rename_i hclose
        cases hs
        exact ⟨hquotes, by simp [hbrackets, h.2, hclose]⟩
  | afterBracketed =>
      have hleads := leads_of_outside h hquote
      simp only [stepChar, if_neg (hsep h).1, if_neg (hsep h).2] at hs
      split at hs
      · rename_i hblank
        cases hs
        refine hleads.stays ?_
        rintro rfl
        exact absurd hblank (by decide)
      · split at hs
        · rename_i hcomment
          cases hs
          exact ⟨hleads.stays (by rw [hcomment]; decide), by simp [hcomment]⟩
        · cases hs
  | bare text => exact bareChar_inStep (leads_of_outside h hquote) (hsep h) hs
  | phrase text => exact phraseChar_inStep (leads_of_outside h hquote) hs
  | comment text =>
      obtain ⟨hout, hinside⟩ := h
      have hstays := (leads_of_outside hout hquote).stays (hcalm hinside)
      simp only [stepChar] at hs
      split at hs
      · cases hs
        cases text with
        | none => exact hstays
        | some text => exact hstays
      · rename_i hclose
        cases hs
        exact ⟨hstays, by simp [hinside, hclose]⟩

/-- In step the machine ends an entry at no separator that the scan passed over. -/
theorem uncut_of_inStep (h : m.InStep s inComment) (hquote : '"' ∉ t)
    (hcomments : quietComments inComment t) (hcovers : s.Covers t) : m.Uncut t := by
  induction t generalizing m s inComment with
  | nil => trivial
  | cons c t ih =>
      simp only [List.mem_cons, not_or] at hquote
      simp only [quietComments, Bool.and_eq_true] at hcomments
      have hcalm : inComment → c ≠ '<' := by
        rintro rfl rfl
        exact absurd hcomments.1 (by decide)
      refine ⟨?_, ?_⟩
      · intro hsep
        have hhidden : s.outside = false := by
          cases hout : s.outside with
          | false => rfl
          | true => exact absurd ⟨hsep, hout⟩ hcovers.1
        exact h.isOpen_eq_false hhidden
      · intro m' hstep
        have hnext := step_inStep h (Ne.symm hquote.1) hcalm hcovers.1 hstep
        exact ih hnext hquote.2 hcomments.2 hcovers.2

/-- What follows the quote that ends a quoted name, if one does. -/
def closeQuote : Text → Text
  | [] => []
  | '\\' :: _ :: t => closeQuote t
  | '"' :: t => t
  | _ :: t => closeQuote t

/-- A quoted name hides its separators from both, and ends for both at the same quote. -/
theorem uncut_quoted {done : List AddressEntry} {group : Option OpenGroup} {gap : Text}
    (name t : Text) (h : Scan.Covers ⟨true, false, false⟩ t)
    (hrest : Scan.init.Covers (closeQuote t) →
      ∀ n, Uncut ⟨done, group, gap, .afterQuoted n⟩ (closeQuote t)) :
    Uncut ⟨done, group, gap, .quoted name⟩ t := by
  -- Both take the character behind a backslash as it is and go on with the rest of the name.
  fun_induction closeQuote t generalizing name with
  | case1 => trivial
  | case2 c t ih =>
      have hscan : Scan.step ⟨true, false, true⟩ c = ⟨true, false, false⟩ := by simp [Scan.step]
      have hcovers : (Scan.step ⟨true, false, true⟩ c).Covers t := h.2.2
      rw [hscan] at hcovers
      refine ⟨fun _ => rfl, fun m' hs => ?_⟩
      obtain rfl : ⟨done, group, gap, .escaped name⟩ = m' := Option.some.inj hs
      refine ⟨fun _ => rfl, fun m'' hs => ?_⟩
      obtain rfl : ⟨done, group, gap, .quoted (name ++ [c])⟩ = m'' := Option.some.inj hs
      exact ih (name ++ [c]) hcovers hrest
  | case3 t =>
      refine ⟨fun _ => rfl, fun m' hs => ?_⟩
      obtain rfl : ⟨done, group, gap, .afterQuoted name⟩ = m' := Option.some.inj hs
      exact hrest h.2 name
  | case4 c t hslash hquote ih =>
      refine ⟨fun _ => rfl, fun m' hs => ?_⟩
      by_cases hc : c = '\\'
      · cases t with
        | nil => trivial
        | cons d t => exact (hslash d t hc rfl).elim
      · have hscan : Scan.step ⟨true, false, false⟩ c = ⟨true, false, false⟩ := by
          have hquote : c ≠ '"' := hquote
          simp [Scan.step, hc, hquote]
        have hcovers : (Scan.step ⟨true, false, false⟩ c).Covers t := h.2
        rw [hscan] at hcovers
        have hquote : c ≠ '"' := hquote
        simp only [stepChar, if_neg hc, if_neg hquote, Option.some.injEq] at hs
        subst hs
        exact ih (name ++ [c]) hcovers hrest

end Machine
end AddressList

namespace Entries

open AddressList (Machine)

/-- What stands behind a quoted name at the beginning. -/
def behindName : Text → Text
  | '"' :: t => Machine.closeQuote t
  | t => t

/-- An entry that has, behind a quoted name, no separators, or neither quotes nor brackets in
comments. -/
def Orderly (e : Text) : Prop :=
  (∀ c ∈ behindName e, isSeparator c = false) ∨
    '"' ∉ behindName e ∧ Machine.quietComments false (behindName e)

instance (e : Text) : Decidable (Orderly e) := by
  unfold Orderly
  infer_instance

theorem uncut_of_orderly {e : Text} (hcovers : Scan.init.Covers e) (h : Orderly e) :
    Machine.init.Uncut e := by
  -- Behind the name, and at the beginning if there is none, nothing is open for either.
  have hbehind : ∀ m : Machine, (∀ s : Scan, s.outside → m.InStep s false) →
      Scan.init.Covers (behindName e) → m.Uncut (behindName e) := by
    intro m hm hcovers
    rcases h with h | ⟨hquote, hcomments⟩
    · exact Machine.uncut_of_no_separator h m
    · exact Machine.uncut_of_inStep (hm Scan.init rfl) hquote hcomments hcovers
  by_cases hhead : ∃ t, e = '"' :: t
  · obtain ⟨t, rfl⟩ := hhead
    refine ⟨fun hsep => absurd hsep (by decide), fun m' hs => ?_⟩
    obtain rfl : ⟨[], none, [], .quoted []⟩ = m' := Option.some.inj hs
    exact Machine.uncut_quoted [] t hcovers.2 fun hrest n => hbehind _ (fun _ hs => hs) hrest
  · have hself : behindName e = e := by
      rw [behindName.eq_2]
      exact fun t ht => hhead ⟨t, ht⟩
    rw [hself] at hbehind
    exact hbehind Machine.init (fun _ hs => hs) hcovers

variable {list e : Text} {entries : List AddressEntry}

/-- What an orderly entry of a list is read as, if it is accepted at all. -/
theorem ofText?_orderly (he : e ∈ split list) (ho : Orderly e)
    (h : AddressList.ofText? e = some entries) :
    entries = [] ∨ (∃ box, entries = [.single box]) ∨ ∃ name, entries = [.group name []] := by
  obtain ⟨m, hrun, hfinish⟩ := Option.bind_eq_some_iff.1 h
  have hinit : Machine.init.Single := ⟨rfl, fun g hg => nomatch hg⟩
  have hcut := uncut_of_orderly (covers_of_mem_split he) ho
  exact Machine.finish_single (Machine.run_single hinit hcut hrun) hfinish

/-- The mailbox of an entry that holds one alone is the recipient that it means. -/
theorem address_interpret {box : Mailbox} {name : Option Text} {role : Option Role} {r : Recipient}
    (htrim : Text.trim e = e) (h : AddressList.ofText? e = some [.single box])
    (hr : interpret name e role = .ok r) : r.address = Text.trim box.address := by
  simp only [interpret, htrim, h] at hr
  split at hr
  · cases hr
  · obtain ⟨-, -, -, rfl⟩ := Recipient.make_ok hr
    rfl

theorem parse_eq {name : Option Text} {role : Option Role} {rs : List Recipient}
    (h : parse name list role = .ok rs) :
    (split list).map (fun e => interpret name e role) = rs.map .ok := by
  rw [parse] at h
  split at h
  · cases h
  · rename_i hsplit
    exact Checked.mapM_ok h

/-- No mailbox of an orderly entry is lost. The entry holds one at most, which is the recipient that
the entry means; and a list that is read has one recipient for each entry, so everyone of these
mailboxes is among them. -/
theorem mailboxes_kept (list : Text) :
    (∀ e ∈ split list, Orderly e → ∀ entries, AddressList.ofText? e = some entries →
      (entries.flatMap AddressEntry.mailboxes).length ≤ 1 ∧
      ∀ name role r, interpret name e role = .ok r →
        ∀ box ∈ entries.flatMap AddressEntry.mailboxes, r.address = Text.trim box.address) ∧
    ∀ name role rs, parse name list role = .ok rs → rs.length = (split list).length ∧
      ∀ e ∈ split list, Orderly e → ∀ entries, AddressList.ofText? e = some entries →
        ∀ box ∈ entries.flatMap AddressEntry.mailboxes,
          ∃ r ∈ rs, r.address = Text.trim box.address := by
  have hentry : ∀ e ∈ split list, Orderly e → ∀ entries, AddressList.ofText? e = some entries →
      (entries.flatMap AddressEntry.mailboxes).length ≤ 1 ∧
      ∀ name role r, interpret name e role = .ok r →
        ∀ box ∈ entries.flatMap AddressEntry.mailboxes, r.address = Text.trim box.address := by
    intro e he ho entries h
    rcases ofText?_orderly he ho h with rfl | ⟨box, rfl⟩ | ⟨name, rfl⟩
    · exact ⟨Nat.zero_le 1, fun _ _ _ _ box hbox => nomatch hbox⟩
    · refine ⟨Nat.le_refl 1, ?_⟩
      intro name role r hr other hother
      rw [List.mem_singleton.1 hother]
      exact address_interpret (trim_of_mem_split he).1 h hr
    · exact ⟨Nat.zero_le 1, fun _ _ _ _ box hbox => nomatch hbox⟩
  refine ⟨hentry, ?_⟩
  intro name role rs hparse
  have hmap := parse_eq hparse
  have hlength := congrArg List.length hmap
  rw [List.length_map, List.length_map] at hlength
  refine ⟨hlength.symm, ?_⟩
  intro e he ho entries h box hbox
  have hmem : interpret name e role ∈ rs.map .ok := hmap ▸ List.mem_map_of_mem he
  obtain ⟨r, hr, hok⟩ := List.mem_map.1 hmem
  exact ⟨r, hr, (hentry e he ho entries h).2 name role r hok.symm box hbox⟩

/-- A list of orderly entries with separators in quotes, a comment, and a quote that is none. -/
def errands : Text :=
  "\"Doe, \\\"J\" <jane@x.com>; Bob (at work) <b,b@x.com>, O\"Neil <oneil@x.com>".toList

/-- Its entries and what they are read as. -/
def errandBoxes : List (Text × Mailbox) :=
  [("\"Doe, \\\"J\" <jane@x.com>".toList, ⟨some "Doe, \"J".toList, "jane@x.com".toList⟩),
    ("Bob (at work) <b,b@x.com>".toList, ⟨some "Bob".toList, "b,b@x.com".toList⟩),
    ("O\"Neil <oneil@x.com>".toList, ⟨some "O\"Neil".toList, "oneil@x.com".toList⟩)]

theorem mailboxes_kept_errands : ∃ rs, parse none errands (some .direct) = .ok rs ∧
    rs.length = 3 ∧ ∀ p ∈ errandBoxes, ∃ r ∈ rs, r.address = p.2.address := by
  have hentries : ∀ p ∈ errandBoxes, p.1 ∈ split errands ∧ Orderly p.1 ∧
      AddressList.ofText? p.1 = some [.single p.2] ∧ Text.trim p.2.address = p.2.address := by
    decide
  obtain ⟨rs, hrs⟩ : ∃ rs, parse none errands (some .direct) = .ok rs :=
    Checked.ok_of_isSome (by decide)
  obtain ⟨hlength, hkept⟩ := (mailboxes_kept errands).2 none (some .direct) rs hrs
  refine ⟨rs, hrs, hlength, ?_⟩
  intro p hp
  obtain ⟨he, ho, hread, htrim⟩ := hentries p hp
  obtain ⟨r, hr, haddress⟩ := hkept p.1 he ho _ hread p.2 (by simp [AddressEntry.mailboxes])
  exact ⟨r, hr, haddress.trans htrim⟩

/-- The list has two mailboxes and is cut into one entry, and the first mailbox alone becomes a
recipient. -/
def DropsSecond (list : Text) (first second : Mailbox) : Prop :=
  split list = [list] ∧ AddressList.ofText? list = some [.single first, .single second] ∧
    parse none list (some .direct) = .ok [⟨first.name, first.address, some .direct⟩]

instance (list : Text) (first second : Mailbox) : Decidable (DropsSecond list first second) :=
  inferInstanceAs (Decidable (_ ∧ _ ∧ _))

/-- What hides the comma is a quote in an address, a bracket in a comment, a quote in brackets, or
an escaped quote behind a name. -/
theorem second_mailbox_dropped :
    DropsSecond "a\"b@x.com,c@y.com".toList
      ⟨none, "a\"b@x.com".toList⟩ ⟨none, "c@y.com".toList⟩ ∧
    DropsSecond "a@x.com (<), b@y.com".toList
      ⟨none, "a@x.com".toList⟩ ⟨none, "b@y.com".toList⟩ ∧
    DropsSecond "<a\"b@x.com>, <c@y.com>".toList
      ⟨none, "a\"b@x.com".toList⟩ ⟨none, "c@y.com".toList⟩ ∧
    DropsSecond "\"A\" \\\"B\" <a@x.com>, <c@y.com>".toList
      ⟨some "A \\B".toList, "a@x.com".toList⟩ ⟨none, "c@y.com".toList⟩ := by
  decide

end Entries
end Epistle
