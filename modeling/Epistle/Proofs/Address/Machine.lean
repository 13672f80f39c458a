import Epistle.Proofs.Address.Format
import Epistle.Proofs.Header.Token

/-!
The machine that reads address lists takes apart what recipients are written as: a bare address, a
quoted name or a name in encoded words, in lists of any length. An address may hold nothing that the
machine takes for punctuation where the address stands; names may hold anything.
-/
namespace Epistle

/-- What the machine leaves alone in an address. -/
def Recipient.isAddressChar (c : Char) : Bool :=
  Text.isAscii c && !Text.isBlank c &&
    !(['"', '<', '>', '(', ')', ',', ';', ':', '\\'] : Text).contains c

/-- A recipient that is read as it was written. -/
structure Recipient.Legible (r : Recipient) : Prop where
  at_sign : '@' ∈ r.address
  address_chars : ∀ c ∈ r.address, isAddressChar c
  address_plain : Token.Spelling.Plain r.address
  name_trimmed : ∀ n, r.name = some n → Text.trim n = n
  name_plain : ∀ n, r.name = some n → n.all Text.isAscii → Token.Spelling.Plain n

/-- A recipient that is read as one, whatever stands next to it. An address in brackets must not
close them; a bare one must not end, open a bracket, a group or a comment, or begin with a quote. -/
structure Recipient.Contained (r : Recipient) : Prop where
  at_sign : '@' ∈ r.address
  ascii : ∀ c ∈ r.address, Text.isAscii c
  address_plain : Token.Spelling.Plain r.address
  boxed : r.name ≠ none → '>' ∉ r.address
  bare : r.name = none → ∀ c ∈ [',', ';', ':', '<', '('], c ∉ r.address
  bare_head : r.name = none → r.address.head? ≠ some '"'
  name_plain : ∀ n, r.name = some n → n.all Text.isPrintable → Token.Spelling.Plain n

instance (r : Recipient) : Decidable r.Contained :=
  decidable_of_iff ('@' ∈ r.address ∧ (∀ c ∈ r.address, Text.isAscii c) ∧
      Token.Spelling.Plain r.address ∧ (r.name ≠ none → '>' ∉ r.address) ∧
      (r.name = none → ∀ c ∈ [',', ';', ':', '<', '('], c ∉ r.address) ∧
      (r.name = none → r.address.head? ≠ some '"') ∧
      ∀ n ∈ r.name, n.all Text.isPrintable → Token.Spelling.Plain n)
    ⟨fun ⟨h₁, h₂, h₃, h₄, h₅, h₆, h₇⟩ => ⟨h₁, h₂, h₃, h₄, h₅, h₆, h₇⟩,
      fun ⟨h₁, h₂, h₃, h₄, h₅, h₆, h₇⟩ => ⟨h₁, h₂, h₃, h₄, h₅, h₆, h₇⟩⟩

namespace Recipient

theorem isAddressChar_cases {c : Char} (h : isAddressChar c) : Text.isAscii c ∧
    Text.isBlank c = false ∧ c ∉ ['"', '<', '>', '(', ')', ',', ';', ':', '\\'] := by
  simp only [isAddressChar, Bool.and_eq_true, Bool.not_eq_true', List.contains_eq_mem,
    decide_eq_false_iff_not] at h
  exact ⟨h.1.1, h.1.2, h.2⟩

/-- Text of such characters has nothing that could end it or begin anything else. -/
theorem unpunctuated {t : Text} (h : ∀ c ∈ t, isAddressChar c) : '>' ∉ t ∧
    (∀ c ∈ [',', ';', ':', '<', '('], c ∉ t) ∧ t.head? ≠ some '"' := by
  have hmissing : ∀ c ∈ ['"', '<', '>', '(', ')', ',', ';', ':', '\\'], c ∉ t :=
    fun c hc hmem => (isAddressChar_cases (h c hmem)).2.2 hc
  have hbare : ∀ c ∈ [',', ';', ':', '<', '('],
      c ∈ ['"', '<', '>', '(', ')', ',', ';', ':', '\\'] := by decide
  refine ⟨hmissing '>' (by decide), fun c hc => hmissing c (hbare c hc), ?_⟩
  exact fun hhead => hmissing '"' (by decide) (List.mem_of_mem_head? hhead)

/-- An address without punctuation is contained, whatever its name is. -/
theorem contained_of_chars {r : Recipient} (hat : '@' ∈ r.address)
    (hchars : ∀ c ∈ r.address, isAddressChar c) (hplain : Token.Spelling.Plain r.address)
    (hname : ∀ n, r.name = some n → n.all Text.isPrintable → Token.Spelling.Plain n) :
    r.Contained := by
  obtain ⟨hboxed, hbare, hhead⟩ := unpunctuated hchars
  constructor
  case at_sign => exact hat
  case ascii => exact fun c hc => (isAddressChar_cases (hchars c hc)).1
  case address_plain => exact hplain
  case boxed => exact fun _ => hboxed
  case bare => exact fun _ => hbare
  case bare_head => exact fun _ => hhead
  case name_plain => exact hname

theorem Legible.contained {r : Recipient} (h : r.Legible) : r.Contained := by
  refine contained_of_chars h.at_sign h.address_chars h.address_plain ?_
  intro n hn hp
  refine h.name_plain n hn (List.all_eq_true.2 fun c hc => ?_)
  exact Token.isAscii_of_isPrintable (List.all_eq_true.1 hp c hc)

/-- The name as it is read: behind a decoded word the machine leaves no blanks. -/
def readName (n : Text) : Text := if n.all Text.isPrintable then n else Text.trimEnd n

theorem readName_eq_self {n : Text} (h : Text.trim n = n) : readName n = n := by
  rw [readName]
  split
  · rfl
  · exact Text.trimEnd_eq_self (Text.isBlank_getLast_of_trim h)

end Recipient

namespace AddressList

open Recipient (readName)

/-- What the machine reads of a recipient. -/
def itemsOf (r : Recipient) : List Item :=
  match r.name with
  | none => r.address.map .char
  | some name =>
    (if name.all Text.isPrintable then (['"'] ++ Quoted.escape name ++ ['"']).map Item.char
      else (EncodedWord.runsFrom [] name).map .word) ++
      (" <".toList ++ r.address ++ ['>']).map .char

/-- What it reads of recipients each of which stands behind a comma. -/
def itemsBehind (rs : List Recipient) : List Item :=
  rs.flatMap fun r => ", ".toList.map .char ++ itemsOf r

/-- The entry that a recipient is read as. -/
def entryOf (r : Recipient) : AddressEntry := .single ⟨r.name.map readName, r.address⟩

namespace Machine

def run (m : Machine) (items : List Item) : Option Machine := items.foldlM step m

theorem run_cons {m m' : Machine} {i : Item} {items : List Item} (h : m.step i = some m') :
    m.run (i :: items) = m'.run items := by
  rw [run, List.foldlM_cons, h]
  rfl

theorem run_append {m m' : Machine} {items : List Item} (h : m.run items = some m')
    (more : List Item) : m.run (items ++ more) = m'.run more := by
  rw [run, List.foldlM_append]
  change (m.run items >>= _) = _
  rw [h]
  rfl

variable {done : List AddressEntry} {gap t address : Text} {name : Option Text}

theorem run_bare (h : ∀ c ∈ [',', ';', ':', '<', '('], c ∉ t) (front : Text) :
    run ⟨done, none, gap, .bare front⟩ (t.map .char) =
      some ⟨done, none, gap, .bare (front ++ t)⟩ := by
  induction t generalizing front with
  | nil => rw [List.append_nil]; rfl
  | cons c t ih =>
      have hc : ∀ d ∈ [',', ';', ':', '<', '('], c ≠ d := by
        rintro d hd rfl
        exact h c hd (by simp)
      have hstep : step ⟨done, none, gap, .bare front⟩ (.char c) =
          some ⟨done, none, gap, .bare (front ++ [c])⟩ := by
        simp only [List.forall_mem_cons] at hc
        simp [step, stepChar, bareChar, hc, move]
      rw [List.map_cons, run_cons hstep, ih fun d hd hmem => h d hd (by simp [hmem])]
      simp

theorem run_address (hne : t ≠ []) (hblank : ∀ c, t.head? = some c → Text.isBlank c = false)
    (hquote : t.head? ≠ some '"') (h : ∀ c ∈ [',', ';', ':', '<', '('], c ∉ t) :
    run ⟨done, none, gap, .start⟩ (t.map .char) = some ⟨done, none, gap, .bare t⟩ := by
  cases t with
  | nil => exact absurd rfl hne
  | cons c t =>
      have hquote : c ≠ '"' := fun hc => hquote (by rw [hc]; rfl)
      have hopen : c ≠ '<' := by
        rintro rfl
        exact h '<' (by decide) (by simp)
      have hsemi : c ≠ ';' := by
        rintro rfl
        exact h ';' (by decide) (by simp)
      have hstep : step ⟨done, none, gap, .start⟩ (.char c) =
          some ⟨done, none, gap, .bare [c]⟩ := by
        simp [step, stepChar, startChar, hblank c rfl, hquote, hopen, hsemi, move]
      rw [List.map_cons, run_cons hstep, run_bare fun d hd hmem => h d hd (by simp [hmem])]
      rfl

theorem run_bracketed (h : '>' ∉ t) (front : Text) :
    run ⟨done, none, gap, .bracketed name front⟩ (t.map .char) =
      some ⟨done, none, gap, .bracketed name (front ++ t)⟩ := by
  induction t generalizing front with
  | nil => rw [List.append_nil]; rfl
  | cons c t ih =>
      have hclose : c ≠ '>' := by
        rintro rfl
        exact h (by simp)
      have hstep : step ⟨done, none, gap, .bracketed name front⟩ (.char c) =
          some ⟨done, none, gap, .bracketed name (front ++ [c])⟩ := by
        simp [step, stepChar, hclose, move]
      rw [List.map_cons, run_cons hstep, ih fun hmem => h (by simp [hmem])]
      simp

/-- An address in brackets ends the mailbox. -/
theorem run_mailbox (hat : '@' ∈ address) (h : '>' ∉ address) :
    run ⟨done, none, gap, .bracketed name []⟩ ((address ++ ['>']).map .char) =
      some ⟨done ++ [.single ⟨name, address⟩], none, gap, .afterBracketed⟩ := by
  have hstep : step ⟨done, none, gap, .bracketed name address⟩ (.char '>') =
      some ⟨done ++ [.single ⟨name, address⟩], none, gap, .afterBracketed⟩ := by
    simp [step, stepChar, push, Mailbox.make?, hat, move]
  rw [List.map_append, run_append (run_bracketed h []), List.nil_append, List.map_singleton,
    run_cons hstep]
  rfl

theorem run_quoted (front : Text) :
    run ⟨done, none, gap, .quoted front⟩ ((Quoted.escape t).map .char) =
      some ⟨done, none, gap, .quoted (front ++ t)⟩ := by
  induction t generalizing front with
  | nil => rw [List.append_nil]; rfl
  | cons c t ih =>
      have hcons : Quoted.escape (c :: t) = Quoted.escapeChar c ++ Quoted.escape t := rfl
      have hchar : run ⟨done, none, gap, .quoted front⟩ ((Quoted.escapeChar c).map .char) =
          some ⟨done, none, gap, .quoted (front ++ [c])⟩ := by
        by_cases hc : c = '\\' ∨ c = '"'
        · rcases hc with rfl | rfl
          · rfl
          · rfl
        · have hne : c ≠ '\\' ∧ c ≠ '"' := not_or.1 hc
          simp [Quoted.escapeChar, run, step, stepChar, hne, move]
      rw [hcons, List.map_append, run_append hchar, ih]
      simp

theorem run_phrase (runs : List Text) (front : Text) :
    run ⟨done, none, gap, .phrase front⟩ (runs.map .word) =
      some ⟨done, none, gap, .phrase (front ++ runs.flatten)⟩ := by
  induction runs generalizing front with
  | nil => rw [List.flatten_nil, List.append_nil]; rfl
  | cons r runs ih =>
      have hstep : step ⟨done, none, gap, .phrase front⟩ (.word r) =
          some ⟨done, none, gap, .phrase (front ++ r)⟩ := rfl
      rw [List.map_cons, run_cons hstep, ih]
      simp

/-- The machine behind a recipient. An address that stands bare is not an entry yet. -/
def behind (done : List AddressEntry) (gap : Text) (r : Recipient) : Machine :=
  match r.name with
  | none => ⟨done, none, gap, .bare r.address⟩
  | some name => ⟨done ++ [.single ⟨some (readName name), r.address⟩], none, gap, .afterBracketed⟩

theorem trimEnd_space (t : Text) : Text.trimEnd (t ++ [' ']) = Text.trimEnd t := by
  rw [Text.trimEnd, Text.dropEndWhile, List.reverse_append, List.reverse_singleton,
    List.singleton_append, List.dropWhile_cons_of_pos (by decide)]
  rfl

/-- A name in quotes or in words leads to the bracket of its address. -/
theorem run_name (n : Text) : ∃ gap', run ⟨done, none, gap, .start⟩
      ((if n.all Text.isPrintable then (['"'] ++ Quoted.escape n ++ ['"']).map Item.char
        else (EncodedWord.runsFrom [] n).map .word) ++ " <".toList.map .char) =
      some ⟨done, none, gap', .bracketed (some (readName n)) []⟩ := by
  rw [readName]
  by_cases hp : n.all Text.isPrintable
  · refine ⟨gap ++ [' '], ?_⟩
    have hopen : run ⟨done, none, gap, .start⟩ ((['"'] : Text).map .char) =
        some ⟨done, none, gap, .quoted []⟩ := rfl
    have hclose : run ⟨done, none, gap, .quoted n⟩ ((['"'] : Text).map .char) =
        some ⟨done, none, gap, .afterQuoted n⟩ := rfl
    rw [if_pos hp, if_pos hp, List.map_append, List.map_append, List.append_assoc,
      List.append_assoc, run_append hopen, run_append (run_quoted []), List.nil_append,
      run_append hclose]
    rfl
  · refine ⟨gap, ?_⟩
    obtain ⟨first, more, hruns⟩ := List.exists_cons_of_ne_nil (EncodedWord.runsFrom_ne_nil [] n)
    have hflat : first ++ more.flatten = n := by
      rw [← List.flatten_cons, ← hruns, EncodedWord.flatten_runsFrom, List.nil_append]
    have hfirst : step ⟨done, none, gap, .start⟩ (.word first) =
        some ⟨done, none, gap, .phrase first⟩ := rfl
    have hspace : step ⟨done, none, gap, .phrase n⟩ (.char ' ') =
        some ⟨done, none, gap, .phrase (n ++ [' '])⟩ := rfl
    have hbracket : step ⟨done, none, gap, .phrase (n ++ [' '])⟩ (.char '<') =
        some ⟨done, none, gap, .bracketed (some (Text.trimEnd (n ++ [' ']))) []⟩ := rfl
    rw [trimEnd_space] at hbracket
    rw [if_neg hp, if_neg hp, hruns, List.map_cons, List.cons_append, run_cons hfirst,
      run_append (run_phrase more first), hflat]
    change run _ [Item.char ' ', Item.char '<'] = _
    rw [run_cons hspace, run_cons hbracket]
    rfl

theorem run_itemsOf {r : Recipient} (hvalid : r.Valid) (h : r.Contained) :
    ∃ gap', run ⟨done, none, gap, .start⟩ (itemsOf r) = some (behind done gap' r) := by
  cases hn : r.name with
  | none =>
      refine ⟨gap, ?_⟩
      simp only [itemsOf, behind, hn]
      exact run_address hvalid.address_ne (Text.isBlank_head_of_trim hvalid.address_trimmed)
        (h.bare_head hn) (h.bare hn)
  | some n =>
      obtain ⟨gap', hname⟩ := @run_name done gap n
      have hbox : (" <".toList ++ r.address ++ ['>']).map Item.char =
          " <".toList.map .char ++ (r.address ++ ['>']).map .char := by
        rw [List.append_assoc, List.map_append]
      refine ⟨gap', ?_⟩
      simp only [itemsOf, behind, hn]
      rw [hbox, ← List.append_assoc, run_append hname]
      exact run_mailbox h.at_sign (h.boxed (by rw [hn]; exact Option.some_ne_none n))

theorem trimEnd_address {r : Recipient} (hvalid : r.Valid) : Text.trimEnd r.address = r.address :=
  Text.trimEnd_eq_self (Text.isBlank_getLast_of_trim hvalid.address_trimmed)

/-- A comma makes the recipient in front of it an entry. -/
theorem run_comma {r : Recipient} (hvalid : r.Valid) (h : r.Contained) :
    run (behind done gap r) (", ".toList.map .char) =
      some ⟨done ++ [entryOf r], none, gap, .start⟩ := by
  have hspace : step ⟨done ++ [entryOf r], none, gap, .start⟩ (.char ' ') =
      some ⟨done ++ [entryOf r], none, gap, .start⟩ := rfl
  have hcomma : step (behind done gap r) (.char ',') =
      some ⟨done ++ [entryOf r], none, gap, .start⟩ := by
    cases hn : r.name with
    | none =>
        simp [behind, entryOf, hn, step, stepChar, bareChar, push, Mailbox.make?, h.at_sign, move,
          trimEnd_address hvalid]
    | some n =>
        simp only [behind, entryOf, hn]
        rfl
  change run _ [Item.char ',', Item.char ' '] = _
  rw [run_cons hcomma, run_cons hspace]
  rfl

theorem finish_behind {r : Recipient} (hvalid : r.Valid) (h : r.Contained) :
    (behind done gap r).finish = some (done ++ [entryOf r]) := by
  cases hn : r.name with
  | none =>
      simp [behind, entryOf, hn, finish, push, Mailbox.make?, h.at_sign, trimEnd_address hvalid]
  | some n => simp [behind, entryOf, hn, finish]

/-- The rest of a list is read entry by entry. -/
theorem run_itemsBehind {r : Recipient} {rs : List Recipient}
    (hr : r.Valid ∧ r.Contained) (h : ∀ r ∈ rs, r.Valid ∧ r.Contained) :
    ((behind done gap r).run (itemsBehind rs)).bind finish =
      some (done ++ entryOf r :: rs.map entryOf) := by
  induction rs generalizing done gap r with
  | nil => exact finish_behind hr.1 hr.2
  | cons q rs ih =>
      have hq := h q (by simp)
      obtain ⟨gap', hitems⟩ := @run_itemsOf (done ++ [entryOf r]) gap q hq.1 hq.2
      have hcons : itemsBehind (q :: rs) =
          ", ".toList.map .char ++ (itemsOf q ++ itemsBehind rs) := by
        simp [itemsBehind]
      rw [hcons, run_append (run_comma hr.1 hr.2), run_append hitems,
        ih hq fun p hp => h p (by simp [hp])]
      simp

end Machine

theorem ofItems?_list {r : Recipient} {rs : List Recipient}
    (h : ∀ q ∈ r :: rs, q.Valid ∧ q.Contained) :
    ofItems? (itemsOf r ++ itemsBehind rs) = some ((r :: rs).map entryOf) := by
  have hr := h r (by simp)
  obtain ⟨gap, hitems⟩ := @Machine.run_itemsOf [] [] r hr.1 hr.2
  have hinit : (Machine.init.run (itemsOf r ++ itemsBehind rs)).bind Machine.finish =
      some ([] ++ entryOf r :: rs.map entryOf) := by
    rw [Machine.init, Machine.run_append hitems]
    exact Machine.run_itemsBehind hr fun q hq => h q (by simp [hq])
  exact hinit

end AddressList
end Epistle
