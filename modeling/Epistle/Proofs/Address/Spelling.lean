import Epistle.Proofs.Address.Machine
import Epistle.Proofs.Header.Field
import Mathlib.Data.List.Basic

/-!
Recipients as an address field spells them. A list of contained recipients is plain text with
encoded words in it, which the reader of tokens and then the machine take apart again, so the field
is read as one recipient for each that it was written from, which for a legible one is what it was.
-/
namespace Epistle

namespace Token
namespace Spelling

theorem ends_append {s t : Text} (hs : Ends s) (ht : Ends t) : Ends (s ++ t) := by
  intro c hc
  rw [List.getLast?_append, Option.or_eq_some_iff] at hc
  rcases hc with hc | ⟨-, hc⟩
  · exact ht c hc
  · exact hs c hc

theorem ends_append_right {s t : Text} (hne : t ≠ []) (ht : Ends t) : Ends (s ++ t) := by
  intro c hc
  rw [List.getLast?_append, Option.or_eq_some_iff] at hc
  rcases hc with hc | ⟨hnone, -⟩
  · exact ht c hc
  · exact absurd (List.getLast?_eq_none_iff.1 hnone) hne

theorem plain_escape {t : Text} (h : Plain t) : Plain (Quoted.escape t) := by
  induction t with
  | nil => trivial
  | cons c t ih =>
      obtain ⟨hc, ht⟩ := Text.lacks_cons.1 h
      have hcons : Quoted.escape (c :: t) = Quoted.escapeChar c ++ Quoted.escape t := rfl
      rw [hcons, Plain, Text.lacks_append]
      refine ⟨?_, ih ht, ?_⟩
      · rw [Quoted.escapeChar]
        split
        · exact ⟨fun h => absurd h.1 (by decide), trivial⟩
        · trivial
      · intro hlast hhead
        have hc' : c = '=' := by
          rw [Quoted.escapeChar] at hlast
          split at hlast
          · exact Option.some.inj hlast
          · exact Option.some.inj hlast
        cases t with
        | nil => cases hhead
        | cons d t =>
            have hd : d = '?' := by
              have hd : Quoted.escape (d :: t) = Quoted.escapeChar d ++ Quoted.escape t := rfl
              rw [hd, Quoted.escapeChar] at hhead
              split at hhead
              · cases hhead
              · exact Option.some.inj hhead
            exact hc hc' (by rw [hd]; rfl)

/-- What may stand behind a recipient: nothing, or a comma and more. -/
structure Behind (s : Spelling) : Prop where
  plain : Plain s.head
  comma : ∀ c, s.head.head? = some c → c = ','
  joins : s.words ≠ [] → s.head ≠ [] ∧ Joins s.head
  words : WordsValid s.words

/-- Behind what does not end in an equals sign, or in front of no question mark, plain text stays
plain. -/
theorem Behind.plain_append {s : Spelling} (h : s.Behind) {t : Text} (ht : Plain t) :
    Plain (t ++ s.head) := by
  rw [Plain, Text.lacks_append]
  refine ⟨ht, h.plain, ?_⟩
  intro _ hhead
  exact absurd (h.comma _ hhead) (by decide)

theorem Behind.joins_append {s : Spelling} (h : s.Behind) {t : Text}
    (ht : ∀ c ∈ t, Text.isAscii c) (hne : s.words ≠ []) : Joins (t ++ s.head) := by
  obtain ⟨hhead, hjoins⟩ := h.joins hne
  refine ⟨List.forall_mem_append.2 ⟨ht, hjoins.ascii⟩, ends_append_right hhead hjoins.ends⟩

end Spelling
end Token

namespace Recipient

open Token (Spelling)
open Token.Spelling (Plain Starts Ends Joins WordsValid ofRuns kept tail)

/-- The address as it stands behind a name. -/
def box (r : Recipient) : Text := " <".toList ++ r.address ++ ['>']

/-- The recipient in front of what is spelled already. -/
def spell (r : Recipient) (s : Spelling) : Spelling :=
  match r.name with
  | none => ⟨r.address ++ s.head, s.words⟩
  | some name =>
    if name.all Text.isPrintable then ⟨shownName name ++ r.box ++ s.head, s.words⟩
    else ⟨[], ofRuns (r.box ++ s.head) s.words (EncodedWord.runsFrom [] name)⟩

/-- Recipients each of which stands behind a comma. -/
def spellBehind : List Recipient → Spelling
  | [] => ⟨[], []⟩
  | r :: rs => ⟨", ".toList ++ (r.spell (spellBehind rs)).head, (r.spell (spellBehind rs)).words⟩

theorem line_spell (r : Recipient) (s : Spelling) : (r.spell s).line = r.format ++ s.line := by
  cases hn : r.name with
  | none => simp [spell, hn, format_bare hn, Spelling.line]
  | some name =>
      simp only [spell, hn, format_named hn]
      split
      · simp [Spelling.line, box]
      · rename_i hp
        rw [Spelling.line, Spelling.tail_ofRuns (EncodedWord.runsFrom_ne_nil [] name), shownName,
          if_neg hp, EncodedWord.encode, if_neg hp]
        simp [Spelling.line, box]

theorem line_spellBehind (rs : List Recipient) :
    (spellBehind rs).line = rs.flatMap fun r => ", ".toList ++ r.format := by
  induction rs with
  | nil => rfl
  | cons r rs ih =>
      rw [List.flatMap_cons, ← ih, List.append_assoc, ← line_spell]
      simp [spellBehind, Spelling.line]

theorem formatAll_cons (r : Recipient) (rs : List Recipient) :
    formatAll (r :: rs) = r.format ++ rs.flatMap fun q => ", ".toList ++ q.format := by
  induction rs generalizing r with
  | nil => rw [List.flatMap_nil, List.append_nil]; rfl
  | cons q rs ih =>
      have hjoin : formatAll (r :: q :: rs) = r.format ++ ", ".toList ++ formatAll (q :: rs) := rfl
      rw [hjoin, ih, List.flatMap_cons]
      simp

theorem line_list (r : Recipient) (rs : List Recipient) :
    (r.spell (spellBehind rs)).line = formatAll (r :: rs) := by
  rw [line_spell, line_spellBehind, formatAll_cons]

theorem Contained.isAscii_box {r : Recipient} (h : r.Contained) : ∀ c ∈ r.box, Text.isAscii c := by
  have hopen : ∀ c ∈ " <".toList, Text.isAscii c := by decide
  have hclose : ∀ c ∈ ['>'], Text.isAscii c := by decide
  refine List.forall_mem_append.2 ⟨?_, hclose⟩
  exact List.forall_mem_append.2 ⟨hopen, h.ascii⟩

theorem plain_box {r : Recipient} (h : Plain r.address) : Plain r.box := by
  rw [box, Plain, Text.lacks_append, Text.lacks_append]
  refine ⟨⟨by decide, h, ?_⟩, trivial, ?_⟩
  · intro hlast
    exact absurd hlast (by decide)
  · intro _ hhead
    exact absurd hhead (by decide)

theorem plain_append_box {r : Recipient} {t : Text} (ht : Plain t) (h : Plain r.address) :
    Plain (t ++ r.box) := by
  rw [Plain, Text.lacks_append]
  refine ⟨ht, plain_box h, ?_⟩
  intro _ hhead
  cases hhead

/-- A printable name in its quotes is plain ASCII text. -/
theorem plain_shownName {name : Text} (h : Plain name) (hp : name.all Text.isPrintable) :
    Plain (shownName name) ∧ ∀ c ∈ shownName name, Text.isAscii c := by
  have hascii : ∀ c ∈ name, Text.isAscii c :=
    fun c hc => Token.isAscii_of_isPrintable (List.all_eq_true.1 hp c hc)
  have hplain := Spelling.plain_escape h
  rw [shownName, if_pos hp]
  refine ⟨?_, ?_⟩
  · rw [Plain, Text.lacks_append, Text.lacks_append]
    refine ⟨⟨trivial, hplain, ?_⟩, trivial, ?_⟩
    · intro hlast
      exact absurd hlast (by decide)
    · intro _ hhead
      exact absurd hhead (by decide)
  · have hquote : ∀ c ∈ (['"'] : Text), Text.isAscii c := by decide
    refine List.forall_mem_append.2 ⟨List.forall_mem_append.2 ⟨hquote, ?_⟩, hquote⟩
    intro c hc
    rcases Quoted.mem_escape hc with hc | rfl
    · exact hascii c hc
    · decide

theorem starts_box (r : Recipient) (s : Text) : Starts (r.box ++ s) := by
  rintro c ⟨⟩
  decide

theorem box_ne_nil (r : Recipient) (s : Text) : r.box ++ s ≠ [] := by simp [box]

theorem Contained.spell_valid {r : Recipient} (h : r.Contained) {s : Spelling} (hs : s.Behind) :
    (r.spell s).Valid := by
  cases hn : r.name with
  | none =>
      simp only [spell, hn]
      exact ⟨hs.plain_append h.address_plain, hs.joins_append h.ascii, hs.words⟩
  | some name =>
      simp only [spell, hn]
      split
      · rename_i hp
        obtain ⟨hplain, hascii⟩ := plain_shownName (h.name_plain name hn hp) hp
        have hfront := plain_append_box hplain h.address_plain
        refine ⟨hs.plain_append hfront, hs.joins_append ?_, hs.words⟩
        exact List.forall_mem_append.2 ⟨hascii, h.isAscii_box⟩
      · have hnothing : Joins [] := ⟨fun c hc => (nomatch hc), fun c hc => (nomatch hc)⟩
        refine ⟨trivial, fun _ => hnothing, ?_⟩
        refine Spelling.wordsValid_ofRuns (hs.plain_append (plain_box h.address_plain))
          (starts_box r _) ?_ hs.words
        intro hne
        exact ⟨box_ne_nil r _, hs.joins_append h.isAscii_box hne⟩

theorem spellBehind_behind {rs : List Recipient} (h : ∀ r ∈ rs, r.Contained) :
    (spellBehind rs).Behind := by
  induction rs with
  | nil =>
      exact ⟨trivial, fun c hc => (nomatch hc), fun hne => absurd rfl hne, trivial⟩
  | cons r rs ih =>
      have hvalid := (h r (by simp)).spell_valid (ih fun q hq => h q (by simp [hq]))
      have hascii : ∀ c ∈ ", ".toList, Text.isAscii c := by decide
      have hends : Ends ", ".toList := by
        rintro c ⟨⟩
        decide
      refine ⟨?_, ?_, ?_, hvalid.words⟩
      · rw [spellBehind, Plain, Text.lacks_append]
        refine ⟨by decide, hvalid.plain, ?_⟩
        intro hlast
        exact absurd hlast (by decide)
      · rintro c ⟨⟩
        rfl
      · intro hne
        have hjoins := hvalid.joins hne
        refine ⟨by simp [spellBehind], List.forall_mem_append.2 ⟨hascii, hjoins.ascii⟩, ?_⟩
        exact Spelling.ends_append hends hjoins.ends

end Recipient

namespace AddressList

open Token (Spelling)
open Token.Spelling (kept)

/-- What the machine reads of a spelled line. -/
def itemsOfSpelling (s : Spelling) : List Item :=
  s.head.map .char ++
    s.words.flatMap fun (run, after) => .word run :: (kept after).map .char

theorem items_settled (words : List (Text × Text)) :
    (Token.settled words).flatMap Item.ofToken =
      words.flatMap fun (run, after) => .word run :: (kept after).map .char := by
  induction words with
  | nil => rfl
  | cons p rest ih =>
      obtain ⟨run, after⟩ := p
      rw [Token.settled, List.flatMap_append, ih, List.flatMap_cons, List.flatMap_cons]
      simp only [kept]
      split <;> simp [Item.ofToken]

/-- The machine reads a spelled line as its text and its words. -/
theorem ofItems?_line [Charsets] {s : Spelling} (h : s.Valid) (hline : Text.OneLine s.line)
    (hne : s.line ≠ []) (hstart : ∀ c, s.line.head? = some c → Text.isBlank c = false) :
    ofItems? ((Token.ofValue s.line).flatMap Item.ofToken) = ofItems? (itemsOfSpelling s) := by
  rw [Token.ofValue_line h hline hne hstart, List.flatMap_cons, items_settled, itemsOfSpelling]
  cases hhead : s.head with
  | nil => rfl
  | cons c head =>
      have hc : Text.isBlank c = false := hstart c (by rw [Spelling.line, hhead]; rfl)
      rw [Token.blankOrText, if_neg (by simp [Text.allBlank, hc])]
      rfl

end AddressList

namespace Recipient

open AddressList (Item itemsOf itemsBehind itemsOfSpelling entryOf)
open Token (Spelling)
open Token.Spelling (kept)

theorem kept_box (r : Recipient) (s : Text) : kept (r.box ++ s) = r.box ++ s := by
  have hmem : '<' ∈ r.box ++ s := by simp [box]
  rw [kept, if_neg]
  intro hall
  exact absurd (List.all_eq_true.1 hall '<' hmem) (by decide)

theorem items_spell (r : Recipient) (s : Spelling) :
    itemsOfSpelling (r.spell s) = itemsOf r ++ itemsOfSpelling s := by
  cases hn : r.name with
  | none => simp [spell, hn, itemsOf, itemsOfSpelling]
  | some name =>
      simp only [spell, hn, itemsOf]
      split
      · rename_i hp
        simp [itemsOfSpelling, shownName, hp, box]
      · have hruns := EncodedWord.runsFrom_ne_nil [] name
        have hwords := @Spelling.flatMap_ofRuns (r.box ++ s.head) s.words _ Item
          (fun (run, after) => .word run :: (kept after).map .char) (fun run => [.word run])
          (fun after => (kept after).map .char) (fun _ _ => rfl) (by rw [Spelling.kept_blank]; rfl)
          hruns
        rw [itemsOfSpelling, hwords, kept_box, ← List.map_eq_flatMap]
        simp [itemsOfSpelling, box]

theorem items_spellBehind (rs : List Recipient) :
    itemsOfSpelling (spellBehind rs) = itemsBehind rs := by
  induction rs with
  | nil => rfl
  | cons r rs ih =>
      have hcomma : itemsOfSpelling (spellBehind (r :: rs)) =
          ", ".toList.map .char ++ itemsOfSpelling (r.spell (spellBehind rs)) := by
        simp only [spellBehind, itemsOfSpelling, List.map_append, List.append_assoc]
      rw [hcomma, items_spell, ih, itemsBehind, itemsBehind, List.flatMap_cons, List.append_assoc]

/-- What a field of recipients begins with is visible. -/
theorem Valid.head_format {r : Recipient} (h : r.Valid) (more : Text) {c : Char}
    (hc : (r.format ++ more).head? = some c) : Text.isBlank c = false := by
  have haddress := Text.isBlank_head_of_trim h.address_trimmed
  cases hn : r.name with
  | none =>
      rw [format_bare hn] at hc
      obtain ⟨d, rest, hcons⟩ := List.exists_cons_of_ne_nil h.address_ne
      rw [hcons] at hc haddress
      exact haddress c hc
  | some name =>
      rw [format_named hn, shownName] at hc
      split at hc
      · cases hc
        decide
      · rename_i hp
        rw [List.append_assoc, List.append_assoc, List.append_assoc, List.head?_append,
          EncodedWord.head?_encode hp] at hc
        cases hc
        decide

theorem head_formatAll {rs : List Recipient} (h : ∀ r ∈ rs, r.Valid) :
    ∀ c, (formatAll rs).head? = some c → Text.isBlank c = false := by
  intro c hc
  cases rs with
  | nil => cases hc
  | cons r rest =>
      rw [formatAll_cons] at hc
      exact (h r (by simp)).head_format _ hc

/-- What a contained recipient is read as: its address, and what is left of its name. -/
def received (r : Recipient) : Recipient :=
  ⟨(r.name.map readName).filter (· ≠ []), r.address, none⟩

theorem received_eq_self {r : Recipient} (hvalid : r.Valid) (h : r.name.map readName = r.name) :
    r.received = r.withRole none := by
  rw [received, h, hvalid.filter_name]
  rfl

theorem received_eq {r : Recipient} (hvalid : r.Valid) (h : r.Legible) :
    r.received = r.withRole none := by
  apply received_eq_self hvalid
  cases hn : r.name with
  | none => rfl
  | some n => exact congrArg some (readName_eq_self (h.name_trimmed n hn))

theorem withoutBrackets_open {t : Text} (h : t.head? ≠ some '<') : withoutBrackets t = t := by
  cases t with
  | nil => rfl
  | cons c rest =>
      rw [withoutBrackets]
      rintro more hcons
      exact h (by rw [(List.cons.inj hcons).1]; rfl)

theorem withoutBrackets_close {t : Text} (h : '>' ∉ t) : withoutBrackets t = t := by
  rw [withoutBrackets.eq_def]
  split
  · rw [if_neg]
    exact fun hlast => h (List.mem_cons_of_mem _ (List.mem_of_getLast? hlast))
  · rfl

theorem Contained.withoutBrackets {r : Recipient} (h : r.Contained) :
    Recipient.withoutBrackets r.address = r.address := by
  cases hn : r.name with
  | none =>
      apply withoutBrackets_open
      exact fun hhead => h.bare hn '<' (by decide) (List.mem_of_mem_head? hhead)
  | some n => exact withoutBrackets_close (h.boxed (by rw [hn]; exact Option.some_ne_none n))

theorem hasControl_readName {n : Text} (h : Text.hasControl n = false) :
    Text.hasControl (readName n) = false := by
  rw [readName]
  split
  · exact h
  · exact Text.hasControl_of_subset (Text.trimEnd_subset n) h

/-- Written and read back, a contained recipient is one recipient. -/
theorem ofMailbox?_eq {r : Recipient} (hvalid : r.Valid) (h : r.Contained) :
    ofMailbox? (r.name.map readName) r.address = some r.received := by
  have hcontrol : ∀ n, r.name = some n → Text.hasControl (readName n) = false :=
    fun n hn => hasControl_readName (hvalid.name_control n hn)
  have hname : (r.name.map readName).map Text.withoutControls = r.name.map readName := by
    cases hn : r.name with
    | none => rfl
    | some n =>
        rw [Option.map_some, Option.map_some, Text.withoutControls_eq_self (hcontrol n hn)]
  have hany : (r.name.map readName).any Text.hasControl = false := by
    cases hn : r.name with
    | none => rfl
    | some n => exact hcontrol n hn
  simp only [ofMailbox?, hvalid.address_trimmed, h.withoutBrackets, if_neg hvalid.address_ne, make,
    hname, hvalid.address_control, hany]
  rfl

/-- A field of contained recipients is read as one recipient for each. -/
theorem ofField_contained [Charsets] (name : Text) {rs : List Recipient} (hne : rs ≠ [])
    (h : ∀ r ∈ rs, r.Valid ∧ r.Contained) :
    ofField (Field.ofText name (formatAll rs)) = rs.map received := by
  obtain ⟨r, rest, rfl⟩ := List.exists_cons_of_ne_nil hne
  have hrest := spellBehind_behind fun q hq => (h q (List.mem_cons_of_mem r hq)).2
  have hvalid := (h r (by simp)).2.spell_valid hrest
  have hline := oneLine_formatAll fun q hq => (h q hq).1
  have hfirst := head_formatAll fun q hq => (h q hq).1
  have hnonempty : formatAll (r :: rest) ≠ [] := fun hnil =>
    absurd ((formatAll_eq_nil fun q hq => (h q hq).1).1 hnil) hne
  have hlist : AddressList.ofField? (Field.ofText name (formatAll (r :: rest))) =
      some ((r :: rest).map entryOf) := by
    rw [AddressList.ofField?, Field.tokens, Field.raw_ofText, ← line_list] at *
    rw [AddressList.ofItems?_line hvalid hline hnonempty hfirst, items_spell, items_spellBehind]
    exact AddressList.ofItems?_list h
  have hboxes : ((r :: rest).map entryOf).flatMap AddressEntry.mailboxes =
      (r :: rest).map fun q => ⟨q.name.map readName, q.address⟩ := by
    rw [List.flatMap_map, List.map_eq_flatMap]
    rfl
  rw [ofField, hlist]
  simp only [hboxes, List.filterMap_map]
  rw [List.filterMap_eq_map_iff_forall_eq_some]
  exact fun q hq => ofMailbox?_eq (h q hq).1 (h q hq).2

end Recipient
end Epistle
