import Epistle.Proofs.Address.Entries
import Epistle.Proofs.Address.Spelling

/-!
Recipients whose addresses need not hold an at sign. One address without it and the field is no
address list any more, so it is read entry by entry. A bare address is then what it was; a mailbox
with a name is no single mailbox to the reader of entries, who keeps it whole as an address.
-/
namespace Epistle

/-- A recipient that is written in plain text, its address free of punctuation. -/
structure Recipient.Tame (r : Recipient) : Prop where
  address_chars : ∀ c ∈ r.address, isAddressChar c
  address_plain : Token.Spelling.Plain r.address
  name_printable : ∀ n, r.name = some n → n.all Text.isPrintable
  name_plain : ∀ n, r.name = some n → Token.Spelling.Plain n

instance (r : Recipient) : Decidable r.Tame :=
  decidable_of_iff ((∀ c ∈ r.address, Recipient.isAddressChar c) ∧
      Token.Spelling.Plain r.address ∧ (∀ n ∈ r.name, n.all Text.isPrintable) ∧
      ∀ n ∈ r.name, Token.Spelling.Plain n)
    ⟨fun ⟨hc, hp, hn, hm⟩ => ⟨hc, hp, hn, hm⟩, fun ⟨hc, hp, hn, hm⟩ => ⟨hc, hp, hn, hm⟩⟩

theorem Recipient.Tame.contained {r : Recipient} (h : r.Tame) (hat : '@' ∈ r.address) :
    r.Contained :=
  contained_of_chars hat h.address_chars h.address_plain fun n hn _ => h.name_plain n hn

namespace AddressList

namespace Machine

variable {done : List AddressEntry} {gap : Text} {r : Recipient} {rs : List Recipient}

theorem run_none {m : Machine} {i : Item} (h : m.step i = none) (items : List Item) :
    m.run (i :: items) = none := by
  rw [run, List.foldlM_cons, h]
  rfl

theorem push_refused (m : Machine) (name : Option Text) {address : Text} (h : '@' ∉ address) :
    m.push name address = none := by
  simp [push, Mailbox.make?, h]

/-- The machine gives up where the entry of an address without an at sign ends. -/
theorem run_refused (hvalid : r.Valid) (h : r.Tame) (hat : '@' ∉ r.address)
    (rs : List Recipient) :
    (run ⟨done, none, gap, .start⟩ (itemsOf r ++ itemsBehind rs)).bind finish = none := by
  -- A mailbox is made where its entry ends: at the end of the list, at a comma, or at a bracket.
  obtain ⟨hboxed, hbare, hquote⟩ := Recipient.unpunctuated h.address_chars
  cases hn : r.name with
  | none =>
      have hitems : run ⟨done, none, gap, .start⟩ (itemsOf r) =
          some ⟨done, none, gap, .bare r.address⟩ := by
        simp only [itemsOf, hn]
        exact run_address hvalid.address_ne (Text.isBlank_head_of_trim hvalid.address_trimmed)
          hquote hbare
      rw [run_append hitems]
      cases rs with
      | nil =>
          change finish ⟨done, none, gap, .bare r.address⟩ = none
          simp [finish, trimEnd_address hvalid, push_refused _ _ hat]
      | cons q rs =>
          have hstep : step ⟨done, none, gap, .bare r.address⟩ (.char ',') = none := by
            simp [step, stepChar, bareChar, trimEnd_address hvalid, push_refused _ _ hat]
          change ((run _ (Item.char ',' :: _)).bind finish) = none
          rw [run_none hstep]
          rfl
  | some n =>
      obtain ⟨gap', hname⟩ := @run_name done gap n
      have hitems : itemsOf r ++ itemsBehind rs =
          ((if n.all Text.isPrintable then (['"'] ++ Quoted.escape n ++ ['"']).map Item.char
            else (EncodedWord.runsFrom [] n).map .word) ++ " <".toList.map .char) ++
            (r.address.map .char ++ .char '>' :: itemsBehind rs) := by
        simp [itemsOf, hn]
      have hstep : step ⟨done, none, gap', .bracketed (some (Recipient.readName n)) r.address⟩
          (.char '>') = none := by
        simp [step, stepChar, push_refused _ _ hat]
      rw [hitems, run_append hname, run_append (run_bracketed hboxed []), List.nil_append,
        run_none hstep]
      rfl

theorem run_list_refused (h : ∀ q ∈ r :: rs, q.Valid ∧ q.Tame)
    (hat : ∃ q ∈ r :: rs, '@' ∉ q.address) :
    (run ⟨done, none, gap, .start⟩ (itemsOf r ++ itemsBehind rs)).bind finish = none := by
  obtain ⟨⟨hvalid, htame⟩, hrest⟩ := List.forall_mem_cons.1 h
  induction rs generalizing done gap r with
  | nil =>
      obtain ⟨q, hq, hat⟩ := hat
      rw [List.mem_singleton.1 hq] at hat
      exact run_refused hvalid htame hat []
  | cons q rs ih =>
      by_cases hr : '@' ∈ r.address
      · have hcontained := htame.contained hr
        obtain ⟨gap', hitems⟩ := @run_itemsOf done gap r hvalid hcontained
        have hcons : itemsBehind (q :: rs) =
            ", ".toList.map .char ++ (itemsOf q ++ itemsBehind rs) := by simp [itemsBehind]
        have hlater : ∃ p ∈ q :: rs, '@' ∉ p.address := by
          obtain ⟨p, hp, hat⟩ := hat
          rcases List.mem_cons.1 hp with rfl | hp
          · exact absurd hr hat
          · exact ⟨p, hp, hat⟩
        have hq := hrest q (by simp)
        rw [run_append hitems, hcons, run_append (run_comma hvalid hcontained)]
        exact ih hrest hlater (fun p hp => hrest p (by simp [hp])) hq.1 hq.2
      · exact run_refused hvalid htame hr _

end Machine

/-- A list is refused if one of its addresses lacks the at sign. -/
theorem ofItems?_refused {r : Recipient} {rs : List Recipient}
    (h : ∀ q ∈ r :: rs, q.Valid ∧ q.Tame) (hat : ∃ q ∈ r :: rs, '@' ∉ q.address) :
    ofItems? (itemsOf r ++ itemsBehind rs) = none :=
  Machine.run_list_refused h hat

/-- The machine reads plain text as its characters. -/
theorem items_plain [Charsets] {t : Text} (h : Token.Spelling.Plain t) (hline : Text.OneLine t)
    (hne : t ≠ []) (hstart : ∀ c, t.head? = some c → Text.isBlank c = false) :
    (Token.ofValue t).flatMap Item.ofToken = t.map .char := by
  obtain ⟨c, rest, rfl⟩ := List.exists_cons_of_ne_nil hne
  have hc : Text.isBlank c = false := hstart c rfl
  rw [Token.ofValue_plain h hline hne hstart, Token.blankOrText,
    if_neg (by simp [Text.allBlank, hc])]
  exact List.append_nil _

end AddressList

namespace Recipient

open AddressList (Item itemsOf itemsBehind entryOf)
open Token.Spelling (Plain)

variable {r : Recipient} {rs : List Recipient}

theorem plain_joinWith {ts : List Text} (h : ∀ t ∈ ts, Plain t) :
    Plain (Text.joinWith ", ".toList ts) := by
  induction ts with
  | nil => trivial
  | cons t ts ih =>
      obtain ⟨ht, hts⟩ := List.forall_mem_cons.1 h
      by_cases hne : ts = []
      · subst hne
        exact ht
      · rw [Text.joinWith_cons _ _ _ hne, Plain, Text.lacks_append, Text.lacks_append]
        refine ⟨⟨ht, by decide, ?_⟩, ih hts, ?_⟩
        · intro _ hhead
          exact absurd hhead (by decide)
        · intro hlast
          rw [List.getLast?_append_of_ne_nil _ (by decide)] at hlast
          exact absurd hlast (by decide)

theorem Tame.plain_format (h : r.Tame) : Plain r.format := by
  cases hn : r.name with
  | none =>
      rw [format_bare hn]
      exact h.address_plain
  | some n =>
      have hshown := plain_shownName (h.name_plain n hn) (h.name_printable n hn)
      have hbox : r.format = shownName n ++ r.box := by
        rw [format_named hn, box, List.append_assoc, List.append_assoc]
        simp
      rw [hbox]
      exact plain_append_box hshown.1 h.address_plain

/-- A printable name is written the way a list shows it. -/
theorem Tame.format_eq (h : r.Tame) : r.format = r.display := by
  cases hn : r.name with
  | none => simp only [format, display, hn]
  | some n =>
      have hp := h.name_printable n hn
      simp [format, display, hn, hp]

theorem Tame.items_eq (h : r.Tame) : itemsOf r = r.format.map .char := by
  cases hn : r.name with
  | none => simp only [itemsOf, format, hn]
  | some n =>
      have hp := h.name_printable n hn
      simp [itemsOf, format, hn, hp]

theorem isCalm_of_isAddressChar {c : Char} (h : isAddressChar c) : Entries.Scan.isCalm c := by
  obtain ⟨-, -, hnot⟩ := isAddressChar_cases h
  rw [Entries.Scan.isCalm_iff]
  simp only [List.mem_cons, not_or] at hnot
  exact ⟨hnot.1, hnot.2.1, hnot.2.2.1, hnot.2.2.2.2.2.2.2.2.1, hnot.2.2.2.2.2.1,
    hnot.2.2.2.2.2.2.1⟩

theorem Tame.closed_format (hvalid : r.Valid) (h : r.Tame) : Entries.Closed r.format := by
  rw [h.format_eq]
  exact closed_display hvalid fun c hc => isCalm_of_isAddressChar (h.address_chars c hc)

theorem items_formatAll (h : ∀ q ∈ r :: rs, q.Tame) :
    (formatAll (r :: rs)).map .char = itemsOf r ++ itemsBehind rs := by
  have hbehind : (rs.flatMap fun q => ", ".toList ++ q.format).map Item.char =
      itemsBehind rs := by
    rw [List.map_flatMap, itemsBehind]
    apply List.flatMap_congr
    intro q hq
    rw [List.map_append, (h q (List.mem_cons_of_mem r hq)).items_eq]
  rw [formatAll_cons, List.map_append, hbehind, (h r (by simp)).items_eq]

/-- What a field of tame recipients holds is its text, and the machine reads the characters. -/
theorem field_tame [Charsets] (name : Text) (h : ∀ q ∈ r :: rs, q.Valid ∧ q.Tame) :
    (Field.ofText name (formatAll (r :: rs))).text = formatAll (r :: rs) ∧
    AddressList.ofField? (Field.ofText name (formatAll (r :: rs))) =
      AddressList.ofItems? (itemsOf r ++ itemsBehind rs) := by
  have hvalid : ∀ q ∈ r :: rs, q.Valid := fun q hq => (h q hq).1
  have hplain : Plain (formatAll (r :: rs)) := by
    apply plain_joinWith
    intro t ht
    obtain ⟨q, hq, rfl⟩ := List.mem_map.1 ht
    exact (h q hq).2.plain_format
  have hline := oneLine_formatAll hvalid
  have hstart := head_formatAll hvalid
  have hne : formatAll (r :: rs) ≠ [] := fun hnil =>
    absurd ((formatAll_eq_nil hvalid).1 hnil) (by simp)
  refine ⟨?_, ?_⟩
  · rw [Field.text_ofText, Token.decodeValue_plain hplain hline hstart]
  · rw [AddressList.ofField?, Field.tokens, Field.raw_ofText,
      AddressList.items_plain hplain hline hne hstart, items_formatAll fun q hq => (h q hq).2]

/-- The recipient that a tame one is read as: with a name but without an at sign it becomes, whole,
the address of a nameless one. -/
def reread (r : Recipient) : Recipient :=
  if r.name = none ∨ '@' ∈ r.address then r.withRole none else ⟨none, r.format, none⟩

theorem Tame.map_readName (h : r.Tame) : r.name.map readName = r.name := by
  cases hn : r.name with
  | none => rfl
  | some n => simp [readName, h.name_printable n hn]

theorem hasControl_format (h : r.Valid) (htame : r.Tame) : Text.hasControl r.format = false := by
  rw [htame.format_eq, Text.hasControl_eq_false]
  have haddress := Text.hasControl_eq_false.1 h.address_control
  cases hn : r.name with
  | none => simpa only [display, hn] using haddress
  | some n =>
      have hquote : ∀ c ∈ ['"'], Text.isControl c = false := by decide
      have hopen : ∀ c ∈ "\" <".toList, Text.isControl c = false := by decide
      have hclose : ∀ c ∈ ['>'], Text.isControl c = false := by decide
      have hescaped :=
        Text.hasControl_eq_false.1 (Quoted.hasControl_escape (h.name_control n hn))
      simp only [display, hn, List.forall_mem_append]
      exact ⟨⟨⟨⟨hquote, hescaped⟩, hopen⟩, haddress⟩, hclose⟩

theorem reread_valid (h : r.Valid) (htame : r.Tame) : r.reread.Valid := by
  rw [reread]
  split
  · exact h.withRole none
  · have hclosed := htame.closed_format h
    exact ⟨hclosed.ne, hclosed.trimmed, hasControl_format h htame, by simp, by simp⟩

theorem withoutBrackets_reread (htame : r.Tame) :
    withoutBrackets r.reread.address = r.reread.address := by
  apply withoutBrackets_open
  intro hhead
  rw [reread] at hhead
  split at hhead
  · obtain ⟨-, -, hnot⟩ := isAddressChar_cases (htame.address_chars _ (List.mem_of_mem_head? hhead))
    exact hnot (by decide)
  · rename_i hname
    obtain ⟨n, hn⟩ := Option.ne_none_iff_exists'.1 (not_or.1 hname).1
    rw [htame.format_eq] at hhead
    simp [display, hn] at hhead

/-- The entry of a tame recipient, read alone. -/
theorem interpret_format (h : r.Valid) (htame : r.Tame) :
    Entries.interpret none r.format none = .ok r.reread := by
  have hclosed := htame.closed_format h
  have hmake := (reread_valid h htame).make_self none
  have hlist : AddressList.ofText? r.format =
      AddressList.ofItems? (itemsOf r ++ itemsBehind []) := by
    rw [AddressList.ofText?, ← htame.items_eq]
    exact congrArg _ (List.append_nil _).symm
  by_cases hat : '@' ∈ r.address
  · have hone : ∀ q ∈ [r], q.Valid ∧ q.Contained := by
      intro q hq
      rw [List.mem_singleton.1 hq]
      exact ⟨h, htame.contained hat⟩
    rw [AddressList.ofItems?_list hone] at hlist
    rw [reread, if_pos (.inr hat)] at hmake ⊢
    simp only [Entries.interpret, hclosed.trimmed, if_neg hclosed.ne, hlist, List.map_cons,
      entryOf, htame.map_readName, Option.none_or]
    exact hmake
  · have hone : ∀ q ∈ [r], q.Valid ∧ q.Tame := by
      intro q hq
      rw [List.mem_singleton.1 hq]
      exact ⟨h, htame⟩
    rw [AddressList.ofItems?_refused hone ⟨r, by simp, hat⟩] at hlist
    have hwhole : r.reread = ⟨none, r.format, none⟩ := by
      rw [reread]
      split
      · rename_i hname
        have hn := hname.resolve_right hat
        rw [format_bare hn, withRole, hn]
      · rfl
    rw [hwhole] at hmake ⊢
    simp only [Entries.interpret, hclosed.trimmed, if_neg hclosed.ne, hlist]
    exact hmake

/-- A valid recipient whose address stands in no brackets is read as itself. -/
theorem Valid.ofMailbox?_self (h : r.Valid) (hopen : withoutBrackets r.address = r.address) :
    ofMailbox? r.name r.address = some (r.withRole none) := by
  have hname : r.name.map Text.withoutControls = r.name := by
    cases hn : r.name with
    | none => rfl
    | some n => exact congrArg some (Text.withoutControls_eq_self (h.name_control n hn))
  simp only [ofMailbox?, h.address_trimmed, hopen, if_neg h.address_ne, hname, h.make_self none]
  rfl

theorem ofMailbox?_reread (h : r.Valid) (htame : r.Tame) :
    ofMailbox? r.reread.name r.reread.address = some r.reread := by
  have hrole : r.reread.withRole none = r.reread := by
    rw [reread]
    split <;> rfl
  rw [(reread_valid h htame).ofMailbox?_self (withoutBrackets_reread htame), hrole]

/-- A field of tame recipients is an address list if all of them hold an at sign, and either way it
is read as one recipient for each. -/
theorem ofField_tame [Charsets] (name : Text) (hne : rs ≠ []) (h : ∀ r ∈ rs, r.Valid ∧ r.Tame) :
    ((AddressList.ofField? (Field.ofText name (formatAll rs))).isSome ↔
      ∀ r ∈ rs, '@' ∈ r.address) ∧
    ofField (Field.ofText name (formatAll rs)) = rs.map reread := by
  obtain ⟨r, rest, rfl⟩ := List.exists_cons_of_ne_nil hne
  obtain ⟨htext, hlist⟩ := field_tame name h
  by_cases hat : ∀ q ∈ r :: rest, '@' ∈ q.address
  · have hcontained : ∀ q ∈ r :: rest, q.Valid ∧ q.Contained :=
      fun q hq => ⟨(h q hq).1, (h q hq).2.contained (hat q hq)⟩
    refine ⟨iff_of_true (by rw [hlist, AddressList.ofItems?_list hcontained]; rfl) hat, ?_⟩
    rw [ofField_contained name (by simp) hcontained]
    apply List.map_congr_left
    intro q hq
    rw [received_eq_self (h q hq).1 (h q hq).2.map_readName, reread, if_pos (.inr (hat q hq))]
  · have hrefused : AddressList.ofField? (Field.ofText name (formatAll (r :: rest))) = none := by
      rw [hlist]
      exact AddressList.ofItems?_refused h (by simpa only [not_forall, exists_prop] using hat)
    have hsplit : Entries.split (formatAll (r :: rest)) = (r :: rest).map format := by
      refine Entries.split_joinWith ?_ (by simp)
      intro e he
      obtain ⟨q, hq, rfl⟩ := List.mem_map.1 he
      exact (h q hq).2.closed_format (h q hq).1
    refine ⟨iff_of_false (by rw [hrefused]; simp) hat, ?_⟩
    rw [ofField, hrefused]
    simp only [htext, hsplit, List.filterMap_map]
    rw [List.filterMap_eq_map_iff_forall_eq_some]
    intro q hq
    simp only [Function.comp, interpret_format (h q hq).1 (h q hq).2]
    exact ofMailbox?_reread (h q hq).1 (h q hq).2

/-- A field of recipients is found again in the block that it was written in, if it is the first of
its name there. -/
theorem find?_written {name : Text} (hname : FieldName.isValid name) {front back : List Field}
    (hfront : ∀ f ∈ front, f.Clean ∧ Text.sameName f.key name = false)
    (hback : ∀ f ∈ back, f.Clean) (h : ∀ r ∈ rs, r.Valid) (body : Octets) : ∃ fs,
      Field.readBlock (Field.writeAll (front ++ Field.ofText name (formatAll rs) :: back) ++
        LineEnding.crlf ++ body) = .ok (fs, body) ∧
      Field.find? fs name = some (Field.ofText name (formatAll rs)) := by
  have hclean : ∀ f ∈ front ++ Field.ofText name (formatAll rs) :: back, f.Clean := by
    refine List.forall_mem_append.2
      ⟨fun f hf => (hfront f hf).1, List.forall_mem_cons.2 ⟨?_, hback⟩⟩
    exact Field.ofText_clean hname (oneLine_formatAll h)
  have hnone : Field.find? front name = none := by
    apply Field.find?_eq_none
    intro key hkey
    obtain ⟨f, hf, rfl⟩ := List.mem_map.1 hkey
    exact (hfront f hf).2
  have hkey := Field.key_ofText hname (formatAll rs)
  refine ⟨_, Field.readBlock_writeAll hclean body, ?_⟩
  rw [Field.find?_stripped, Field.find?_append, hnone, Option.none_or,
    Field.find?_cons (by rw [hkey]; simp [Text.sameName]), Option.map_some,
    Field.stripped_eq_self name (head_formatAll h)]

theorem reread_eq_iff : r.reread = r.withRole none ↔ (r.name ≠ none → '@' ∈ r.address) := by
  rw [reread]
  split
  · rename_i hcase
    exact iff_of_true rfl fun hn => hcase.resolve_left hn
  · rename_i hcase
    obtain ⟨hn, hat⟩ := not_or.1 hcase
    refine iff_of_false ?_ fun himp => hat (himp hn)
    intro heq
    exact hn (congrArg Recipient.name heq).symm

/-- Tame recipients are read as one recipient each, and as themselves exactly if none of them has a
name but no at sign; whether the field is read as a list or entry by entry depends on the at signs
alone. -/
theorem ofFields_tame [Charsets] {name : Text} (hname : FieldName.isValid name)
    {front back : List Field} (hfront : ∀ f ∈ front, f.Clean ∧ Text.sameName f.key name = false)
    (hback : ∀ f ∈ back, f.Clean) (hne : rs ≠ []) (h : ∀ r ∈ rs, r.Valid ∧ r.Tame)
    (body : Octets) : ∃ fs,
      Field.readBlock (Field.writeAll (front ++ Field.ofText name (formatAll rs) :: back) ++
        LineEnding.crlf ++ body) = .ok (fs, body) ∧
      ofFields fs name = rs.map reread ∧
      (ofFields fs name = rs.map (·.withRole none) ↔
        ∀ r ∈ rs, r.name ≠ none → '@' ∈ r.address) ∧
      (((Field.find? fs name).bind AddressList.ofField?).isSome ↔
        ∀ r ∈ rs, '@' ∈ r.address) := by
  obtain ⟨fs, hread, hfind⟩ := find?_written hname hfront hback (fun r hr => (h r hr).1) body
  obtain ⟨hstrict, hfield⟩ := ofField_tame name hne h
  have hrecipients : ofFields fs name = rs.map reread := by
    rw [ofFields, hfind]
    exact hfield
  refine ⟨fs, hread, hrecipients, ?_, ?_⟩
  · rw [hrecipients, List.map_inj_left]
    exact forall₂_congr fun _ _ => reread_eq_iff
  · rw [hfind]
    exact hstrict

/-- A full mailbox, a bare local one and a local one with a name. -/
def mixed : List Recipient :=
  [⟨some "Doe, \"Jane\"".toList, "jane@x.com".toList, none⟩,
    ⟨none, "MAILER-DAEMON".toList, none⟩, ⟨some "a@b; <".toList, "root".toList, none⟩]

theorem ofFields_tame_mixed : ∃ fs,
    Field.readBlock (Field.writeAll ([Field.ofText "Subject" "Hi"] ++
      Field.ofText "From" (formatAll mixed) :: []) ++ LineEnding.crlf ++ []) = .ok (fs, []) ∧
    ofFields fs "From" = [⟨some "Doe, \"Jane\"".toList, "jane@x.com".toList, none⟩,
      ⟨none, "MAILER-DAEMON".toList, none⟩, ⟨none, "\"a@b; <\" <root>".toList, none⟩] := by
  have hfront : ∀ f ∈ [Field.ofText "Subject" "Hi"],
      f.Clean ∧ Text.sameName f.key "From" = false := by
    intro f hf
    rw [List.mem_singleton.1 hf, Field.key_ofText (by decide)]
    exact ⟨Field.ofText_clean (by decide) (by decide), by decide⟩
  have hback : ∀ f ∈ ([] : List Field), f.Clean := by simp
  have hmade : ∀ r ∈ mixed, make r.name r.address none = .ok r ∧ r.Tame := by decide
  obtain ⟨fs, hread, hrecipients, -⟩ := ofFields_tame (by decide) hfront hback
    (by decide) (fun r hr => ⟨make_valid (hmade r hr).1, (hmade r hr).2⟩) []
  exact ⟨fs, hread, hrecipients.trans (by decide)⟩

/-- A local mailbox with a name, as systems send their notices from. -/
def bounced : List Recipient := [⟨some "Mail System".toList, "MAILER-DAEMON".toList, none⟩]

/-- It is read as a nameless recipient with another address. -/
theorem bounced_reread : (∀ r ∈ bounced, r.Made ∧ r.Tame) ∧ ∃ fs,
    Field.readBlock (Field.writeAll ([] ++ Field.ofText "From" (formatAll bounced) :: []) ++
      LineEnding.crlf ++ []) = .ok (fs, []) ∧
    ofFields fs "From" = [⟨none, "\"Mail System\" <MAILER-DAEMON>".toList, none⟩] ∧
    ofFields fs "From" ≠ bounced := by
  have hmade : ∀ r ∈ bounced, make r.name r.address none = .ok r ∧ r.Tame := by decide
  have hvalid : ∀ r ∈ bounced, r.Valid := fun r hr => make_valid (hmade r hr).1
  have hname : FieldName.isValid "From" := by decide
  have hfront : ∀ f ∈ ([] : List Field), f.Clean ∧ Text.sameName f.key "From" = false := by simp
  have hback : ∀ f ∈ ([] : List Field), f.Clean := by simp
  obtain ⟨fs, hread, hfind⟩ := find?_written hname hfront hback hvalid []
  have hrecipients : ofFields fs "From" =
      [⟨none, "\"Mail System\" <MAILER-DAEMON>".toList, none⟩] := by
    rw [ofFields, hfind]
    exact (ofField_tame _ (by decide) fun r hr => ⟨hvalid r hr, (hmade r hr).2⟩).2.trans (by decide)
  refine ⟨fun r hr => ⟨⟨_, _, _, (hmade r hr).1⟩, (hmade r hr).2⟩, fs, hread, hrecipients, ?_⟩
  rw [hrecipients]
  decide

end Recipient
end Epistle
