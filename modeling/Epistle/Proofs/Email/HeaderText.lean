import Epistle.Proofs.Email.Thread
import Epistle.Proofs.Header.Survival

/-!
Subjects and custom headers on the wire. Each is looked up in the rendered letter under its name and
is what its sender wrote, unless the text can be mistaken for an encoded word. A custom header is
found if its name does not belong to the structure and it is the first of its name.
-/
namespace Epistle

/-- A text behind its field name is read as what its header form decodes to. -/
theorem Field.text_shown [Charsets] (name : Text) {t : Text} (ht : Text.trim t = t) :
    (ofText name (EncodedWord.encode t)).stripped.text =
      Token.decodeValue (EncodedWord.encode t) := by
  have hstart := EncodedWord.isBlank_head_encode (Text.isBlank_head_of_trim ht)
  rw [stripped_eq_self name hstart, text_ofText]

namespace Email

open Token (Mistakable)

variable {e : Email}

theorem Sound.header_render [Charsets] (h : e.Sound) (mint : Mint) (name : Text) :
    (e.render mint).1.header name = .ok (Field.textOf? (e.readBack mint) name) := by
  rw [Message.header, h.readBlock_octets]

theorem Sound.textOf?_subject [Charsets] (h : e.Sound) (mint : Mint) {s : Text}
    (hs : e.subject = some s) (ht : Text.trim s = s) : Field.textOf? (e.readBack mint) "Subject" =
      some (Token.decodeValue (EncodedWord.encode s)) := by
  have hmem : ("Subject".toList, e.subject.map EncodedWord.encode) ∈ e.pairs mint := by
    simp [pairs]
  rw [Field.textOf?, h.find?_shown mint (by decide) hmem, hs]
  exact congrArg some (Field.text_shown _ ht)

/-- Custom fields are found under the names of the entries that they are written from. -/
theorem find?_entries {entries : Dictionary} (h : ∀ p ∈ entries, FieldName.isValid p.1)
    (target : Text) :
    Field.find? (entries.map fun p => Field.ofText p.1 (EncodedWord.encode p.2)) target =
      (entries.find? fun p => Text.sameName p.1 target).map
        fun p => Field.ofText p.1 (EncodedWord.encode p.2) := by
  induction entries with
  | nil => rfl
  | cons p entries ih =>
      obtain ⟨hp, hentries⟩ := List.forall_mem_cons.1 h
      have hkey := Field.key_ofText hp (EncodedWord.encode p.2)
      rw [List.map_cons, Field.find?, List.find?_cons, List.find?_cons, hkey]
      cases Text.sameName p.1 target with
      | true => rfl
      | false => exact ih hentries

/-- Entries that belong to the structure do not stand in the way of the others. -/
theorem Sound.find?_shownHeaders (h : e.Sound) {target : Text}
    (ht : FieldName.isStructural target = false) :
    e.shownHeaders.find? (fun p => Text.sameName p.1 target) =
      e.headers.find? fun p => Text.sameName p.1 target := by
  rw [h.shownHeaders, List.find?_filter]
  congr 1
  funext p
  cases hsame : Text.sameName p.1 target with
  | false => simp
  | true => simp [FieldName.isStructural_congr hsame, ht]

/-- Outside the structure the first custom header of a name is found. -/
theorem Sound.textOf?_header [Charsets] (h : e.Sound) (mint : Mint) {name : Text}
    (hname : FieldName.isStructural name = false) : Field.textOf? (e.readBack mint) name =
      (e.headers.find? fun p => Text.sameName p.1 name).map
        fun p => (Field.ofText p.1 (EncodedWord.encode p.2)).stripped.text := by
  have hvalid : ∀ p ∈ e.shownHeaders, FieldName.isValid p.1 := by
    intro p hp
    rw [h.shownHeaders] at hp
    exact (h.headers p (List.mem_filter.1 hp).1).name
  have hfind := find?_entries hvalid name
  rw [h.find?_shownHeaders hname] at hfind
  rw [Field.textOf?, find?_readBack_custom e mint hname, customFields, hfind, Option.map_map,
    Option.map_map]
  rfl

theorem Sound.textOf?_custom [Charsets] (h : e.Sound) (mint : Mint) {name n v : Text}
    (hname : FieldName.isStructural name = false)
    (hfirst : e.headers.find? (fun p => Text.sameName p.1 name) = some (n, v))
    (ht : Text.trim v = v) : Field.textOf? (e.readBack mint) name =
      some (Token.decodeValue (EncodedWord.encode v)) := by
  rw [h.textOf?_header mint hname, hfirst]
  exact congrArg some (Field.text_shown _ ht)

/-- The subject of a rendered letter, and a custom header under the first of its names, are what
they were set to exactly if they cannot be mistaken for encoded words. -/
theorem header_text_survives [Charsets] (h : Reachable e) (mint : Mint) :
    (∀ s, e.subject = some s → Text.trim s = s →
      ((e.render mint).1.subject = .ok (some s) ↔ ¬ Mistakable s)) ∧
    ∀ name n v, FieldName.isStructural name = false →
      e.headers.find? (fun p => Text.sameName p.1 name) = some (n, v) → Text.trim v = v →
      ((e.render mint).1.header name = .ok (some v) ↔ ¬ Mistakable v) := by
  have hok : ∀ t u : Text, (Except.ok (some t) : Except ReadError (Option Text)) = .ok (some u) ↔
      t = u := by simp
  refine ⟨?_, ?_⟩
  · intro s hs ht
    have hne : s ≠ [] := by
      rintro rfl
      exact h.sound.subject hs
    rw [Message.subject, h.sound.header_render, h.sound.textOf?_subject mint hs ht, hok]
    exact Token.decodeValue_encode_iff ht hne
  · intro name n v hname hfirst ht
    have hne : v ≠ [] := (h.sound.headers _ (List.mem_of_find?_eq_some hfirst)).value_ne
    rw [h.sound.header_render, h.sound.textOf?_custom mint hname hfirst ht, hok]
    exact Token.decodeValue_encode_iff ht hne

/-- A letter whose subject holds an encoded word but is no printable text, and whose custom headers
hold the mark that one begins with and a word in an encoding of central Europe. -/
def puzzle : Email :=
  { empty with
    subject := some "Ré:\n=?UTF-8?Q?a?=".toList
    headers := [("X-Note".toList, "is =? an operator?".toList),
      ("X-Town".toList, "=?ISO-8859-2?B?o/NkvA==?=".toList)] }

theorem puzzle_reachable [Charsets] : Reachable puzzle :=
  (Reachable.empty.write (.setSubject "Ré:\n=?UTF-8?Q?a?=".toList) trivial rfl rfl).write
    (.addHeaders [("X-Note".toList, "is =? an operator?".toList),
      ("X-Town".toList, "=?ISO-8859-2?B?o/NkvA==?=".toList)]) trivial rfl rfl

/-- The characters that ISO 8859-2 has for the octets from 0xA0 on. -/
def latin2Supplement : List Char :=
  ("\u00A0Ą˘Ł¤ĽŚ§¨ŠŞŤŹ\u00ADŽŻ°ą˛ł´ľśˇ¸šşťź˝žżŔÁÂĂÄĹĆÇČÉĘËĚÍÎĎĐŃŇÓÔŐÖ×ŘŮÚŰÜÝŢß" ++
    "ŕáâăäĺćçčéęëěíîďđńňóôőö÷řůúűüýţ˙").toList

def latin2 : Decoder where
  decode bytes := bytes.map fun b =>
    if b.toNat < 0xA0 then Char.ofNat b.toNat else latin2Supplement.getD (b.toNat - 0xA0) ' '
  length_le _ := (List.length_map _).le

abbrev centralEuropean : Charsets where
  decoder? label :=
    if Charset.isNamed ["iso-8859-2", "iso8859-2", "l2", "latin2"] label then some latin2 else none

theorem header_text_survives_puzzle :
    letI := centralEuropean
    (puzzle.render ⟨0, fun _ => 0⟩).1.subject = .ok (some "Ré:\n=?UTF-8?Q?a?=".toList) ∧
    (puzzle.render ⟨0, fun _ => 0⟩).1.header "x-note" = .ok (some "is =? an operator?".toList) ∧
    (puzzle.render ⟨0, fun _ => 0⟩).1.header "x-town" ≠
      .ok (some "=?ISO-8859-2?B?o/NkvA==?=".toList) := by
  let _ := centralEuropean
  obtain ⟨hsubject, hheader⟩ := header_text_survives puzzle_reachable ⟨0, fun _ => 0⟩
  refine ⟨(hsubject _ rfl (by decide)).2 ?_,
    (hheader "x-note" "X-Note" _ (by decide) (by decide) (by decide)).2 ?_, fun htown => ?_⟩
  · rintro ⟨hp, -⟩
    exact absurd hp (by decide)
  · exact fun h => h.marks.2 (by decide)
  · have hword : EncodedWord.decode? "ISO-8859-2?B?o/NkvA==".toList = some "Łódź".toList := by
      decide +kernel
    have hline := @Token.ofLine_found _ "=?ISO-8859-2?B?o/NkvA==?=".toList
      [] "ISO-8859-2?B?o/NkvA==?=".toList _ [] _ (by decide) (by decide) (by decide) (by decide)
      hword (by decide)
    refine (hheader "x-town" "X-Town" _ (by decide) (by decide) (by decide)).1 htown ⟨by decide, ?_⟩
    exact ⟨"Łódź".toList, by rw [hline]; simp⟩

/-- A letter whose subject and one of whose headers look encoded, with two headers of one name and
one that belongs to the structure. -/
def disguised : Email :=
  { empty with
    subject := some "=?UTF-8?Q?a?=".toList
    headers := [("Content-Language".toList, "en".toList), ("X-A".toList, "1".toList),
      ("X-B".toList, "=?UTF-8?Q?a?=".toList), ("x-a".toList, "2".toList)] }

theorem disguised_reachable [Charsets] : Reachable disguised := by
  have hsubject := Reachable.empty.write (.setSubject "=?UTF-8?Q?a?=".toList) trivial rfl rfl
  exact hsubject.write (.addHeaders [("Content-Language".toList, "en".toList),
    ("X-A".toList, "1".toList), ("X-B".toList, "=?UTF-8?Q?a?=".toList),
    ("x-a".toList, "2".toList)]) trivial rfl rfl

/-- Its subject and that header are read as the words, the second header of a name is hidden behind
the first, and the structural one is not written at all. -/
theorem header_text_mistaken :
    (disguised.render ⟨0, fun _ => 0⟩).1.subject = .ok (some "a".toList) ∧
    (disguised.render ⟨0, fun _ => 0⟩).1.header "X-B" = .ok (some "a".toList) ∧
    (disguised.render ⟨0, fun _ => 0⟩).1.header "x-a" = .ok (some "1".toList) ∧
    (disguised.render ⟨0, fun _ => 0⟩).1.header "Content-Language" = .ok none := by
  have hsound := disguised_reachable.sound
  have htokens := @Token.ofValue_found _ "=?UTF-8?Q?a?=".toList
    [] "UTF-8?Q?a?=".toList "UTF-8?Q?a".toList [] "a".toList (by decide) (by decide)
    (by rintro c ⟨⟩; decide) (by decide) (by decide) (by decide) (by decide) (by decide) (by decide)
  have hword : Token.decodeValue (EncodedWord.encode "=?UTF-8?Q?a?=") = "a".toList := by
    rw [EncodedWord.encode, if_pos (by decide), Token.decodeValue, htokens]
    decide
  have hnumber : Token.decodeValue (EncodedWord.encode "1") = "1".toList :=
    Token.decodeValue_encode (fun _ => by decide) (by rintro c ⟨⟩; decide)
  have hnone : ∀ name ∈ headNames, Text.sameName name "Content-Language" = false := by decide
  have hlanguage : Field.find? (disguised.readBack ⟨0, fun _ => 0⟩) "Content-Language" = none := by
    have hlookup : Field.lookup "Content-Language" (disguised.pairs ⟨0, fun _ => 0⟩) = none :=
      Field.lookup_eq_none hnone
    rw [hsound.find?_readBack _ (by decide), hlookup]
    rfl
  rw [Message.subject]
  simp only [hsound.header_render]
  rw [hsound.textOf?_subject _ rfl (by decide), hword,
    hsound.textOf?_custom _ (by decide) (n := "X-B") (v := "=?UTF-8?Q?a?=") (by decide) (by decide),
    hword, hsound.textOf?_custom _ (by decide) (n := "X-A") (v := "1") (by decide) (by decide),
    hnumber, Field.textOf?, hlanguage]
  exact ⟨rfl, rfl, rfl, rfl⟩

end Email
end Epistle
