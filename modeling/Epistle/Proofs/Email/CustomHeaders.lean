import Epistle.Proofs.Email.HeaderText

/-!
What a reader finds of the custom headers that were written, call after call. A header is kept under
the exact spelling of its name, but looked up ignoring case; so the last value counts as long as a
name is always spelled alike, and otherwise the last value under the least of its spellings.
-/
namespace Epistle
namespace Email

open Checked (map_ok mem_mapM)
open FieldName (ValidEntry isStructural)

variable {e e' : Email} {entries headers : List (Text × Text)} {name value : Text}

theorem addHeader_ok (h : e.addHeader name value = .ok e') : ValidEntry (name, value) ∧
    e' = { e with headers := e.headers.setAll [(name, value)] } := by
  rw [addHeader_eq] at h
  obtain ⟨⟨n, v⟩, hentry, rfl⟩ := map_ok h
  obtain ⟨hsame, hvalid⟩ := checkHeader_valid hentry
  cases hsame
  exact ⟨hvalid, rfl⟩

/-- Checking changes no entry. -/
theorem checkHeaders_ok {checked : List (Text × Text)}
    (h : (headers.mapM fun p => checkHeader p.1 p.2) = .ok checked) :
    checked = headers ∧ ∀ p ∈ headers, ValidEntry p := by
  induction headers generalizing checked with
  | nil =>
      cases h
      exact ⟨rfl, by simp⟩
  | cons p headers ih =>
      rw [List.mapM_cons] at h
      obtain ⟨entry, hentry, h⟩ := Checked.bind_ok h
      obtain ⟨rest, hrest, h⟩ := Checked.bind_ok h
      cases h
      obtain ⟨hsame, hvalid⟩ := checkHeader_valid hentry
      obtain ⟨rfl, hall⟩ := ih hrest
      subst hsame
      exact ⟨rfl, List.forall_mem_cons.2 ⟨hvalid, hall⟩⟩

theorem addHeaders_ok (h : e.addHeaders headers = .ok e') : (∀ p ∈ headers, ValidEntry p) ∧
    e' = { e with headers := e.headers.setAll headers } := by
  rw [addHeaders_eq] at h
  obtain ⟨checked, hchecked, rfl⟩ := map_ok h
  obtain ⟨rfl, hvalid⟩ := checkHeaders_ok hchecked
  exact ⟨hvalid, rfl⟩

/-- What calls that set custom headers make of a fresh letter, and the entries that they wrote, in
their order. -/
inductive Written : List (Text × Text) → Email → Prop where
  | fresh : Written [] ∅
  | addHeader {entries : List (Text × Text)} {e e' : Email} {name value : Text} :
      Written entries e → e.addHeader name value = .ok e' → Written (entries ++ [(name, value)]) e'
  | addHeaders {entries headers : List (Text × Text)} {e e' : Email} :
      Written entries e → e.addHeaders headers = .ok e' → Written (entries ++ headers) e'

/-- Entries that were let in are set one after the other. -/
theorem setAll_headers (hvalid : ∀ p ∈ entries, ValidEntry p)
    (he : e = { (∅ : Email) with headers := .ofList entries })
    (hmore : ∀ p ∈ headers, ValidEntry p)
    (he' : e' = { e with headers := e.headers.setAll headers }) :
    (∀ p ∈ entries ++ headers, ValidEntry p) ∧
      e' = { (∅ : Email) with headers := .ofList (entries ++ headers) } := by
  refine ⟨List.forall_mem_append.2 ⟨hvalid, hmore⟩, ?_⟩
  rw [he', he, Dictionary.ofList, Dictionary.ofList, Dictionary.setAll_append]

theorem Written.eq (h : Written entries e) : (∀ p ∈ entries, ValidEntry p) ∧
    e = { (∅ : Email) with headers := .ofList entries } := by
  induction h with
  | fresh => exact ⟨by simp, rfl⟩
  | addHeader _ hcall ih =>
      obtain ⟨hvalid, he'⟩ := addHeader_ok hcall
      exact setAll_headers ih.1 ih.2 (List.forall_mem_singleton.2 hvalid) he'
  | addHeaders _ hcall ih =>
      obtain ⟨hvalid, he'⟩ := addHeaders_ok hcall
      exact setAll_headers ih.1 ih.2 hvalid he'

theorem Written.sound (h : Written entries e) : e.Sound := by
  obtain ⟨hvalid, rfl⟩ := h.eq
  exact Sound.empty.setHeaders hvalid

theorem Written.get?_headers (h : Written entries e) (name : Text) :
    e.headers.get? name = entries.reverse.lookup name := by
  rw [h.eq.2]
  exact (Dictionary.get?_setAll [] entries name).trans Option.or_none

theorem Written.mem_headers (h : Written entries e) {p : Text × Text} (hp : p ∈ e.headers) :
    p ∈ entries := by
  rw [h.eq.2] at hp
  rcases Dictionary.mem_setAll hp with hp | hp
  · exact hp
  · cases hp

/-- A value that does not begin with a blank and, where it is printable, holds no mark that could
begin an encoded word. -/
structure PlainValue (v : Text) : Prop where
  start : ∀ c, v.head? = some c → Text.isBlank c = false
  plain : v.all Text.isPrintable → Token.Spelling.Plain v

theorem plainValue_of_isPrintable {v : Text} (hv : ∀ c ∈ v, Text.isPrintable c)
    (hplain : Token.Spelling.Plain v) (hstart : v.head? ≠ some ' ') : PlainValue v := by
  refine ⟨fun c hc => Text.isBlank_of_isPrintable (hv c (List.mem_of_head? hc)) ?_, fun _ => hplain⟩
  rintro rfl
  exact hstart hc

/-- The value that was written last under a name, however that was spelled. -/
def lastOf? (name : Text) (entries : List (Text × Text)) : Option Text :=
  (entries.reverse.find? fun p => Text.sameName p.1 name).map Prod.snd

theorem lookup_reverse_isSome {p : Text × Text} (hp : p ∈ entries) :
    (entries.reverse.lookup p.1).isSome := by
  rw [List.lookup_isSome_iff]
  exact ⟨p, List.mem_reverse.2 hp, beq_self_eq_true _⟩

theorem find?_sameName_eq_lookup {entries : List (Text × Text)} {spelling : Text}
    (hs : Text.sameName spelling name)
    (hall : ∀ p ∈ entries, Text.sameName p.1 name → p.1 = spelling) :
    (entries.find? fun p => Text.sameName p.1 name).map Prod.snd = entries.lookup spelling := by
  induction entries with
  | nil => rfl
  | cons p entries ih =>
      obtain ⟨n, v⟩ := p
      obtain ⟨hhead, htail⟩ := List.forall_mem_cons.1 hall
      by_cases hn : Text.sameName n name
      · obtain rfl : n = spelling := hhead hn
        rw [List.find?_cons, hn, List.lookup_cons_self]
        rfl
      · have hne : (spelling == n) = false := by
          rw [beq_eq_false_iff_ne]
          rintro rfl
          exact hn hs
        rw [List.find?_cons, Bool.eq_false_iff.2 hn, List.lookup_cons, hne]
        exact ih htail

/-- Where all spellings are one, the last value of any is the last value of that one. -/
theorem lastOf?_eq_lookup {spelling : Text} (hs : Text.sameName spelling name)
    (hall : ∀ p ∈ entries, Text.sameName p.1 name → p.1 = spelling) :
    lastOf? name entries = entries.reverse.lookup spelling :=
  find?_sameName_eq_lookup hs fun p hp => hall p (List.mem_reverse.1 hp)

/-- Under the least spelling the last value is found. -/
theorem Written.header_least [Charsets] (h : Written entries e) (hv : ∀ p ∈ entries, PlainValue p.2)
    (mint : Mint) (hn : isStructural name = false) {p : Text × Text} (hp : p ∈ entries)
    (hs : Text.sameName p.1 name)
    (hleast : ∀ q ∈ entries, Text.sameName q.1 name → ¬ q.1 < p.1) :
    (e.render mint).1.header name = .ok (entries.reverse.lookup p.1) := by
  obtain ⟨v, hvalue⟩ := Option.isSome_iff_exists.1 (lookup_reverse_isSome hp)
  have hmem : (p.1, v) ∈ e.headers :=
    Dictionary.mem_of_get? ((h.get?_headers p.1).trans hvalue)
  have hfirst : e.headers.find? (fun q => Text.sameName q.1 name) = some (p.1, v) :=
    h.sound.sorted.find?_least hmem hs fun q hq => hleast q (h.mem_headers hq)
  obtain ⟨hstart, hplain⟩ := hv _ (h.mem_headers hmem)
  rw [h.sound.header_render, h.sound.textOf?_header mint hn, hfirst, hvalue, Option.map_some,
    Field.stripped_eq_self _ (EncodedWord.isBlank_head_encode hstart), Field.text_ofText,
    Token.decodeValue_encode hplain hstart]

theorem Written.header_missing [Charsets] (h : Written entries e) (mint : Mint)
    (hn : isStructural name = false) (hnone : ∀ p ∈ entries, Text.sameName p.1 name = false) :
    (e.render mint).1.header name = .ok none := by
  have hfind : e.headers.find? (fun q => Text.sameName q.1 name) = none := by
    rw [List.find?_eq_none]
    intro p hp
    rw [hnone p (h.mem_headers hp)]
    exact Bool.false_ne_true
  rw [h.sound.header_render, h.sound.textOf?_header mint hn, hfind]
  rfl

/-- The last value written under a name is what a reader of the rendered letter finds, as long as
the name is always spelled alike. Of several spellings the least is read, with its last value. -/
theorem header_of_written [Charsets] (h : Written entries e) (hv : ∀ p ∈ entries, PlainValue p.2)
    (mint : Mint) (hn : isStructural name = false) :
    ((∀ p ∈ entries, ∀ q ∈ entries, Text.sameName p.1 name → Text.sameName q.1 name →
        p.1 = q.1) → (e.render mint).1.header name = .ok (lastOf? name entries)) ∧
    ∀ p ∈ entries, Text.sameName p.1 name →
      (∀ q ∈ entries, Text.sameName q.1 name → ¬ q.1 < p.1) →
      (e.render mint).1.header name = .ok (entries.reverse.lookup p.1) := by
  refine ⟨fun hone => ?_, fun p hp hs hleast => h.header_least hv mint hn hp hs hleast⟩
  by_cases hany : ∃ p ∈ entries, Text.sameName p.1 name
  · obtain ⟨p, hp, hs⟩ := hany
    rw [lastOf?_eq_lookup hs fun q hq hqs => hone q hq p hp hqs hs]
    refine h.header_least hv mint hn hp hs fun q hq hqs => ?_
    rw [hone q hq p hp hqs hs]
    exact List.lt_irrefl _
  · have hnone : ∀ p ∈ entries, Text.sameName p.1 name = false :=
      fun p hp => Bool.eq_false_iff.2 fun hs => hany ⟨p, hp, hs⟩
    have hlast : lastOf? name entries = none := by
      rw [lastOf?, Option.map_eq_none_iff, List.find?_eq_none]
      intro p hp
      rw [hnone p (List.mem_reverse.1 hp)]
      exact Bool.false_ne_true
    rw [hlast]
    exact h.header_missing mint hn hnone

/-- A priority that is changed once, and the address of a list under two spellings. -/
def notices : List (Text × Text) :=
  [("X-Priority".toList, "1".toList), ("List-Id".toList, "<notes.example>".toList),
    ("X-Priority".toList, "3 (Normal)".toList), ("list-id".toList, "<news.example>".toList)]

def noticed : Email := { (∅ : Email) with headers := .ofList notices }

theorem written_noticed : Written notices noticed := by
  have hfirst : (∅ : Email).addHeader "X-Priority" "1" =
      .ok { (∅ : Email) with headers := [("X-Priority".toList, "1".toList)] } := rfl
  have hrest : Email.addHeaders notices.tail
      { (∅ : Email) with headers := [("X-Priority".toList, "1".toList)] } = .ok noticed := rfl
  exact (Written.fresh.addHeader hfirst).addHeaders hrest

theorem plainValue_notices : ∀ p ∈ notices, PlainValue p.2 := by
  have hall : ∀ p ∈ notices, (∀ c ∈ p.2, Text.isPrintable c) ∧ Token.Spelling.Plain p.2 ∧
      p.2.head? ≠ some ' ' := by
    decide
  exact fun p hp => plainValue_of_isPrintable (hall p hp).1 (hall p hp).2.1 (hall p hp).2.2

theorem header_of_written_notices : Written notices noticed ∧
    (noticed.render ⟨0, fun _ => 0⟩).1.header "x-priority" = .ok (some "3 (Normal)".toList) ∧
    (noticed.render ⟨0, fun _ => 0⟩).1.header "X-Mailer" = .ok none ∧
    (noticed.render ⟨0, fun _ => 0⟩).1.header "list-id" = .ok (some "<notes.example>".toList) := by
  have hread (name : Text) (hn : isStructural name = false) :=
    header_of_written written_noticed plainValue_notices ⟨0, fun _ => 0⟩ hn
  refine ⟨written_noticed, (hread _ (by decide)).1 (by decide), (hread _ (by decide)).1 (by decide),
    ?_⟩
  exact (hread _ (by decide)).2 ("List-Id".toList, "<notes.example>".toList) (by decide)
    (by decide) (by decide)

/-- The later value of the list is written, but its spelling comes second on the wire. -/
theorem second_spelling_hidden : Written notices noticed ∧
    lastOf? "List-Id" notices = some "<news.example>".toList ∧
    (noticed.render ⟨0, fun _ => 0⟩).1.header "List-Id" =
      .ok (some "<notes.example>".toList) := by
  have hmem : ("List-Id".toList, "<notes.example>".toList) ∈ notices := by decide
  exact ⟨written_noticed, by decide, written_noticed.header_least plainValue_notices _ (by decide)
    hmem (by decide) (by decide)⟩

end Email
end Epistle
