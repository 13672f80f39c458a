import Epistle.Proofs.Text.Split
import Epistle.Proofs.Transfer.LineEnding

/-!
Octets on the wire as lines that only CRLF ends. Expanding puts a carriage return in front of every
line feed and leaves the lines what they were in the text; a carriage return that no line feed
follows in the text stays alone on the wire.
-/
namespace Epistle
namespace LineEnding

section Neighbours

variable {α : Type} {a b c : α} {l : List α}

/-- Each `a` stands right in front of a `b`. -/
def Leads (a b : α) (l : List α) : Prop :=
  ∀ before after, l = before ++ a :: after → after.head? = some b

/-- Each `b` stands right behind an `a`. -/
def Trails (a b : α) (l : List α) : Prop :=
  ∀ before after, l = before ++ b :: after → before.getLast? = some a

theorem leads_nil : Leads a b [] := by
  intro before after h
  simp at h

theorem leads_cons : Leads a b (c :: l) ↔ (c = a → l.head? = some b) ∧ Leads a b l := by
  constructor
  · intro h
    refine ⟨?_, fun before after hl => h (c :: before) after (by rw [hl]; rfl)⟩
    rintro rfl
    exact h [] l rfl
  · rintro ⟨hc, hl⟩ before after h
    cases before with
    | nil =>
        obtain ⟨rfl, rfl⟩ := List.cons.inj h
        exact hc rfl
    | cons d before => exact hl before after (List.cons.inj h).2

theorem leads_map {β : Type} {f : α → β} (hf : Function.Injective f) :
    Leads (f a) (f b) (l.map f) ↔ Leads a b l := by
  induction l with
  | nil => exact iff_of_true leads_nil leads_nil
  | cons c l ih =>
      have hhead : (l.map f).head? = some (f b) ↔ l.head? = some b := by
        cases l <;> simp [hf.eq_iff]
      rw [List.map_cons, leads_cons, leads_cons, ih, hf.eq_iff, hhead]

end Neighbours

variable {last : UInt8} {bytes : Octets} {t : Text}

theorem head?_expandFrom_cr (bytes : Octets) : (expandFrom cr bytes).head? = bytes.head? := by
  cases bytes with
  | nil => rfl
  | cons b rest =>
      rw [expandFrom, if_neg fun h => h.2 rfl]
      rfl

/-- A carriage return is alone behind the expansion where it was alone before. -/
theorem leads_expandFrom (last : UInt8) (bytes : Octets) :
    Leads cr lf (expandFrom last bytes) ↔ Leads cr lf bytes := by
  have hne : lf ≠ cr := by decide
  induction bytes generalizing last with
  | nil => exact iff_of_true leads_nil leads_nil
  | cons b rest ih =>
      rw [expandFrom]
      split
      · rename_i h
        simp [h.1, leads_cons, hne, ih lf]
      · rw [leads_cons, leads_cons]
        refine and_congr (forall_congr' ?_) (ih b)
        rintro rfl
        rw [head?_expandFrom_cr]

/-- Behind the expansion the octet in front of a line feed is a carriage return, be it the one that
came before the octets. -/
theorem trails_expandFrom {before after : Octets}
    (h : expandFrom last bytes = before ++ lf :: after) :
    before.getLast? = some cr ∨ before = [] ∧ last = cr := by
  have hne : lf ≠ cr := by decide
  -- What is written for `b` may be what `before` begins with or all of it, and then `last` decides.
  induction bytes generalizing last before with
  | nil =>
      rw [expandFrom] at h
      simp at h
  | cons b rest ih =>
      by_cases hb : b = lf ∧ last ≠ cr
      · rw [expandFrom, if_pos hb] at h
        cases before with
        | nil => exact absurd (List.cons.inj h).1.symm hne
        | cons c before =>
            obtain ⟨hfirst, h⟩ := List.cons.inj h
            cases before with
            | nil =>
                rw [← hfirst]
                exact .inl rfl
            | cons d before =>
                rcases ih (List.cons.inj h).2 with hlast | ⟨-, hcr⟩
                · refine .inl ?_
                  rw [List.getLast?_cons_cons, List.getLast?_cons, hlast]
                  rfl
                · exact absurd (hb.1.symm.trans hcr) hne
      · rw [expandFrom, if_neg hb] at h
        cases before with
        | nil => exact .inr ⟨rfl, Decidable.not_not.1 fun hl => hb ⟨(List.cons.inj h).1, hl⟩⟩
        | cons c before =>
            refine .inl ?_
            rcases ih (List.cons.inj h).2 with hlast | ⟨rfl, hcr⟩
            · rw [List.getLast?_cons, hlast]
              rfl
            · rw [← (List.cons.inj h).1, hcr]
              rfl

theorem trails_expand (bytes : Octets) : Trails cr lf (expand bytes) := by
  intro before after h
  rcases trails_expandFrom h with h | ⟨-, h⟩
  · exact h
  · exact absurd h (by decide)

/-- The lines of octets on the wire. What stands behind the last CRLF is a line, too. -/
def wireLines : Octets → List Octets
  | [] => [[]]
  | [b] => [[b]]
  | b :: c :: rest =>
    if b = cr ∧ c = lf then [] :: wireLines rest
    else match wireLines (c :: rest) with
      | [] => [[b]]
      | line :: more => (b :: line) :: more

theorem wireLines_crlf (rest : Octets) : wireLines (cr :: lf :: rest) = [] :: wireLines rest := by
  rw [wireLines, if_pos ⟨rfl, rfl⟩]

/-- An octet that begins no CRLF belongs to the line behind it. -/
theorem wireLines_cons {b : UInt8} {line : Octets} {more : List Octets}
    (h : b = cr → bytes.head? ≠ some lf) (hl : wireLines bytes = line :: more) :
    wireLines (b :: bytes) = (b :: line) :: more := by
  cases bytes with
  | nil =>
      cases hl
      rfl
  | cons c rest => rw [wireLines, if_neg fun hb => h hb.1 (congrArg some hb.2), hl]

theorem wireLines_ne_nil (bytes : Octets) : wireLines bytes ≠ [] := by
  fun_cases wireLines bytes <;> simp

section Char

variable {c : Char} {rest : Text}

theorem ofLatin1_ascii (h : c.toNat < 0x80) : Charset.ofLatin1 (UInt8.ofNat c.toNat) = c := by
  rw [Charset.ofLatin1, UInt8.toNat_ofNat_of_lt' (by simp only [UInt8.size]; omega),
    Char.ofNat_toNat]

theorem lone_cr (hc : c.toNat < 0x80) (hpair : ∀ more, c = '\r' → rest = '\n' :: more → False) :
    UInt8.ofNat c.toNat = cr → rest.head? ≠ some '\n' := by
  intro hb hhead
  have hreturn : c = '\r' := by
    rw [← ofLatin1_ascii hc, hb]
    decide
  obtain ⟨more, rfl⟩ := List.head?_eq_some_iff.1 hhead
  exact hpair more hreturn rfl

/-- A character that begins no line ending belongs to the line behind it. -/
theorem wireLines_char {line : Octets} {lines : List Octets} (ht : ∀ d ∈ c :: rest, d.toNat < 0x80)
    (hline : c = '\n' → False) (hpair : ∀ more, c = '\r' → rest = '\n' :: more → False)
    (h : wireLines (expandFrom (UInt8.ofNat c.toNat) (Utf8.encode rest)) = line :: lines)
    (last : UInt8) : wireLines (expandFrom last (Utf8.encode (c :: rest))) =
      (Utf8.encodeChar c ++ line) :: lines := by
  have hc := ht c List.mem_cons_self
  have hlf : UInt8.ofNat c.toNat ≠ lf := by
    intro hb
    apply hline
    rw [← ofLatin1_ascii hc, hb]
    decide
  have hnext : UInt8.ofNat c.toNat = cr → (Utf8.encode rest).head? ≠ some lf :=
    fun hb => head?_encode_ne (lone_cr hc hpair hb)
  rw [Utf8.encode_cons, Utf8.encodeChar_ascii hc, List.singleton_append,
    expandFrom_cons_of_ne hlf]
  exact wireLines_cons (fun hb => head?_expandFrom_ne (hnext hb)) h

end Char

/-- The lines of plain text are its lines on the wire, where an empty one may follow them: the text
counts no line behind its last line ending. -/
theorem wireLines_expandFrom (ht : ∀ c ∈ t, c.toNat < 0x80)
    (h : last = cr → t.head? ≠ some '\n') : ∃ tail, (tail = [] ∨ tail = [[]]) ∧
      wireLines (expandFrom last (Utf8.encode t)) = (Text.lines t).map Utf8.encode ++ tail := by
  have hne : lf ≠ cr := by decide
  -- Along the lines of the text: a line feed, a CRLF, or a character in front of what follows.
  fun_induction Text.lines t generalizing last with
  | case1 => exact ⟨[[]], .inr rfl, rfl⟩
  | case2 rest ih =>
      obtain ⟨tail, htail, hrest⟩ := ih (fun c hc => ht c (by simp [hc])) fun hl => absurd hl hne
      have hlf : Utf8.encode ('\n' :: rest) = lf :: Utf8.encode rest := rfl
      refine ⟨tail, htail, ?_⟩
      rw [hlf, expandFrom_lf fun hl => h hl rfl, wireLines_crlf, hrest]
      rfl
  | case3 rest ih =>
      obtain ⟨tail, htail, hrest⟩ := ih (fun c hc => ht c (by simp [hc])) fun hl => absurd hl hne
      have hcrlf : Utf8.encode ('\r' :: '\n' :: rest) = cr :: lf :: Utf8.encode rest := rfl
      refine ⟨tail, htail, ?_⟩
      rw [hcrlf, expandFrom_cons_of_ne hne.symm, expandFrom_cr_lf, wireLines_crlf, hrest]
      rfl
  | case4 c rest hlf hcrlf hlines ih =>
      obtain ⟨tail, htail, hrest⟩ :=
        ih (fun c hc => ht c (by simp [hc])) (lone_cr (ht c (by simp)) hcrlf)
      have hfirst : wireLines (expandFrom (UInt8.ofNat c.toNat) (Utf8.encode rest)) = [] :: [] := by
        rcases htail with rfl | rfl
        · rw [hlines] at hrest
          exact absurd hrest (wireLines_ne_nil _)
        · rwa [hlines] at hrest
      exact ⟨[], .inl rfl, wireLines_char ht hlf hcrlf hfirst last⟩
  | case5 c rest hlf hcrlf line more hlines ih =>
      obtain ⟨tail, htail, hrest⟩ :=
        ih (fun c hc => ht c (by simp [hc])) (lone_cr (ht c (by simp)) hcrlf)
      rw [hlines] at hrest
      exact ⟨tail, htail, wireLines_char ht hlf hcrlf hrest last⟩

theorem length_wireLines {limit : Nat} (ht : ∀ c ∈ t, c.toNat < 0x80)
    (h : ∀ line ∈ Text.lines t, line.length ≤ limit) :
    ∀ line ∈ wireLines (expand (Utf8.encode t)), line.length ≤ limit := by
  have hfirst : (0 : UInt8) = cr → t.head? ≠ some '\n' := fun hl => absurd hl (by decide)
  obtain ⟨tail, htail, hlines⟩ := wireLines_expandFrom ht hfirst
  intro line hl
  rw [expand, hlines, List.mem_append, List.mem_map] at hl
  rcases hl with ⟨l, hl, rfl⟩ | hl
  · rw [Utf8.encode_ascii fun c hc => ht c (Text.mem_of_mem_lines hl hc), List.length_map]
    exact h l hl
  · rcases htail with rfl | rfl
    · cases hl
    · rw [List.mem_singleton.1 hl]
      exact Nat.zero_le _

/-- A carriage return is alone on the wire where it is alone in a text of ASCII. -/
theorem leads_expand (ht : ∀ c ∈ t, c.toNat < 0x80) :
    Leads cr lf (expand (Utf8.encode t)) ↔ Leads '\r' '\n' t := by
  have hcr : Charset.ofLatin1 cr = '\r' := by decide
  have hlf : Charset.ofLatin1 lf = '\n' := by decide
  have hmap := @leads_map _ cr lf (Utf8.encode t) _ _ ofLatin1_injective
  rw [hcr, hlf, map_ofLatin1_encode ht] at hmap
  exact (leads_expandFrom 0 _).trans hmap.symm

end LineEnding
end Epistle
