import Epistle.Header.Token
import Epistle.Proofs.Header.EncodedWord

/-!
Lines that are spelled as plain text with encoded words in it are read back piece by piece. The
plain text around a word must meet it with a delimiter, and it must be ASCII, since the reader
counts octets; blanks between two words are the only thing lost.
-/
namespace Epistle
namespace Token

theorem size_ascii {t : Text} (h : ∀ c ∈ t, Text.isAscii c) : Utf8.size t = t.length := by
  rw [Utf8.size, Utf8.encode_ascii fun c hc => by simpa [Text.isAscii] using h c hc,
    List.length_map]

theorem isAscii_of_isPrintable {c : Char} (h : Text.isPrintable c) : Text.isAscii c := by
  simp only [Text.isPrintable, Bool.and_eq_true, decide_eq_true_eq] at h
  simp only [Text.isAscii, decide_eq_true_eq]
  omega

theorem isAscii_write {run : Text} {c : Char} (h : c ∈ EncodedWord.write run) : Text.isAscii c :=
  isAscii_of_isPrintable (EncodedWord.isPrintable_write h)

/-- Plain text, and words with the plain text behind each. -/
structure Spelling where
  head : Text
  words : List (Text × Text)

namespace Spelling

/-- The words as they stand on the line. -/
def tail : List (Text × Text) → Text
  | [] => []
  | (run, after) :: rest => EncodedWord.write run ++ after ++ tail rest

def line (s : Spelling) : Text := s.head ++ tail s.words

/-- A word may end in front of `t`. -/
def Starts (t : Text) : Prop := ∀ c, t.head? = some c → isDelimiter c

/-- A word may begin behind `t`. -/
def Ends (t : Text) : Prop := ∀ c, t.getLast? = some c → isDelimiter c

/-- Plain text holds no mark that could begin a word. -/
def Plain (t : Text) : Prop := Text.Lacks '=' '?' t

instance (t : Text) : Decidable (Plain t) := inferInstanceAs (Decidable (Text.Lacks _ _ t))

/-- Another word may follow `t`. -/
structure Joins (t : Text) : Prop where
  ascii : ∀ c ∈ t, Text.isAscii c
  ends : Ends t

def WordsValid : List (Text × Text) → Prop
  | [] => True
  | (_, after) :: rest =>
    Plain after ∧ Starts after ∧ (rest ≠ [] → after ≠ [] ∧ Joins after) ∧ WordsValid rest

structure Valid (s : Spelling) : Prop where
  plain : Plain s.head
  joins : s.words ≠ [] → Joins s.head
  words : WordsValid s.words

/-- What is left of the text behind a word: blanks only separate it from the next one. -/
def kept (after : Text) : Text := if Text.allBlank after then [] else after

/-- What the line says. -/
def text (s : Spelling) : Text := s.head ++ s.words.flatMap fun (run, after) => run ++ kept after

def tokensOf : List (Text × Text) → List Token
  | [] => []
  | (run, after) :: rest => word run :: blankOrText after :: tokensOf rest

end Spelling

open Spelling

theorem isEdge_append {pre rest : Text} (h : Starts rest) : isEdge (pre ++ rest) pre.length := by
  rw [isEdge, List.drop_left]
  cases rest with
  | nil => rfl
  | cons c rest => exact h c rfl

theorem isEdge_before {pre rest : Text} (hne : pre ≠ []) (h : Ends pre) :
    isEdge (pre ++ rest) (pre.length - 1) := by
  obtain ⟨front, c, rfl⟩ := List.eq_nil_or_concat pre |>.resolve_left hne
  have hc : isDelimiter c := h c (by simp)
  have hlength : (front ++ [c]).length - 1 = front.length := by simp
  rw [List.concat_eq_append] at *
  rw [hlength, isEdge, List.append_assoc, List.drop_left]
  exact hc

theorem ofLineFrom_plain [Charsets] {line : Text} {offset : Nat} {rest : Text} (h : Plain rest) :
    ofLineFrom line offset rest = [blankOrText rest] := by
  have hcut : Text.cutAt? "=?".toList rest = none := Text.cutAt?_of_lacks h
  rw [ofLineFrom.eq_def]
  split
  · rfl
  · rename_i hsome
    rw [hcut] at hsome
    cases hsome

/-- A word ends at the first end mark that an edge follows. -/
theorem wordEnd?_found {line rest before after : Text} {offset : Nat}
    (hcut : Text.cutAt? "?=".toList rest = some (before, after))
    (h : isEdge line (offset + Utf8.size before + 2)) :
    wordEnd? line offset rest = some (before, after) := by
  rw [wordEnd?.eq_def]
  split
  · rename_i hnone
    rw [hcut] at hnone
    cases hnone
  · rename_i hsome
    rw [hcut] at hsome
    cases hsome
    rw [if_pos h]

theorem wordEnd?_inside {line rest : Text} {offset : Nat} (run : Text)
    (h : isEdge line (offset + Utf8.size (EncodedWord.inside run) + 2)) :
    wordEnd? line offset (EncodedWord.inside run ++ "?=".toList ++ rest) =
      some (EncodedWord.inside run, rest) := by
  refine wordEnd?_found ?_ h
  rw [List.append_assoc]
  exact Text.cutAt?_append (by decide) rest (EncodedWord.lacks_inside run)

theorem isAscii_inside {run : Text} {c : Char} (h : c ∈ EncodedWord.inside run) :
    Text.isAscii c := by
  have hword : c ∈ EncodedWord.write run := by
    rw [EncodedWord.write_eq]
    simp [h]
  exact isAscii_write hword

/-- A word that can be decoded is read where it is found. -/
theorem ofLineFrom_found [Charsets] {line rest before after inner behind run : Text} {offset : Nat}
    (hedge : ¬ (offset + Utf8.size before ≠ 0 ∧ ¬ isEdge line (offset + Utf8.size before - 1)))
    (hcut : Text.cutAt? "=?".toList rest = some (before, after))
    (hend : wordEnd? line (offset + Utf8.size before + 2) after = some (inner, behind))
    (hdecode : EncodedWord.decode? inner = some run) :
    ofLineFrom line offset rest = blankOrText before :: word run ::
      ofLineFrom line (offset + Utf8.size before + 2 + Utf8.size inner + 2) behind := by
  rw [ofLineFrom.eq_def]
  split
  · rename_i hnone
    rw [hcut] at hnone
    cases hnone
  · rename_i hsome
    rw [hcut] at hsome
    cases hsome
    simp only [if_neg hedge]
    split
    · rename_i hnone
      rw [hend] at hnone
      cases hnone
    · rename_i hsome
      rw [hend] at hsome
      cases hsome
      simp only [hdecode]

/-- One word is read where it stands, and reading goes on behind it. -/
theorem ofLineFrom_word [Charsets] {pre head rest : Text} (run : Text)
    (hascii : ∀ c ∈ pre ++ head, Text.isAscii c) (hplain : Plain head)
    (hends : Ends (pre ++ head)) (hstarts : Starts rest) :
    ofLineFrom (pre ++ (head ++ EncodedWord.write run ++ rest)) pre.length
        (head ++ EncodedWord.write run ++ rest) =
      blankOrText head :: word run ::
        ofLineFrom (pre ++ head ++ EncodedWord.write run ++ rest)
          (pre ++ head ++ EncodedWord.write run).length rest := by
  -- Positions count octets, and these are the characters in front because they are ASCII.
  have hline : pre ++ (head ++ EncodedWord.write run ++ rest) =
      pre ++ head ++ EncodedWord.write run ++ rest := by simp
  have hword : head ++ EncodedWord.write run ++ rest =
      head ++ '=' :: '?' :: (EncodedWord.inside run ++ "?=".toList ++ rest) := by
    rw [EncodedWord.write_eq]
    simp
  have hcut : Text.cutAt? "=?".toList (head ++ EncodedWord.write run ++ rest) =
      some (head, EncodedWord.inside run ++ "?=".toList ++ rest) := by
    rw [hword]
    exact Text.cutAt?_append (by decide) _ hplain
  have hhead : ∀ c ∈ head, Text.isAscii c := fun c hc => hascii c (List.mem_append_right _ hc)
  have hstart : pre.length + Utf8.size head = (pre ++ head).length := by
    rw [size_ascii hhead, List.length_append]
  have hinside : Utf8.size (EncodedWord.inside run) = (EncodedWord.inside run).length :=
    size_ascii fun _ hc => isAscii_inside hc
  have hpast : (pre ++ head).length + 2 + Utf8.size (EncodedWord.inside run) + 2 =
      (pre ++ head ++ EncodedWord.write run).length := by
    rw [hinside, EncodedWord.write_eq]
    simp only [List.length_append]
    change _ = _ + (2 + _ + 2)
    omega
  have hedge : ¬ ((pre ++ head).length ≠ 0 ∧
      ¬ isEdge (pre ++ (head ++ EncodedWord.write run ++ rest)) ((pre ++ head).length - 1)) := by
    rintro ⟨hne, hno⟩
    apply hno
    rw [← List.append_assoc, ← List.append_assoc, List.append_assoc (pre ++ head)]
    exact isEdge_before (fun hnil => hne (by rw [hnil]; rfl)) hends
  have hend : wordEnd? (pre ++ (head ++ EncodedWord.write run ++ rest)) ((pre ++ head).length + 2)
      (EncodedWord.inside run ++ "?=".toList ++ rest) = some (EncodedWord.inside run, rest) := by
    apply wordEnd?_inside
    rw [hpast, hline]
    exact isEdge_append hstarts
  have hfound := ofLineFrom_found (by rwa [hstart]) hcut (by rwa [hstart])
    (EncodedWord.decode?_inside run)
  rw [hfound, hstart, hpast, hline]

/-- A spelled line is read piece by piece. -/
theorem ofLineFrom_tail [Charsets] {pre head : Text} {words : List (Text × Text)}
    (hjoins : words ≠ [] → Joins (pre ++ head)) (hplain : Plain head) (hwords : WordsValid words) :
    ofLineFrom (pre ++ (head ++ tail words)) pre.length (head ++ tail words) =
      blankOrText head :: tokensOf words := by
  -- `pre` grows by each word and what follows it, and its end decides whether a word may begin.
  induction words generalizing pre head with
  | nil =>
      rw [tail, List.append_nil]
      exact ofLineFrom_plain hplain
  | cons p rest ih =>
      obtain ⟨run, after⟩ := p
      obtain ⟨hafter, hstarts, hnext, hrest⟩ := hwords
      have hfront : Joins (pre ++ head) := hjoins (by simp)
      have hword : head ++ tail ((run, after) :: rest) =
          head ++ EncodedWord.write run ++ (after ++ tail rest) := by
        simp [tail]
      have hstarts' : Starts (after ++ tail rest) := by
        cases after with
        | cons c after => exact hstarts
        | nil =>
            cases rest with
            | nil => exact hstarts
            | cons q rest => exact absurd rfl (hnext (by simp)).1
      have hjoins' : rest ≠ [] → Joins (pre ++ head ++ EncodedWord.write run ++ after) := by
        intro hne
        obtain ⟨hafter_ne, hafter_joins⟩ := hnext hne
        refine ⟨?_, ?_⟩
        · refine List.forall_mem_append.2 ⟨?_, hafter_joins.ascii⟩
          exact List.forall_mem_append.2 ⟨hfront.ascii, fun _ hc => isAscii_write hc⟩
        · intro c hc
          obtain ⟨d, hd⟩ := Option.ne_none_iff_exists'.1
            (mt List.getLast?_eq_none_iff.1 hafter_ne)
          rw [List.getLast?_append, hd] at hc
          exact hafter_joins.ends c (hd.trans hc)
      rw [hword, ofLineFrom_word run hfront.ascii hplain hfront.ends hstarts',
        ih hjoins' hafter hrest]
      rfl

/-- The tokens of the words, blanks between two of them dropped. -/
def settled : List (Text × Text) → List Token
  | [] => []
  | (run, after) :: rest =>
    word run :: (if Text.allBlank after then [] else [text after]) ++ settled rest

theorem settle_tokensOf (words : List (Text × Text)) :
    settle .none (tokensOf words) = settled words ∧
      ∀ b, settle (.blanks b) (tokensOf words) = settled words := by
  induction words with
  | nil => exact ⟨rfl, fun _ => rfl⟩
  | cons p rest ih =>
      obtain ⟨run, after⟩ := p
      have hafter : settle .afterWord (blankOrText after :: tokensOf rest) =
          (if Text.allBlank after then [] else [text after]) ++ settled rest := by
        rw [blankOrText]
        split
        · exact ih.2 after
        · exact congrArg (text after :: ·) ih.1
      exact ⟨congrArg (word run :: ·) hafter, fun _ => congrArg (word run :: ·) hafter⟩

/-- A value on one line has the tokens of the line. -/
theorem ofValue_oneLine [Charsets] {value : Text} (hline : Text.OneLine value) (hne : value ≠ [])
    (hstart : ∀ c, value.head? = some c → Text.isBlank c = false) :
    ofValue value = settle .none (ofLine value) := by
  rw [ofValue, Text.lines_of_oneLine hline hne, ofLines, Text.trimStart_eq_self hstart]

theorem ofValue_plain [Charsets] {value : Text} (h : Plain value) (hline : Text.OneLine value)
    (hne : value ≠ []) (hstart : ∀ c, value.head? = some c → Text.isBlank c = false) :
    ofValue value = [blankOrText value] := by
  rw [ofValue_oneLine hline hne hstart, ofLine, ofLineFrom_plain h, blankOrText]
  split <;> rfl

/-- A line with one place that reads as a word, wherever it came from. -/
theorem ofLine_found [Charsets] {line before after inner behind run : Text}
    (hcut : Text.cutAt? "=?".toList line = some (before, after))
    (hedge : Utf8.size before = 0 ∨ isEdge line (Utf8.size before - 1))
    (hend : Text.cutAt? "?=".toList after = some (inner, behind))
    (hpast : isEdge line (Utf8.size before + 2 + Utf8.size inner + 2))
    (hdecode : EncodedWord.decode? inner = some run) (hplain : Plain behind) :
    ofLine line = [blankOrText before, word run, blankOrText behind] := by
  have hopen : ¬ (0 + Utf8.size before ≠ 0 ∧ ¬ isEdge line (0 + Utf8.size before - 1)) := by
    rw [Nat.zero_add]
    exact fun h => hedge.elim h.1 h.2
  have hword : wordEnd? line (0 + Utf8.size before + 2) after = some (inner, behind) :=
    wordEnd?_found hend (by rwa [Nat.zero_add])
  rw [ofLine, ofLineFrom_found hopen hcut hword hdecode, ofLineFrom_plain hplain]

theorem ofValue_found [Charsets] {value before after inner behind run : Text}
    (hline : Text.OneLine value) (hne : value ≠ [])
    (hstart : ∀ c, value.head? = some c → Text.isBlank c = false)
    (hcut : Text.cutAt? "=?".toList value = some (before, after))
    (hedge : Utf8.size before = 0 ∨ isEdge value (Utf8.size before - 1))
    (hend : Text.cutAt? "?=".toList after = some (inner, behind))
    (hpast : isEdge value (Utf8.size before + 2 + Utf8.size inner + 2))
    (hdecode : EncodedWord.decode? inner = some run) (hplain : Plain behind) :
    ofValue value = settle .none [blankOrText before, word run, blankOrText behind] := by
  rw [ofValue_oneLine hline hne hstart, ofLine_found hcut hedge hend hpast hdecode hplain]

theorem ofValue_line [Charsets] {s : Spelling} (h : s.Valid) (hline : Text.OneLine s.line)
    (hne : s.line ≠ []) (hstart : ∀ c, s.line.head? = some c → Text.isBlank c = false) :
    ofValue s.line = blankOrText s.head :: settled s.words := by
  have htokens : ofLine s.line = blankOrText s.head :: tokensOf s.words :=
    @ofLineFrom_tail _ [] s.head s.words h.joins h.plain h.words
  rw [ofValue_oneLine hline hne hstart, htokens, blankOrText]
  split
  · exact congrArg (blank s.head :: ·) (settle_tokensOf s.words).1
  · exact congrArg (Token.text s.head :: ·) (settle_tokensOf s.words).1

theorem content_settled (words : List (Text × Text)) :
    (settled words).flatMap content = words.flatMap fun (run, after) => run ++ kept after := by
  induction words with
  | nil => rfl
  | cons p rest ih =>
      obtain ⟨run, after⟩ := p
      rw [settled, List.flatMap_append, ih, List.flatMap_cons, List.flatMap_cons]
      simp only [kept]
      split <;> simp [content]

theorem content_blankOrText (t : Text) : (blankOrText t).content = t := by
  rw [blankOrText]
  split <;> rfl

/-- A spelled line says what it was spelled from. -/
theorem decodeValue_line [Charsets] {s : Spelling} (h : s.Valid) (hline : Text.OneLine s.line)
    (hstart : ∀ c, s.line.head? = some c → Text.isBlank c = false) :
    decodeValue s.line = s.text := by
  by_cases hne : s.line = []
  · have hhead : s.head = [] := (List.append_eq_nil_iff.1 hne).1
    have hwords : s.words = [] := by
      have htail := (List.append_eq_nil_iff.1 hne).2
      cases hw : s.words with
      | nil => rfl
      | cons p rest =>
          rw [hw, tail, EncodedWord.write_eq] at htail
          simp at htail
    rw [hne, Spelling.text, hhead, hwords]
    rfl
  · rw [decodeValue, ofValue_line h hline hne hstart, List.flatMap_cons, content_blankOrText,
      content_settled, Spelling.text]

/-- What is read of a line begins with the plain text that the line begins with. -/
theorem ofLine_front [Charsets] {front : Text} (h : Plain front) (hlast : front.getLast? ≠ some '=')
    (rest : Text) :
    ∃ more tokens, ofLine (front ++ rest) = blankOrText (front ++ more) :: tokens ∨
      ofLine (front ++ rest) = text (front ++ more) :: tokens := by
  have hcut : Text.cutAt? "=?".toList (front ++ rest) =
      (Text.cutAt? "=?".toList rest).map fun (before, after) => (front ++ before, after) :=
    Text.cutAt?_front rest h hlast
  rw [ofLine, ofLineFrom.eq_def]
  split
  · exact ⟨rest, [], .inl rfl⟩
  · rename_i before after hsome
    rw [hcut] at hsome
    obtain ⟨⟨before, after⟩, -, heq⟩ := Option.map_eq_some_iff.1 hsome
    cases heq
    simp only
    split
    · exact ⟨before ++ "=?".toList, _, .inr (by rw [List.append_assoc])⟩
    · exact ⟨before, _, .inl rfl⟩

theorem decodeValue_front [Charsets] {front rest : Text} (h : Plain front)
    (hlast : front.getLast? ≠ some '=') (hne : front ≠ []) (hline : Text.OneLine (front ++ rest))
    (hstart : ∀ c, front.head? = some c → Text.isBlank c = false) :
    ∃ more, decodeValue (front ++ rest) = front ++ more := by
  obtain ⟨c, front, rfl⟩ := List.exists_cons_of_ne_nil hne
  have hc : Text.isBlank c = false := hstart c rfl
  have htext : ∀ more, blankOrText (c :: front ++ more) = text (c :: front ++ more) :=
    fun more => if_neg (by simp [Text.allBlank, hc])
  obtain ⟨more, tokens, htokens⟩ := ofLine_front h hlast rest
  rw [htext, or_self] at htokens
  have hvalue := ofValue_oneLine hline (by simp) fun d hd => hstart d hd
  have hsettle : settle .none (text (c :: front ++ more) :: tokens) =
      text (c :: front ++ more) :: settle .none tokens := rfl
  refine ⟨more ++ (settle .none tokens).flatMap content, ?_⟩
  rw [decodeValue, hvalue, htokens, hsettle, List.flatMap_cons, content, List.append_assoc]

theorem decodeValue_plain [Charsets] {t : Text} (h : Plain t) (hline : Text.OneLine t)
    (hstart : ∀ c, t.head? = some c → Text.isBlank c = false) : decodeValue t = t := by
  have hvalid : Spelling.Valid ⟨t, []⟩ := ⟨h, fun hne => absurd rfl hne, trivial⟩
  have hself : Spelling.line ⟨t, []⟩ = t := List.append_nil t
  have hdecode := decodeValue_line hvalid (by rwa [hself]) (by rwa [hself])
  rw [hself] at hdecode
  rw [hdecode, Spelling.text, List.flatMap_nil, List.append_nil]

namespace Spelling

/-- One word for each run, `after` behind the last, and then `rest`. -/
def ofRuns (after : Text) (rest : List (Text × Text)) : List Text → List (Text × Text)
  | [] => rest
  | [run] => (run, after) :: rest
  | run :: next :: more => (run, [' ']) :: ofRuns after rest (next :: more)

variable {after : Text} {rest : List (Text × Text)} {runs : List Text}

theorem tail_ofRuns (hne : runs ≠ []) : tail (ofRuns after rest runs) =
    Text.joinWith [' '] (runs.map EncodedWord.write) ++ after ++ tail rest := by
  induction runs with
  | nil => exact absurd rfl hne
  | cons run runs ih =>
      cases runs with
      | nil => rfl
      | cons next more =>
          rw [List.map_cons, Text.joinWith_cons _ _ _ (by simp), ofRuns, tail, ih (by simp)]
          simp

theorem wordsValid_ofRuns (hplain : Plain after) (hstarts : Starts after)
    (hjoins : rest ≠ [] → after ≠ [] ∧ Joins after) (hrest : WordsValid rest) :
    WordsValid (ofRuns after rest runs) := by
  induction runs with
  | nil => exact hrest
  | cons run runs ih =>
      cases runs with
      | nil => exact ⟨hplain, hstarts, hjoins, hrest⟩
      | cons next more =>
          have hblank : Starts [' '] := by
            rintro c ⟨⟩
            decide
          have hblank' : Joins [' '] := by
            refine ⟨by decide, ?_⟩
            rintro c ⟨⟩
            decide
          exact ⟨trivial, hblank, fun _ => ⟨by simp, hblank'⟩, ih⟩

/-- What does not see the blanks between words sees one word after the other. -/
theorem flatMap_ofRuns {α : Type} {f : Text × Text → List α} {g k : Text → List α}
    (hf : ∀ run t, f (run, t) = g run ++ k t) (hk : k [' '] = []) (hne : runs ≠ []) :
    (ofRuns after rest runs).flatMap f = runs.flatMap g ++ k after ++ rest.flatMap f := by
  induction runs with
  | nil => exact absurd rfl hne
  | cons run runs ih =>
      cases runs with
      | nil => simp [ofRuns, hf]
      | cons next more =>
          rw [ofRuns, List.flatMap_cons, hf, hk, ih (by simp), List.flatMap_cons]
          simp

theorem kept_blank : kept [' '] = [] := by decide

end Spelling

/-- The header form of a text is read back as the text, unless it is printable and looks like a
word or begins with a blank. -/
theorem decodeValue_encode [Charsets] {t : Text} (hplain : t.all Text.isPrintable → Plain t)
    (hstart : ∀ c, t.head? = some c → Text.isBlank c = false) :
    decodeValue (EncodedWord.encode t) = t := by
  have hline := EncodedWord.oneLine_encode t
  by_cases hp : t.all Text.isPrintable
  · have hself : EncodedWord.encode t = t := by rw [EncodedWord.encode, if_pos hp]
    rw [hself] at hline ⊢
    exact decodeValue_plain (hplain hp) hline hstart
  · have hruns := EncodedWord.runsFrom_ne_nil [] t
    have hself : Spelling.line ⟨[], ofRuns [] [] (EncodedWord.runsFrom [] t)⟩ =
        EncodedWord.encode t := by
      rw [EncodedWord.encode, if_neg hp, Spelling.line, tail_ofRuns hruns]
      simp [tail]
    have hvalid : Spelling.Valid ⟨[], ofRuns [] [] (EncodedWord.runsFrom [] t)⟩ := by
      have hends : Ends [] := by simp [Ends]
      refine ⟨trivial, fun _ => ⟨by simp, hends⟩, ?_⟩
      exact wordsValid_ofRuns trivial (by simp [Starts]) (fun h => absurd rfl h) trivial
    have hfirst := EncodedWord.isBlank_head_encode hstart
    have hdecode := decodeValue_line hvalid (by rwa [hself]) (by rwa [hself])
    rw [hself] at hdecode
    rw [hdecode, Spelling.text, flatMap_ofRuns (fun _ _ => rfl) kept_blank hruns]
    have hflatten := EncodedWord.flatten_runsFrom [] t
    simpa [kept, List.flatMap_id'] using hflatten

end Token
end Epistle
