import Epistle.Header.EncodedWord
import Epistle.Header.Field
import Epistle.Text.Split

/-!
The tokens of a header value: plain text, blanks, decoded words and the folds between lines.
A word counts only where blanks, brackets, quotes, commas or the ends of the line surround it.
Blanks between two neighbouring words separate them and are no part of the text; any other fold
reads as one space.
-/

namespace Epistle

inductive Token where
  | text (t : Text)
  | blank (t : Text)
  | fold
  | word (t : Text)
  deriving DecidableEq, Repr

namespace Token

def isDelimiter (c : Char) : Bool :=
  Text.isBlank c || c == '"' || c == '(' || c == ')' || c == '<' || c == '>' || c == ','

/-- A word may end or begin at the character number `i` of the line, or past its end. -/
def isEdge (line : Text) (i : Nat) : Bool :=
  match line.drop i with
  | [] => true
  | c :: _ => isDelimiter c

def blankOrText (t : Text) : Token := if Text.allBlank t then blank t else text t

/-- The inside of the word whose beginning stands `offset` octets into the line, and the line
after the word. An end mark counts only if an edge follows it. -/
def wordEnd? (line : Text) (offset : Nat) (rest : Text) : Option (Text × Text) :=
  match _h : Text.cutAt? "?=".toList rest with
  | none => none
  | some (before, after) =>
    let past := offset + Utf8.size before + 2
    if isEdge line past then some (before, after)
    else (wordEnd? line past after).map fun (inner, tail) => (before ++ "?=".toList ++ inner, tail)
termination_by rest.length
decreasing_by have := congrArg List.length (Text.cutAt?_eq _h); simp at this; omega

theorem wordEnd?_eq {line : Text} {offset : Nat} {rest inner tail : Text}
    (h : wordEnd? line offset rest = some (inner, tail)) : rest = inner ++ "?=".toList ++ tail := by
  fun_induction wordEnd? line offset rest generalizing inner tail with
  | case1 => simp at h
  | case2 =>
      rename_i hcut _ _
      simp only [Option.some.injEq, Prod.mk.injEq] at h
      rw [Text.cutAt?_eq hcut, h.1, h.2]
  | case3 =>
      rename_i hcut _ _ ih
      obtain ⟨⟨i, t⟩, hi, he⟩ := Option.map_eq_some_iff.1 h
      simp only [Prod.mk.injEq] at he
      obtain ⟨rfl, rfl⟩ := he
      rw [Text.cutAt?_eq hcut, ih hi]
      simp

variable [Charsets]

/-- The tokens of `rest`, which stands `offset` octets into the line. -/
def ofLineFrom (line : Text) (offset : Nat) (rest : Text) : List Token :=
  match _h : Text.cutAt? "=?".toList rest with
  | none => [blankOrText rest]
  | some (before, after) =>
    let start := offset + Utf8.size before
    if start ≠ 0 ∧ ¬ isEdge line (start - 1) then
      text (before ++ "=?".toList) :: ofLineFrom line (start + 2) after
    else
      blankOrText before ::
        match _w : wordEnd? line (start + 2) after with
        | none => text "=?".toList :: ofLineFrom line (start + 2) after
        | some (inner, tail) =>
          let token := match EncodedWord.decode? inner with
            | some t => word t
            | none => text ("=?".toList ++ inner ++ "?=".toList)
          token :: ofLineFrom line (start + 2 + Utf8.size inner + 2) tail
termination_by rest.length
decreasing_by
  all_goals
    have hc := congrArg List.length (Text.cutAt?_eq _h)
    simp at hc
  · omega
  · omega
  · have hw := congrArg List.length (wordEnd?_eq _w)
    simp at hw
    omega

def ofLine (line : Text) : List Token := ofLineFrom line 0 line

/-- The tokens of a value, a fold between each line and the next. Blanks that begin a line belong
to the fold. -/
def ofLines : List Text → List Token
  | [] => []
  | [line] => ofLine (Text.trimStart line)
  | line :: rest => ofLine (Text.trimStart line) ++ fold :: ofLines rest

/-- What may still separate two words: nothing yet, or blanks that count unless a word follows. -/
inductive Pause where
  | none
  | afterWord
  | blanks (t : Text)
  | folded (t : Text)
  deriving DecidableEq, Repr

/-- Drops the blanks between neighbouring words and turns every other fold into a space. -/
def settle (pause : Pause) : List Token → List Token
  | [] => []
  | text t :: rest =>
    match pause with
    | .blanks b => blank b :: text t :: settle .none rest
    | .folded b => blank b :: text t :: settle .none rest
    | _ => text t :: settle .none rest
  | blank b :: rest =>
    match pause with
    | .afterWord => settle (.blanks b) rest
    | _ => blank b :: settle .none rest
  | fold :: rest =>
    match pause with
    | .blanks b => settle (.folded (b ++ [' '])) rest
    | .afterWord => settle (.folded [' ']) rest
    | _ => blank [' '] :: settle .none rest
  | word t :: rest => word t :: settle .afterWord rest

def ofValue (value : Text) : List Token := settle .none (ofLines (Text.lines value))

def content : Token → Text
  | text t => t
  | blank t => t
  | fold => []
  | word t => t

def decodeValue (value : Text) : Text := (ofValue value).flatMap content

end Token

namespace Field

variable [Charsets]

def tokens (f : Field) : List Token := Token.ofValue f.raw

def text (f : Field) : Text := Token.decodeValue f.raw

def textOf? (fs : List Field) (name : Text) : Option Text := (find? fs name).map text

end Field
end Epistle
