import Epistle.Text.Blank

/-!
Cutting text at a character, at the first occurrence of a pattern, and into lines. A line ends at
a line feed; a carriage return in front of that line feed belongs to the ending.
-/

namespace Epistle
namespace Text

/-- The pieces between the occurrences of `sep`; there is always at least one. -/
def splitAll (sep : Char) : Text → List Text
  | [] => [[]]
  | c :: rest =>
    if c = sep then [] :: splitAll sep rest
    else match splitAll sep rest with
      | [] => [[c]]
      | piece :: more => (c :: piece) :: more

def cut? (sep : Char) : Text → Option (Text × Text)
  | [] => none
  | c :: rest =>
    if c = sep then some ([], rest)
    else (cut? sep rest).map fun (before, after) => (c :: before, after)

def cutAt? (p : Text) : Text → Option (Text × Text)
  | [] => if p = [] then some ([], []) else none
  | c :: rest =>
    if p.isPrefixOf (c :: rest) then some ([], (c :: rest).drop p.length)
    else (cutAt? p rest).map fun (before, after) => (c :: before, after)

theorem cutAt?_eq {p t before after : Text} (h : cutAt? p t = some (before, after)) :
    t = before ++ p ++ after := by
  induction t generalizing before with
  | nil =>
      simp only [cutAt?] at h
      split at h
      · simp_all
      · simp at h
  | cons c rest ih =>
      simp only [cutAt?] at h
      split at h
      · rename_i hp
        obtain ⟨tail, ht⟩ := List.isPrefixOf_iff_prefix.1 hp
        simp only [Option.some.injEq, Prod.mk.injEq] at h
        obtain ⟨rfl, rfl⟩ := h
        simp [← ht]
      · obtain ⟨⟨b, a⟩, hb, he⟩ := Option.map_eq_some_iff.1 h
        simp only [Prod.mk.injEq] at he
        obtain ⟨rfl, rfl⟩ := he
        simpa using ih hb

/-- The lines of `t`, without their endings. An ending at the very end opens no further line. -/
def lines : Text → List Text
  | [] => []
  | '\n' :: rest => [] :: lines rest
  | '\r' :: '\n' :: rest => [] :: lines rest
  | c :: rest =>
    match lines rest with
    | [] => [[c]]
    | line :: more => (c :: line) :: more

/-- The lines of `t`, each with its line feed; only the last may lack one. -/
def linesWithEnds : Text → List Text
  | [] => []
  | '\n' :: rest => ['\n'] :: linesWithEnds rest
  | c :: rest =>
    match linesWithEnds rest with
    | [] => [[c]]
    | line :: more => (c :: line) :: more

end Text
end Epistle
