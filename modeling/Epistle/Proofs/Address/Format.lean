import Epistle.Address.Format
import Epistle.Proofs.Address.Recipient
import Epistle.Proofs.Header.EncodedWord

/-!
Recipients in address fields. However a recipient is written, it stands on one line and is not
empty, so a list of recipients is written as nothing only if there is none.
-/
namespace Epistle

theorem Quoted.mem_escape {t : Text} {c : Char} (h : c ∈ Quoted.escape t) : c ∈ t ∨ c = '\\' := by
  obtain ⟨d, hd, hcd⟩ := List.mem_flatMap.1 h
  simp only [Quoted.escapeChar] at hcd
  split at hcd
  · rcases List.mem_cons.1 hcd with rfl | hcd
    · exact .inr rfl
    · rw [List.mem_singleton.1 hcd]
      exact .inl hd
  · rw [List.mem_singleton.1 hcd]
    exact .inl hd

theorem Quoted.oneLine_escape {t : Text} (h : Text.OneLine t) :
    Text.OneLine (Quoted.escape t) := by
  intro c hc
  rcases mem_escape hc with hc | rfl
  · exact h c hc
  · decide

theorem Quoted.hasControl_escape {t : Text} (h : Text.hasControl t = false) :
    Text.hasControl (escape t) = false := by
  rw [Text.hasControl_eq_false] at h ⊢
  intro c hc
  rcases mem_escape hc with hc | rfl
  · exact h c hc
  · decide

namespace Recipient

/-- How a display name is written. -/
def shownName (name : Text) : Text :=
  if name.all Text.isPrintable then ['"'] ++ Quoted.escape name ++ ['"']
  else EncodedWord.encode name

theorem format_bare {r : Recipient} (h : r.name = none) : r.format = r.address := by
  simp only [format, h]

theorem format_named {r : Recipient} {name : Text} (h : r.name = some name) :
    r.format = shownName name ++ " <".toList ++ r.address ++ ['>'] := by
  simp only [format, h, shownName]

theorem oneLine_shownName {name : Text} (h : Text.hasControl name = false) :
    Text.OneLine (shownName name) := by
  rw [shownName]
  split
  · have hquote : Text.OneLine ['"'] := by decide
    simp only [Text.oneLine_append]
    exact ⟨⟨hquote, Quoted.oneLine_escape (Text.oneLine_of_hasControl h)⟩, hquote⟩
  · exact EncodedWord.oneLine_encode name

theorem Valid.oneLine_format {r : Recipient} (h : r.Valid) : Text.OneLine r.format := by
  have haddress := Text.oneLine_of_hasControl h.address_control
  cases hn : r.name with
  | none =>
      rw [format_bare hn]
      exact haddress
  | some name =>
      have hopen : Text.OneLine " <".toList := by decide
      have hclose : Text.OneLine ['>'] := by decide
      rw [format_named hn]
      simp only [Text.oneLine_append]
      exact ⟨⟨⟨oneLine_shownName (h.name_control name hn), hopen⟩, haddress⟩, hclose⟩

theorem Valid.format_ne_nil {r : Recipient} (h : r.Valid) : r.format ≠ [] := by
  cases hn : r.name with
  | none =>
      rw [format_bare hn]
      exact h.address_ne
  | some name =>
      rw [format_named hn]
      simp

theorem oneLine_formatAll {rs : List Recipient} (h : ∀ r ∈ rs, r.Valid) :
    Text.OneLine (formatAll rs) := by
  apply Text.oneLine_joinWith
  · decide
  · intro t ht
    obtain ⟨r, hr, rfl⟩ := List.mem_map.1 ht
    exact (h r hr).oneLine_format

theorem formatAll_eq_nil {rs : List Recipient} (h : ∀ r ∈ rs, r.Valid) :
    formatAll rs = [] ↔ rs = [] := by
  constructor
  · intro hnil
    cases rs with
    | nil => rfl
    | cons r rs =>
        have hne := (h r (by simp)).format_ne_nil
        cases rs with
        | nil => exact absurd hnil hne
        | cons s rs =>
            have hjoin : formatAll (r :: s :: rs) =
                r.format ++ ", ".toList ++ formatAll (s :: rs) :=
              rfl
            rw [hjoin] at hnil
            simp at hnil
  · rintro rfl
    rfl

end Recipient
end Epistle
