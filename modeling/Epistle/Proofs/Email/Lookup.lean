import Epistle.Proofs.Address.Spelling
import Epistle.Proofs.Email.Rendering
import Epistle.Proofs.Mime.Content

/-!
Looking fields up in a rendered letter. A name that belongs to the structure of a message finds
what the letter has under that name and never a custom field, and the fields of the content are
found only in the top part.
-/
namespace Epistle

theorem FieldName.isStructural_congr {a b : Text} (h : Text.sameName a b = true) :
    isStructural a = isStructural b := by
  have hlower : Text.lowerAscii a = Text.lowerAscii b := by simpa [Text.sameName] using h
  have hany : ∀ names : List Text,
      names.any (Text.sameName · a) = names.any (Text.sameName · b) := by
    intro names
    simp only [Text.sameName, hlower]
  simp only [isStructural, hlower, Text.sameName]

namespace Email

open Epistle.Field (lookup)

variable {e : Email}

/-- No custom field answers to a name of the structure. -/
theorem Sound.find?_customFields (h : e.Sound) {target : Text}
    (ht : FieldName.isStructural target = true) : Field.find? (customFields e) target = none := by
  apply Field.find?_eq_none
  rw [h.keys_customFields]
  intro key hkey
  cases hs : Text.sameName key target with
  | false => rfl
  | true =>
      have hother := (List.mem_filter.1 hkey).2
      rw [FieldName.isStructural_congr hs, ht] at hother
      cases hother

theorem Sound.find?_topFields (h : e.Sound) (mint : Mint) {target : Text}
    (hs : FieldName.isStructural target = true)
    (hv : Text.sameName "MIME-Version" target = false) :
    Field.find? (e.topFields mint) target = lookup target (e.pairs mint) := by
  have hversion : Field.find? [Field.ofText "MIME-Version" "1.0"] target = none := by
    apply Field.find?_eq_none
    intro key hkey
    rw [List.mem_singleton.1 hkey, Field.key_ofText version_valid]
    exact hv
  rw [topFields_eq, Field.find?_append, Field.find?_append, h.find?_customFields hs, hversion,
    Field.find?_ofPairs (e.apart_pairs mint).valid]
  simp

/-- A name of the head, which says nothing of the content. -/
structure IsHeadName (target : Text) : Prop where
  structural : FieldName.isStructural target = true
  version : Text.sameName "MIME-Version" target = false
  content : ∀ name ∈ Part.contentNames, Text.sameName name target = false

instance (target : Text) : Decidable (IsHeadName target) :=
  decidable_of_iff (FieldName.isStructural target = true ∧
      Text.sameName "MIME-Version" target = false ∧
      ∀ name ∈ Part.contentNames, Text.sameName name target = false)
    ⟨fun ⟨hs, hv, hc⟩ => ⟨hs, hv, hc⟩, fun h => ⟨h.structural, h.version, h.content⟩⟩

theorem Sound.find?_readBack (h : e.Sound) (mint : Mint) {target : Text} (ht : IsHeadName target) :
    Field.find? (e.readBack mint) target =
      (lookup target (e.pairs mint)).map Field.stripped := by
  rw [readBack, Field.find?_stripped, Field.find?_append,
    h.find?_topFields mint ht.structural ht.version, Part.find?_fields_eq_none ht.content,
    Option.or_none]

/-- What the letter has under a name of the head is found there. -/
theorem Sound.find?_shown (h : e.Sound) (mint : Mint) {target : Text} (ht : IsHeadName target)
    {value : Option Text} (hm : (target, value) ∈ e.pairs mint) :
    Field.find? (e.readBack mint) target =
      (value.map (Field.ofText target)).map Field.stripped := by
  rw [h.find?_readBack mint ht, Field.lookup_of_mem (e.apart_pairs mint) hm]

/-- Neither blind copies nor a place for bounces are mentioned. -/
theorem Sound.find?_unmentioned (h : e.Sound) (mint : Mint) :
    Field.find? (e.readBack mint) "Bcc" = none ∧
      Field.find? (e.readBack mint) "Return-Path" = none := by
  constructor
  · rw [h.find?_readBack mint (by decide)]
    rfl
  · rw [h.find?_readBack mint (by decide)]
    rfl

theorem Sound.messageId_own (h : e.Sound) {id : Text} (hid : e.id = some id) (mint : Mint) :
    e.messageId mint = (id, mint) := by
  have hcontrol := h.id id hid
  rw [messageId, hid, Option.filter_some, if_pos (by simp [hcontrol])]
  rfl

/-- Of a letter with an identifier of its own only the date and what describes the content depend on
the mint. -/
theorem Sound.find?_readBack_own (h : e.Sound) (hid : e.id ≠ none) {target : Text}
    (hdate : Text.sameName "Date" target = false)
    (hcontent : ∀ name ∈ Part.contentNames, Text.sameName name target = false)
    (mint mint' : Mint) :
    Field.find? (e.readBack mint) target = Field.find? (e.readBack mint') target := by
  obtain ⟨id, hid⟩ := Option.ne_none_iff_exists'.1 hid
  -- The date is the only one of the pairs that the mint has a say in.
  have hpairs : ∀ m, lookup target (e.pairs m) =
      lookup target (("Message-ID".toList, some id) :: (e.pairs mint).drop 2) := by
    intro m
    change lookup target (("Message-ID", some (e.messageId m).1) :: ("Date", some _) ::
      (e.pairs mint).drop 2) = _
    rw [h.messageId_own hid, lookup, lookup, hdate, lookup]
    rfl
  have htop : ∀ m, Field.find? (e.topFields m) target =
      (lookup target (("Message-ID".toList, some id) :: (e.pairs mint).drop 2)).or
        (Field.find? (customFields e ++ [Field.ofText "MIME-Version" "1.0"]) target) := by
    intro m
    rw [topFields_eq, Field.find?_append, Field.find?_ofPairs (e.apart_pairs m).valid, hpairs]
  simp only [readBack, Field.find?_stripped, Field.find?_append,
    Part.find?_fields_eq_none hcontent, htop]

/-- The fields of a rendered letter describe the content of its top part. -/
theorem Sound.describes (h : e.Sound) (mint : Mint) :
    Part.Describes (e.readBack mint) (e.topPart mint) := by
  have hall : ∀ target ∈ Part.contentNames, FieldName.isStructural target = true ∧
      Text.sameName "MIME-Version" target = false ∧
      ∀ name ∈ headNames, Text.sameName name target = false := by decide
  intro target ht
  obtain ⟨hstructural, hversion, hhead⟩ := hall target ht
  have hnone : lookup target (e.pairs mint) = none := Field.lookup_eq_none hhead
  rw [readBack, Field.find?_stripped, Field.find?_append,
    h.find?_topFields mint hstructural hversion, hnone, Option.none_or, ← Field.find?_stripped]

end Email
end Epistle
