import Epistle.Mime.Resource
import Epistle.Proofs.Address.Recipient

/-!
What sources and resources keep that were made by their constructors.
-/
namespace Epistle
namespace DataSource

structure Valid (s : DataSource) : Prop where
  name_ne : s.name ≠ some []
  type_ne : s.contentType ≠ []
  type_trimmed : Text.trim s.contentType = s.contentType
  type_control : Text.hasControl s.contentType = false
  data_ne : s.data ≠ []

/-- A source that comes out of `make`, whatever name it was given afterwards. -/
def Made (s : DataSource) : Prop :=
  ∃ data contentType name, (make data contentType).map (·.withName name) = .ok s

theorem make_ok {data : Octets} {contentType : Text} {s : DataSource}
    (h : make data contentType = .ok s) :
    data ≠ [] ∧ Text.allBlank contentType = false ∧ Text.hasControl contentType = false ∧
      s = ⟨none, Text.trim contentType, data⟩ := by
  simp only [make] at h
  split at h
  · cases h
  · split at h
    · cases h
    · split at h
      · cases h
      · rename_i hdata hblank hcontrol
        cases h
        exact ⟨hdata, by simpa using hblank, by simpa using hcontrol, rfl⟩

theorem make_valid {data : Octets} {contentType : Text} {s : DataSource}
    (h : make data contentType = .ok s) : s.Valid := by
  obtain ⟨hdata, hblank, hcontrol, rfl⟩ := make_ok h
  refine ⟨by simp, Text.trim_ne_nil hblank, Text.trim_trim _, ?_, hdata⟩
  exact Text.hasControl_of_subset (Text.trim_subset _) hcontrol

theorem Valid.withName {s : DataSource} (h : s.Valid) (name : Option Text) :
    (s.withName name).Valid := by
  refine ⟨?_, h.type_ne, h.type_trimmed, h.type_control, h.data_ne⟩
  simp [DataSource.withName, Option.filter_eq_some_iff]

theorem Made.valid {s : DataSource} (h : s.Made) : s.Valid := by
  obtain ⟨data, contentType, name, h⟩ := h
  cases hm : make data contentType with
  | error e =>
      rw [hm] at h
      cases h
  | ok s' =>
      rw [hm] at h
      cases h
      exact (make_valid hm).withName name

end DataSource

namespace Resource

structure Valid (r : Resource) : Prop where
  given_ne : r.given ≠ some []
  source : r.source.Valid

/-- A resource that comes out of `make`, over a source that was made. -/
def Made (r : Resource) : Prop := ∃ name source, source.Made ∧ r = make name source

theorem make_valid {source : DataSource} (h : source.Valid) (name : Option Text) :
    (make name source).Valid := by
  refine ⟨?_, h⟩
  simp [make, Option.filter_eq_some_iff]

theorem Made.valid {r : Resource} (h : r.Made) : r.Valid := by
  obtain ⟨name, source, hs, rfl⟩ := h
  exact make_valid hs.valid name

theorem Valid.name_ne {r : Resource} (h : r.Valid) : r.name ≠ some [] := by
  have hg := h.given_ne
  have hs := h.source.name_ne
  simp only [Resource.name]
  cases hr : r.given with
  | none => simpa using hs
  | some n => simpa [hr] using hg

end Resource
end Epistle
