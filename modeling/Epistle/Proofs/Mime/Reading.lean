import Epistle.Proofs.Checked
import Epistle.Proofs.Mime.Framing
import Epistle.Proofs.Mime.Leaf
import Mathlib.Data.List.Forall2

/-!
Entities are read back from the parts they were written from: a part that frames its own parts is
read as a tree whose leaves are its pieces in document order, however deep its containers go.
-/
namespace Epistle

namespace Entity

variable [Charsets] {inDigest : Bool} {bytes body : Octets} {fs : List Field} {entity : Entity}

theorem read_leaf (h : Field.readBlock bytes = .ok (fs, body))
    (hleaf : (MediaType.ofFields inDigest fs).isMultipart = false) :
    read inDigest bytes = .ok (.leaf ⟨fs, MediaType.ofFields inDigest fs, body⟩) := by
  rw [read.eq_def]
  split
  · rename_i he
    rw [h] at he
    cases he
  · rename_i he
    rw [h] at he
    cases he
    simp only [hleaf]
    rfl

theorem read_multipart (h : Field.readBlock bytes = .ok (fs, body))
    (hmulti : (MediaType.ofFields inDigest fs).isMultipart = true) {parts : List Entity}
    (hparts : (partsOf (MediaType.ofFields inDigest fs) body).mapM
      (read (isDigest (MediaType.ofFields inDigest fs))) = .ok parts) :
    read inDigest bytes = .ok (.multipart fs (MediaType.ofFields inDigest fs) parts) := by
  rw [read.eq_def]
  split
  · rename_i he
    rw [h] at he
    cases he
  · rename_i he
    rw [h] at he
    cases he
    simp only [hmulti, List.mapM_subtype, List.unattach_attach, if_true]
    rw [hparts]
    rfl

theorem fields_of_read (h : Field.readBlock bytes = .ok (fs, body))
    (hread : read inDigest bytes = .ok entity) : entity.fields = fs := by
  rw [read.eq_def] at hread
  split at hread
  · cases hread
  · rename_i he
    rw [h] at he
    cases he
    simp only at hread
    split at hread
    · obtain ⟨parts, -, hparts⟩ := Checked.bind_ok hread
      cases hparts
      rfl
    · cases hread
      rfl

omit [Charsets] in
theorem mem_leavesAll {parts : List Entity} {l : Leaf} (h : l ∈ leavesAll parts) :
    ∃ part ∈ parts, l ∈ part.leaves := by
  induction parts with
  | nil => cases h
  | cons part parts ih =>
      rcases List.mem_append.1 h with h | h
      · exact ⟨part, by simp, h⟩
      · obtain ⟨p, hp, hl⟩ := ih h
        exact ⟨p, by simp [hp], hl⟩

/-- No leaf is of a type that has parts. -/
theorem single_of_read {inDigest : Bool} {bytes : Octets} {entity : Entity}
    (h : read inDigest bytes = .ok entity) :
    ∀ l ∈ entity.leaves, "multipart/".toList.isPrefixOf l.typeName = false := by
  fun_induction read inDigest bytes generalizing entity with
  | case1 => cases h
  | case2 inDigest bytes fs body hb type hmulti =>
      rename_i ih
      obtain ⟨parts, hparts, h⟩ := Checked.bind_ok h
      cases h
      intro l hl
      obtain ⟨part, hpart, hl⟩ := mem_leavesAll hl
      obtain ⟨⟨octets, hmem⟩, -, hread⟩ := Checked.mem_mapM hparts hpart
      exact ih octets hmem hread l hl
  | case3 inDigest bytes fs body hb type =>
      rename_i hleaf
      cases h
      intro l hl
      rw [List.mem_singleton.1 hl, Leaf.typeName, MediaType.lowerAscii_name]
      exact Bool.eq_false_iff.2 hleaf

end Entity

namespace Part

open Delimiter (dash)

variable [Charsets]

/-- A piece that no reader takes for a container. -/
def Piece.Single (p : Piece) : Prop :=
  ∀ fs, Describes fs p.part → (MediaType.ofFields false fs).isMultipart = false

/-- The leaves are what the pieces became, one for one. -/
def ShowsAll (leaves : List Leaf) (pieces : List Piece) : Prop :=
  List.Forall₂ (fun l p => Shows l p.part) leaves pieces

theorem read_piece {p : Piece} (hs : p.Single) {bytes : Octets} {fs : List Field}
    (hb : Field.readBlock bytes = .ok (fs, p.part.body)) (hfs : Describes fs p.part) :
    ∃ entity, Entity.read false bytes = .ok entity ∧ ShowsAll entity.leaves [p] :=
  ⟨_, Entity.read_leaf hb (hs fs hfs), .cons hfs.shows .nil⟩

omit [Charsets] in
/-- The octets of the parts are found where the boundary delimits them. -/
theorem partsOf_sections {boundary type : Text} {parts : List (Part Text)}
    (hb : IsBoundary boundary) (hne : parts ≠ [])
    (hframed : ∀ part ∈ parts, Delimiter.cut? (delimiter boundary) part.write = none) :
    Entity.partsOf ⟨type, [("boundary".toList, boundary)]⟩ (sections boundary parts) =
      parts.map write := by
  have hmark := isMark_delimiter hb
  have hbody : sections boundary parts ≠ [] := by
    rw [sections_eq, Delimiter.enclose_eq]
    exact fun hn => hmark.ne_nil (List.append_eq_nil_iff.1 hn).1
  have hboundary : Dictionary.get? [("boundary".toList, boundary)] "boundary" = some boundary := rfl
  rw [Entity.partsOf, hboundary]
  simp only [if_neg hbody]
  rw [sections_eq]
  refine Delimiter.sections_enclose hmark (by simpa using hne) ?_
  intro x hx
  obtain ⟨part, hp, rfl⟩ := List.mem_map.1 hx
  exact hframed part hp

mutual

/-- A part is read as its pieces, whatever other fields stand in front of its own. -/
theorem read_part {part : Part Text} (hv : part.Valid IsBoundary) (hf : part.Framed)
    (hs : ∀ p ∈ part.pieces, p.Single) {bytes : Octets} {fs : List Field}
    (hb : Field.readBlock bytes = .ok (fs, part.body)) (hfs : Describes fs part) :
    ∃ entity, Entity.read false bytes = .ok entity ∧ ShowsAll entity.leaves part.pieces := by
  match part, hv, hf, hs, hb, hfs with
  | .text subtype body, _, _, hs, hb, hfs =>
      exact read_piece (p := .text subtype body) (hs _ List.mem_cons_self) hb hfs
  | .resource r inPlace, _, _, hs, hb, hfs =>
      exact read_piece (p := .resource r inPlace) (hs _ List.mem_cons_self) hb hfs
  | .message m, _, _, hs, hb, hfs =>
      exact read_piece (p := .message m) (hs _ List.mem_cons_self) hb hfs
  | .multipart subtype boundary parts, hv, hf, hs, hb, hfs =>
      obtain ⟨hsubtype, hboundary, hne, hparts⟩ := hv
      have htype := hfs.type_multipart hsubtype hboundary
      have hmulti : ∀ s ∈ containerTypes,
          "multipart/".toList.isPrefixOf ("multipart/".toList ++ s) = true ∧
            (("multipart/".toList ++ s) == "multipart/digest".toList) = false := by decide
      obtain ⟨entities, hread, hshows⟩ := read_parts hparts hf.2 hs
      have hentities : (Entity.partsOf (MediaType.ofFields false fs) (sections boundary parts)).mapM
          (Entity.read (Entity.isDigest (MediaType.ofFields false fs))) = .ok entities := by
        rw [htype, partsOf_sections hboundary hne hf.1, Entity.isDigest, (hmulti _ hsubtype).2]
        exact hread
      refine ⟨_, Entity.read_multipart hb ?_ hentities, hshows⟩
      rw [htype]
      exact (hmulti _ hsubtype).1

theorem read_parts {parts : List (Part Text)} (hv : AllValid IsBoundary parts)
    (hf : AllFramed parts) (hs : ∀ p ∈ piecesAll parts, p.Single) :
    ∃ entities, (parts.map write).mapM (Entity.read false) = .ok entities ∧
      ShowsAll (Entity.leavesAll entities) (piecesAll parts) := by
  match parts, hv, hf, hs with
  | [], _, _, _ => exact ⟨[], rfl, .nil⟩
  | part :: rest, hv, hf, hs =>
      rw [piecesAll, List.forall_mem_append] at hs
      have hblock : Field.readBlock part.write = .ok (part.fields.map Field.stripped, part.body) :=
        Field.readBlock_writeAll (fields_clean hv.1) _
      obtain ⟨entity, hread, hshows⟩ := read_part hv.1 hf.1 hs.1 hblock (describes_fields part)
      obtain ⟨entities, hreads, hrest⟩ := read_parts hv.2 hf.2 hs.2
      refine ⟨entity :: entities, ?_, List.rel_append hshows hrest⟩
      rw [List.map_cons, List.mapM_cons, hread, hreads]
      rfl

end

end Part
end Epistle
