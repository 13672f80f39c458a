import Epistle.Header.Name
import Epistle.Mime.Part
import Epistle.Proofs.Address.Format
import Epistle.Proofs.Header.Pairs
import Epistle.Proofs.Mime.Mint
import Epistle.Proofs.Mime.Resource

/-!
The tree of parts. A tree is valid when its texts and containers are of the kinds that letters have
and its resources were made; stamping keeps that and gives every container a boundary of the mint.
The fields of a valid part stand on one line each, and their names depend on its kind alone.
-/
namespace Epistle
namespace Part

variable {β : Type}

/-- A boundary that a mint can give. -/
def IsBoundary (b : Text) : Prop := ∃ number now, b = Mint.boundaryText number now

def textTypes : List Text := ["plain".toList, "html".toList]

def containerTypes : List Text := ["mixed".toList, "related".toList, "alternative".toList]

mutual

/-- A part of a letter, whose boundaries are as `known` says. -/
def Valid (known : β → Prop) : Part β → Prop
  | .text subtype _ => subtype ∈ textTypes
  | .resource r _ => r.Valid
  | .message _ => True
  | .multipart subtype boundary parts =>
    subtype ∈ containerTypes ∧ known boundary ∧ parts ≠ [] ∧ AllValid known parts

def AllValid (known : β → Prop) : List (Part β) → Prop
  | [] => True
  | part :: rest => Valid known part ∧ AllValid known rest

end

/-- The names of the fields that describe a part. -/
def fieldNames : Part β → List Text
  | .text _ _ => ["Content-Type", "Content-Transfer-Encoding"]
  | .resource r inPlace =>
    ["Content-Type".toList] ++ (if inPlace ∧ r.name ≠ none then ["Content-ID".toList] else []) ++
      ["Content-Disposition".toList, "Content-Transfer-Encoding".toList]
  | .message _ => ["Content-Type"]
  | .multipart _ _ _ => ["Content-Type"]

theorem allValid_iff {known : β → Prop} {parts : List (Part β)} :
    AllValid known parts ↔ ∀ part ∈ parts, part.Valid known := by
  induction parts with
  | nil => simp [AllValid]
  | cons part parts ih => simp [AllValid, ih]

theorem container?_valid {subtype : Text} {parts : List (Part Unit)} {part : Part Unit}
    {known : Unit → Prop} (hs : subtype ∈ containerTypes) (hk : known ())
    (hparts : ∀ part ∈ parts, part.Valid known) (h : container? subtype parts = some part) :
    part.Valid known := by
  match parts, h with
  | [p], h =>
      cases h
      exact hparts _ (by simp)
  | p :: q :: rest, h =>
      cases h
      exact ⟨hs, hk, List.cons_ne_nil _ _, allValid_iff.2 hparts⟩

mutual

/-- Stamping changes nothing but the boundaries. -/
theorem Valid.stamp {part : Part Unit} (h : part.Valid fun _ => True) (mint : Mint) :
    (part.stamp mint).1.Valid IsBoundary := by
  match part, h with
  | .text _ _, h => exact h
  | .resource _ _, h => exact h
  | .message _, h => exact h
  | .multipart _ () (_ :: _), h =>
      exact ⟨h.1, ⟨_, _, rfl⟩, List.cons_ne_nil _ _, AllValid.stampAll h.2.2.2 _⟩
  | .multipart _ () [], h => exact absurd rfl h.2.2.1

theorem AllValid.stampAll {parts : List (Part Unit)} (h : AllValid (fun _ => True) parts)
    (mint : Mint) : AllValid IsBoundary (stampAll parts mint).1 := by
  match parts, h with
  | [], h => exact h
  | _ :: _, h => exact ⟨Valid.stamp h.1 _, AllValid.stampAll h.2 _⟩

end

theorem fieldNames_stamp (part : Part Unit) (mint : Mint) :
    (part.stamp mint).1.fieldNames = part.fieldNames := by
  cases part with
  | text | resource | message | multipart => rfl

theorem oneLine_parameter (name : Text) : Text.OneLine (parameter name) :=
  Quoted.oneLine_escape (Text.oneLine_of_hasControl (Text.hasControl_withoutControls name))

theorem oneLine_withParameter {head key : Text} {name : Option Text} (hhead : Text.OneLine head)
    (hkey : Text.OneLine key) (hname : ∀ n, name = some n → Text.OneLine n) :
    Text.OneLine (withParameter head key name) := by
  cases name with
  | none => exact hhead
  | some n =>
      have hopen : Text.OneLine "; ".toList := by decide
      have hequals : Text.OneLine "=\"".toList := by decide
      have hclose : Text.OneLine ['"'] := by decide
      simp only [withParameter, Text.oneLine_append]
      exact ⟨⟨⟨⟨⟨hhead, hopen⟩, hkey⟩, hequals⟩, hname n rfl⟩, hclose⟩

theorem oneLine_textType {subtype : Text} (h : subtype ∈ textTypes) :
    Text.OneLine ("text/".toList ++ subtype ++ "; charset=utf-8".toList) := by
  have hall : ∀ s ∈ textTypes, Text.OneLine ("text/".toList ++ s ++ "; charset=utf-8".toList) := by
    decide
  exact hall subtype h

theorem oneLine_containerType {subtype : Text} (h : subtype ∈ containerTypes) :
    Text.OneLine ("multipart/".toList ++ subtype) := by
  have hall : ∀ s ∈ containerTypes, Text.OneLine ("multipart/".toList ++ s) := by decide
  exact hall subtype h

theorem oneLine_textEncoding (body : Text) : Text.OneLine (textEncoding body) := by
  rw [textEncoding]
  split <;> decide

theorem oneLine_disposition (inPlace : Bool) :
    Text.OneLine (if inPlace then "inline".toList else "attachment".toList) := by
  cases inPlace <;> decide

theorem oneLine_contentType {r : Resource} (h : r.Valid) : Text.OneLine r.source.contentType :=
  Text.oneLine_of_hasControl h.source.type_control

theorem oneLine_reference {name : Text} (h : Text.OneLine name) :
    Text.OneLine (['<'] ++ name ++ ['>']) := by
  have hopen : Text.OneLine ['<'] := by decide
  have hclose : Text.OneLine ['>'] := by decide
  simp only [Text.oneLine_append]
  exact ⟨⟨hopen, h⟩, hclose⟩

/-- The names that the fields of a part can have. -/
def contentNames : List Text :=
  ["Content-Type".toList, "Content-ID".toList, "Content-Disposition".toList,
    "Content-Transfer-Encoding".toList]

/-- The value under each of these names. -/
def pairs : Part Text → List (Text × Option Text)
  | .text subtype body =>
    [("Content-Type", some ("text/".toList ++ subtype ++ "; charset=utf-8".toList)),
      ("Content-ID", none), ("Content-Disposition", none),
      ("Content-Transfer-Encoding", some (textEncoding body))]
  | .resource r inPlace =>
    [("Content-Type", some (withParameter r.source.contentType "name" (r.name.map parameter))),
      ("Content-ID", if inPlace then r.name.map fun n => ['<'] ++ parameter n ++ ['>'] else none),
      ("Content-Disposition", some (withParameter (if inPlace then "inline" else "attachment")
        "filename" (r.name.map parameter))),
      ("Content-Transfer-Encoding", some "base64")]
  | .message _ =>
    [("Content-Type", some "message/rfc822"), ("Content-ID", none), ("Content-Disposition", none),
      ("Content-Transfer-Encoding", none)]
  | .multipart subtype boundary _ =>
    [("Content-Type",
        some (withParameter ("multipart/".toList ++ subtype) "boundary" (some boundary))),
      ("Content-ID", none), ("Content-Disposition", none), ("Content-Transfer-Encoding", none)]

theorem names_pairs (part : Part Text) : part.pairs.map (·.1) = contentNames := by
  cases part with
  | text | resource | message | multipart => rfl

theorem apart_pairs (part : Part Text) : FieldName.Apart (part.pairs.map (·.1)) := by
  rw [names_pairs]
  decide

theorem fields_pairs (part : Part Text) : part.fields = Field.ofPairs part.pairs := by
  cases part with
  | text | message | multipart => rfl
  | resource r inPlace =>
      rw [fields, pairs]
      cases r.name with
      | none => cases inPlace <;> rfl
      | some n => cases inPlace <;> rfl

theorem Valid.oneLine_pairs {part : Part Text} (h : part.Valid IsBoundary) :
    ∀ p ∈ part.pairs, ∀ v, p.2 = some v → Text.OneLine v := by
  cases part with
  | text subtype body =>
      simp only [pairs, List.forall_mem_cons, Option.some.injEq, forall_eq']
      exact ⟨oneLine_textType h, by simp, by simp, oneLine_textEncoding body, by simp⟩
  | resource r inPlace =>
      have hname : ∀ n, r.name.map parameter = some n → Text.OneLine n := by
        intro n hn
        obtain ⟨m, -, rfl⟩ := Option.map_eq_some_iff.1 hn
        exact oneLine_parameter m
      simp only [pairs, List.forall_mem_cons, Option.some.injEq, forall_eq']
      refine ⟨oneLine_withParameter (oneLine_contentType h) (by decide) hname, ?_,
        oneLine_withParameter (oneLine_disposition inPlace) (by decide) hname, by decide, by simp⟩
      intro v hv
      split at hv
      · obtain ⟨n, -, rfl⟩ := Option.map_eq_some_iff.1 hv
        exact oneLine_reference (oneLine_parameter n)
      · cases hv
  | message m =>
      simp only [pairs, List.forall_mem_cons, Option.some.injEq, forall_eq']
      exact ⟨by decide, by simp, by simp, by simp, by simp⟩
  | multipart subtype boundary parts =>
      obtain ⟨hsubtype, ⟨number, now, rfl⟩, -, -⟩ := h
      have hboundary : ∀ b, some (Mint.boundaryText number now) = some b → Text.OneLine b := by
        rintro b ⟨⟩
        exact Mint.oneLine_boundaryText number now
      simp only [pairs, List.forall_mem_cons, Option.some.injEq, forall_eq']
      exact ⟨oneLine_withParameter (oneLine_containerType hsubtype) (by decide) hboundary,
        by simp, by simp, by simp, by simp⟩

theorem fields_clean {part : Part Text} (h : part.Valid IsBoundary) :
    ∀ f ∈ part.fields, f.Clean := by
  rw [fields_pairs]
  exact Field.ofPairs_clean part.apart_pairs.valid h.oneLine_pairs

theorem keys_fields (part : Part Text) : part.fields.map Field.key = part.fieldNames := by
  rw [fields_pairs, Field.keys_ofPairs part.apart_pairs.valid]
  cases part with
  | text | message | multipart => rfl
  | resource r inPlace =>
      rw [pairs, fieldNames]
      cases r.name with
      | none => cases inPlace <;> rfl
      | some n => cases inPlace <;> rfl

theorem key_fields {part : Part Text} {f : Field} (hf : f ∈ part.fields) :
    f.key ∈ contentNames := by
  rw [fields_pairs] at hf
  rw [← names_pairs part]
  exact Field.key_ofPairs part.apart_pairs.valid hf

theorem find?_fields_eq_none {part : Part Text} {target : Text}
    (h : ∀ name ∈ contentNames, Text.sameName name target = false) :
    Field.find? part.fields target = none := by
  rw [← names_pairs part] at h
  rw [fields_pairs, Field.find?_ofPairs part.apart_pairs.valid, Field.lookup_eq_none h]

end Part
end Epistle
