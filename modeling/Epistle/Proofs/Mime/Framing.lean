import Epistle.Proofs.Mime.Delimiter
import Epistle.Proofs.Mime.Part

/-!
Parts between delimiters. A part that is written shows no delimiter of its own that is not meant as
one, as long as the lines of its texts and messages show none, because the boundaries in a tree have
different numbers. So every container gives its parts back.
-/
namespace Epistle
namespace Part

open LineEnding (cr lf crlf)
open Delimiter (IsMark cut? cutFrom enclose dash)

/-- A part without parts of its own. -/
inductive Piece where
  | text (subtype body : Text)
  | resource (resource : Resource) (inPlace : Bool)
  | message (message : Message)

def Piece.part : Piece → Part Text
  | .text subtype body => .text subtype body
  | .resource r inPlace => .resource r inPlace
  | .message m => .message m

variable {β : Type}

mutual

/-- The parts without parts of their own, in document order. -/
def pieces : Part β → List Piece
  | .text subtype body => [.text subtype body]
  | .resource r inPlace => [.resource r inPlace]
  | .message m => [.message m]
  | .multipart _ _ parts => piecesAll parts

def piecesAll : List (Part β) → List Piece
  | [] => []
  | part :: rest => pieces part ++ piecesAll rest

end

mutual

/-- The boundaries of the containers, the outer ones first. -/
def boundaries : Part β → List β
  | .text _ _ => []
  | .resource _ _ => []
  | .message _ => []
  | .multipart _ boundary parts => boundary :: boundariesAll parts

def boundariesAll : List (Part β) → List β
  | [] => []
  | part :: rest => boundaries part ++ boundariesAll rest

end

theorem piecesAll_eq (parts : List (Part β)) : piecesAll parts = parts.flatMap pieces := by
  induction parts with
  | nil => rfl
  | cons part rest ih => rw [piecesAll, ih, List.flatMap_cons]

theorem boundariesAll_eq (parts : List (Part β)) :
    boundariesAll parts = parts.flatMap boundaries := by
  induction parts with
  | nil => rfl
  | cons part rest ih => rw [boundariesAll, ih, List.flatMap_cons]

mutual

theorem pieces_stamp (part : Part Unit) (mint : Mint) :
    (part.stamp mint).1.pieces = part.pieces := by
  match part with
  | .text _ _ => rfl
  | .resource _ _ => rfl
  | .message _ => rfl
  | .multipart _ () parts => exact piecesAll_stampAll parts _

theorem piecesAll_stampAll (parts : List (Part Unit)) (mint : Mint) :
    piecesAll (stampAll parts mint).1 = piecesAll parts := by
  match parts with
  | [] => rfl
  | part :: rest =>
      exact congrArg₂ (· ++ ·) (pieces_stamp part mint) (piecesAll_stampAll rest _)

end

/-- A container shows the pieces of its parts. -/
theorem pieces_container? (subtype : Text) (parts : List (Part Unit)) :
    ((container? subtype parts).toList.flatMap pieces) = parts.flatMap pieces := by
  match parts with
  | [] => rfl
  | [part] => rfl
  | p :: q :: rest =>
      have hpieces : ((container? subtype (p :: q :: rest)).toList.flatMap pieces) =
          piecesAll (p :: q :: rest) := List.append_nil _
      rw [hpieces, piecesAll_eq]

/-- A container takes one boundary at most beyond those of its parts. -/
theorem boundaries_container? (subtype : Text) (parts : List (Part Unit)) :
    ((container? subtype parts).toList.flatMap boundaries).length ≤
      (parts.flatMap boundaries).length + 1 := by
  match parts with
  | [] => exact Nat.zero_le _
  | [part] => exact Nat.le_succ _
  | p :: q :: rest =>
      have hboundaries : ((container? subtype (p :: q :: rest)).toList.flatMap boundaries) =
          () :: boundariesAll (p :: q :: rest) := List.append_nil _
      rw [hboundaries, boundariesAll_eq]
      exact Nat.le_refl _

theorem isMark_delimiter {b : Text} (hb : IsBoundary b) : IsMark (delimiter b) := by
  obtain ⟨number, now, rfl⟩ := hb
  have hall : ∀ c ∈ "--".toList ++ Mint.boundaryText number now, Text.isPrintable c := by
    have hdashes : ∀ c ∈ "--".toList, Text.isPrintable c := by decide
    refine List.forall_mem_append.2 ⟨hdashes, ?_⟩
    exact fun c hc => Mint.isPrintable_of_isBoundaryChar (Mint.isBoundaryChar_of_mem hc)
  have hnone : ∀ {o : UInt8}, o.toNat < 0x20 → o ∉ delimiter (Mint.boundaryText number now) := by
    intro o ho
    refine Utf8.not_mem_encode (by omega) ?_
    intro c hc hn
    have hc := hall c hc
    simp only [Text.isPrintable, Bool.and_eq_true, decide_eq_true_eq] at hc
    omega
  exact ⟨rfl, hnone (by decide), hnone (by decide)⟩

theorem sections_eq (boundary : Text) (parts : List (Part Text)) :
    sections boundary parts = enclose (delimiter boundary) (parts.map write) := by
  induction parts with
  | nil => rfl
  | cons part rest ih =>
      rw [sections, ih, List.map_cons, enclose, write]

variable {mark : Octets}

/-- The fields of a block show no mark that their lines and their body do not show. -/
theorem cut?_lines (hm : IsMark mark) {fs : List Field} (hclean : ∀ f ∈ fs, f.Clean)
    (hlines : ∀ f ∈ fs, mark.isPrefixOf (f.name ++ Field.colon :: Field.space :: f.value) = false)
    {body : Octets} (h : cut? mark body = none) :
    cut? mark (Field.writeAll fs ++ crlf ++ body) = none := by
  induction fs with
  | nil =>
      have hnil : cut? mark [] = none := by rw [cut?, cutFrom, if_neg fun hn => hm.ne_nil hn.2]
      exact Delimiter.cut?_append_crlf hm hnil h
  | cons f fs ih =>
      have hjoin : Field.writeAll (f :: fs) ++ crlf ++ body =
          (f.name ++ Field.colon :: Field.space :: f.value) ++ crlf ++
            (Field.writeAll fs ++ crlf ++ body) := by
        simp [Field.writeAll, Field.write]
      have hf := hclean f (by simp)
      have hlf : lf ∉ f.name ++ Field.colon :: Field.space :: f.value := by
        simp only [List.mem_append, List.mem_cons, not_or]
        refine ⟨?_, by decide, by decide, ?_⟩
        · intro hmem
          exact absurd (hf.name_octets _ hmem) (by decide)
        · intro hmem
          exact absurd (hf.value_octets _ hmem) (by decide)
      have hline : cut? mark (f.name ++ Field.colon :: Field.space :: f.value) = none :=
        Delimiter.cutFrom_line hm hlf fun _ => hlines f (by simp)
      rw [hjoin]
      exact Delimiter.cut?_append_crlf hm hline
        (ih (fun g hg => hclean g (by simp [hg])) fun g hg => hlines g (by simp [hg]))

/-- A line whose name does not begin with a dash shows no mark. -/
theorem isPrefixOf_line (hm : IsMark mark) {f : Field} (hf : f.Clean)
    (hname : f.name.head? ≠ some dash) :
    mark.isPrefixOf (f.name ++ Field.colon :: Field.space :: f.value) = false := by
  obtain ⟨b, more, hb⟩ := List.exists_cons_of_ne_nil hf.name_ne
  have hdash : b ≠ dash := by
    rintro rfl
    exact hname (by rw [hb]; rfl)
  rw [hb, List.cons_append]
  exact hm.not_prefix hdash _

theorem name_fields {part : Part Text} {f : Field} (hf : f ∈ part.fields) :
    f.name.head? ≠ some dash := by
  have hall : ∀ name ∈ contentNames, name.head? = some 'C' := by decide
  have hhead := hall _ (key_fields hf)
  intro hdash
  rw [Field.key, List.head?_map, hdash] at hhead
  exact absurd hhead (by decide)

theorem cut?_write {part : Part Text} (hm : IsMark mark) (hv : part.Valid IsBoundary)
    (h : cut? mark part.body = none) : cut? mark part.write = none :=
  cut?_lines hm (fields_clean hv) (fun f hf => isPrefixOf_line hm (fields_clean hv f hf)
    (name_fields hf)) h

/-- Lines of the second boundary do not begin with the first. -/
def Apart (a b : Text) : Prop := (delimiter a).isPrefixOf (delimiter b ++ [dash, dash]) = false

theorem apart_of_ne {m n : UInt64} (h : m ≠ n) (now later : Date.Instant) :
    Apart (Mint.boundaryText m now) (Mint.boundaryText n later) := by
  cases hp : (delimiter (Mint.boundaryText m now)).isPrefixOf
      (delimiter (Mint.boundaryText n later) ++ [dash, dash]) with
  | false => exact hp
  | true =>
      have hend : delimiter (Mint.boundaryText n later) ++ [dash, dash] =
          Utf8.encode ("--".toList ++ (Mint.boundaryText n later ++ "--".toList)) := by
        rw [← List.append_assoc, Utf8.encode_append]
        rfl
      have hprefix := List.isPrefixOf_iff_prefix.1 hp
      rw [hend] at hprefix
      have htext := Utf8.prefix_of_encode hprefix
      rw [List.prefix_append_right_inj] at htext
      exact absurd (Mint.number_of_prefix htext) h

/-- As long as the counter does not come round, boundaries are apart from each other. -/
theorem pairwise_apart {start : UInt64} {bs : List Text} (h : Mint.Numbered start bs)
    (hlength : bs.length ≤ UInt64.size) : bs.Pairwise Apart := by
  rw [List.pairwise_iff_getElem]
  intro i j hi hj hij
  obtain ⟨now, hfirst⟩ := Mint.number_of_getElem? h (List.getElem?_eq_getElem hi)
  obtain ⟨later, hsecond⟩ := Mint.number_of_getElem? h (List.getElem?_eq_getElem hj)
  rw [hfirst, hsecond]
  exact apart_of_ne (Mint.number_ne hij (hj.trans_le hlength)) now later

mutual

/-- Stamping takes one number for each container. -/
theorem numbered_stamp (part : Part Unit) (mint : Mint) :
    Mint.Numbered mint.counter (part.stamp mint).1.boundaries ∧
      (part.stamp mint).1.boundaries.length = part.boundaries.length ∧
      (part.stamp mint).2.counter = mint.counter + UInt64.ofNat part.boundaries.length := by
  match part with
  | .text _ _ => exact ⟨trivial, rfl, (UInt64.add_zero _).symm⟩
  | .resource _ _ => exact ⟨trivial, rfl, (UInt64.add_zero _).symm⟩
  | .message _ => exact ⟨trivial, rfl, (UInt64.add_zero _).symm⟩
  | .multipart subtype () parts =>
      obtain ⟨hnumbered, hlength, hcounter⟩ := numbered_stampAll parts (Mint.boundary mint).2
      have hfirst : (Mint.boundary mint).2.counter = mint.counter + 1 := rfl
      refine ⟨⟨⟨_, rfl⟩, hnumbered⟩, congrArg (· + 1) hlength, ?_⟩
      have hlast : ((multipart subtype () parts).stamp mint).2.counter =
          (stampAll parts (Mint.boundary mint).2).2.counter := rfl
      have hcount : (multipart subtype () parts).boundaries.length =
          (boundariesAll parts).length + 1 := rfl
      rw [hlast, hcounter, hfirst, hcount, Nat.add_comm, UInt64.ofNat_add, UInt64.add_assoc]
      rfl

theorem numbered_stampAll (parts : List (Part Unit)) (mint : Mint) :
    Mint.Numbered mint.counter (boundariesAll (stampAll parts mint).1) ∧
      (boundariesAll (stampAll parts mint).1).length = (boundariesAll parts).length ∧
      (stampAll parts mint).2.counter =
        mint.counter + UInt64.ofNat (boundariesAll parts).length := by
  match parts with
  | [] => exact ⟨trivial, rfl, (UInt64.add_zero _).symm⟩
  | part :: rest =>
      obtain ⟨hnumbered, hlength, hcounter⟩ := numbered_stamp part mint
      obtain ⟨hrest, hrests, hlast⟩ := numbered_stampAll rest (part.stamp mint).2
      have hstamp : (stampAll (part :: rest) mint).1 =
          (part.stamp mint).1 :: (stampAll rest (part.stamp mint).2).1 := rfl
      have hend : (stampAll (part :: rest) mint).2 = (stampAll rest (part.stamp mint).2).2 := rfl
      rw [hcounter] at hrest hlast
      rw [hstamp, hend, boundariesAll, boundariesAll]
      refine ⟨Mint.numbered_append hnumbered (by rwa [hlength]), ?_, ?_⟩
      · rw [List.length_append, List.length_append, hlength, hrests]
      · rw [hlast, List.length_append, UInt64.ofNat_add, UInt64.add_assoc]

end

mutual

/-- A mark is not found in a body when it is found in no text or message of it and is apart from
the boundaries. -/
theorem cut?_body {b : Text} (hb : IsBoundary b) {part : Part Text} (hv : part.Valid IsBoundary)
    (hapart : ∀ c ∈ part.boundaries, Apart b c)
    (hquiet : ∀ p ∈ part.pieces, cut? (delimiter b) p.part.body = none) :
    cut? (delimiter b) part.body = none := by
  match part, hv, hapart, hquiet with
  | .text subtype body, _, _, hquiet => exact hquiet (.text subtype body) List.mem_cons_self
  | .resource r inPlace, _, _, hquiet => exact hquiet (.resource r inPlace) List.mem_cons_self
  | .message m, _, _, hquiet => exact hquiet (.message m) List.mem_cons_self
  | .multipart subtype inner parts, hv, hapart, hquiet =>
      have hbody : body (.multipart subtype inner parts) = sections inner parts := rfl
      rw [hbody, sections_eq]
      refine Delimiter.cut?_enclose (isMark_delimiter hb) (isMark_delimiter hv.2.1)
        (hapart inner List.mem_cons_self) ?_
      intro x hx
      obtain ⟨p, hp, rfl⟩ := List.mem_map.1 hx
      exact cut?_parts hb hv.2.2.2 (fun c hc => hapart c (List.mem_cons_of_mem _ hc)) hquiet p hp

theorem cut?_parts {b : Text} (hb : IsBoundary b) {parts : List (Part Text)}
    (hv : AllValid IsBoundary parts) (hapart : ∀ c ∈ boundariesAll parts, Apart b c)
    (hquiet : ∀ p ∈ piecesAll parts, cut? (delimiter b) p.part.body = none) :
    ∀ part ∈ parts, cut? (delimiter b) part.write = none := by
  match parts, hv, hapart, hquiet with
  | [], _, _, _ => exact fun part hp => nomatch hp
  | part :: rest, hv, hapart, hquiet =>
      rw [boundariesAll, List.forall_mem_append] at hapart
      rw [piecesAll, List.forall_mem_append] at hquiet
      exact List.forall_mem_cons.2
        ⟨cut?_write (isMark_delimiter hb) hv.1 (cut?_body hb hv.1 hapart.1 hquiet.1),
          cut?_parts hb hv.2 hapart.2 hquiet.2⟩

end

mutual

/-- Every container can be taken apart at its own boundary. -/
def Framed : Part Text → Prop
  | .text _ _ => True
  | .resource _ _ => True
  | .message _ => True
  | .multipart _ boundary parts =>
    (∀ part ∈ parts, cut? (delimiter boundary) part.write = none) ∧ AllFramed parts

def AllFramed : List (Part Text) → Prop
  | [] => True
  | part :: rest => Framed part ∧ AllFramed rest

end

mutual

theorem framed {part : Part Text} (hv : part.Valid IsBoundary)
    (hapart : part.boundaries.Pairwise Apart)
    (hquiet : ∀ b ∈ part.boundaries, ∀ p ∈ part.pieces, cut? (delimiter b) p.part.body = none) :
    part.Framed := by
  match part, hv, hapart, hquiet with
  | .text _ _, _, _, _ => trivial
  | .resource _ _, _, _, _ => trivial
  | .message _, _, _, _ => trivial
  | .multipart _ b parts, hv, hapart, hquiet =>
      -- The outer boundary is apart from the inner ones, so it is found in none of the parts.
      obtain ⟨hfirst, hrest⟩ := List.pairwise_cons.1 hapart
      refine ⟨cut?_parts hv.2.1 hv.2.2.2 hfirst (hquiet b List.mem_cons_self), ?_⟩
      exact allFramed hv.2.2.2 hrest fun c hc => hquiet c (List.mem_cons_of_mem _ hc)

theorem allFramed {parts : List (Part Text)} (hv : AllValid IsBoundary parts)
    (hapart : (boundariesAll parts).Pairwise Apart)
    (hquiet : ∀ b ∈ boundariesAll parts, ∀ p ∈ piecesAll parts,
      cut? (delimiter b) p.part.body = none) : AllFramed parts := by
  match parts, hv, hapart, hquiet with
  | [], _, _, _ => trivial
  | part :: rest, hv, hapart, hquiet =>
      rw [boundariesAll, List.pairwise_append] at hapart
      rw [boundariesAll, piecesAll] at hquiet
      refine ⟨framed hv.1 hapart.1 ?_, allFramed hv.2 hapart.2.1 ?_⟩
      · exact fun b hb p hp => hquiet b (List.mem_append_left _ hb) p (List.mem_append_left _ hp)
      · exact fun b hb p hp => hquiet b (List.mem_append_right _ hb) p (List.mem_append_right _ hp)

end

end Part
end Epistle
