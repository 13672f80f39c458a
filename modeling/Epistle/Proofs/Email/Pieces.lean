import Epistle.Proofs.Email.HeaderRoundTrip
import Epistle.Proofs.Email.Leaves

/-!
The pieces that the body of a letter is made of. Whichever containers are around them, a reader of
the rendered letter takes them apart again, unless a line of one of them is taken for a boundary.
-/
namespace Epistle

open Epistle.Part (Piece ShowsAll delimiter)
open Delimiter (StartsLine dash)

namespace Email

variable {e : Email} {leaves : List Leaf}

/-- What the body of the letter is made of. -/
def pieces (e : Email) : List Piece :=
  (e.text.map (Piece.text "plain")).toList ++ (e.html.map (Piece.text "html")).toList ++
    e.images.map (Piece.resource · true) ++ e.attachments.map (Piece.resource · false) ++
    (e.forwarded.map Piece.message).toList

theorem pieces_mixedParts (e : Email) : e.mixedParts.flatMap Part.pieces = e.pieces := by
  have htexts : e.textParts.flatMap Part.pieces =
      (e.text.map (Piece.text "plain")).toList ++ (e.html.map (Piece.text "html")).toList := by
    rw [textParts]
    cases e.text <;> cases e.html <;> rfl
  have hresources : ∀ (rs : List Resource) (inPlace : Bool),
      (rs.map fun r => (Part.resource r inPlace : Part Unit)).flatMap Part.pieces =
        rs.map (Piece.resource · inPlace) := by
    intro rs inPlace
    rw [List.flatMap_map]
    exact List.map_eq_flatMap.symm
  have hforwarded : ((e.forwarded.map Part.message).toList : List (Part Unit)).flatMap Part.pieces =
      (e.forwarded.map Piece.message).toList := by
    cases e.forwarded <;> rfl
  rw [mixedParts, List.flatMap_append, List.flatMap_append, Part.pieces_container?, relatedParts,
    List.flatMap_append, Part.pieces_container?, htexts, hresources, hresources, hforwarded,
    pieces]

theorem boundaries_mixedParts (e : Email) : (e.mixedParts.flatMap Part.boundaries).length ≤ 2 := by
  have htexts : e.textParts.flatMap Part.boundaries = [] := by
    rw [textParts]
    cases e.text <;> cases e.html <;> rfl
  have hresources : ∀ (rs : List Resource) (inPlace : Bool),
      (rs.map fun r => (Part.resource r inPlace : Part Unit)).flatMap Part.boundaries = [] := by
    intro rs inPlace
    simp [List.flatMap_map, Part.boundaries]
  have hforwarded :
      ((e.forwarded.map Part.message).toList : List (Part Unit)).flatMap Part.boundaries = [] := by
    cases e.forwarded <;> rfl
  have hinner := Part.boundaries_container? "alternative" e.textParts
  have houter := Part.boundaries_container? "related" e.relatedParts
  rw [htexts] at hinner
  rw [relatedParts, List.flatMap_append, hresources, List.append_nil] at houter
  rw [mixedParts, List.flatMap_append, List.flatMap_append, hresources, hforwarded, List.append_nil,
    List.append_nil]
  exact houter.trans (Nat.add_le_add_right hinner 1)

/-- The body has these pieces, or it is an empty text for want of any. -/
theorem pieces_part (e : Email) :
    e.part.pieces = e.pieces ∨ e.pieces = [] ∧ e.part.pieces = [.text "plain" []] := by
  have hcontainer := Part.pieces_container? "mixed" e.mixedParts
  rw [pieces_mixedParts] at hcontainer
  rw [part_eq]
  cases hc : Part.container? "mixed" e.mixedParts with
  | none =>
      rw [hc] at hcontainer
      exact .inr ⟨hcontainer.symm, rfl⟩
  | some p =>
      rw [hc, Option.toList_some, List.flatMap_singleton] at hcontainer
      exact .inl hcontainer

/-- A body without pieces is written as an empty text. -/
theorem exists_pieces_part (e : Email) : ∃ text, e.part.pieces = { e with text }.pieces ∧
    (text = e.text ∨ e.text = none ∧ text = some []) := by
  rcases pieces_part e with hpieces | ⟨hnone, hpieces⟩
  · exact ⟨e.text, hpieces, .inl rfl⟩
  · simp only [pieces, List.append_eq_nil_iff, Option.toList_eq_nil_iff, Option.map_eq_none_iff,
      List.map_eq_nil_iff] at hnone
    obtain ⟨⟨⟨⟨htext, hhtml⟩, himages⟩, hattachments⟩, hforwarded⟩ := hnone
    refine ⟨some [], ?_, .inr ⟨htext, rfl⟩⟩
    rw [hpieces]
    simp [pieces, hhtml, himages, hattachments, hforwarded]

theorem boundaries_part (e : Email) : e.part.boundaries.length ≤ 3 := by
  have hcontainer := Part.boundaries_container? "mixed" e.mixedParts
  have hinner := boundaries_mixedParts e
  rw [part_eq]
  cases hc : Part.container? "mixed" e.mixedParts with
  | none => exact Nat.zero_le _
  | some p =>
      rw [hc, Option.toList_some, List.flatMap_singleton] at hcontainer
      exact hcontainer.trans (Nat.add_le_add_right hinner 1)

/-- No line of the texts and of the forwarded message begins with a boundary of this rendering. -/
structure Quiet (e : Email) (mint : Mint) : Prop where
  text : ∀ b ∈ (e.topPart mint).boundaries, ∀ t, e.text = some t →
    ¬ StartsLine (delimiter b) (Utf8.encode t)
  html : ∀ b ∈ (e.topPart mint).boundaries, ∀ t, e.html = some t →
    ¬ StartsLine (delimiter b) (Utf8.encode t)
  forwarded : ∀ b ∈ (e.topPart mint).boundaries, ∀ m, e.forwarded = some m →
    ¬ StartsLine (delimiter b) m.octets

theorem single_resource [Charsets] {r : Resource} (h : r.Simple) (inPlace : Bool) :
    (Piece.resource r inPlace).Single := by
  intro fs hfs
  rw [MediaType.isMultipart, hfs.type_resource h.type.isValue]
  exact h.single

theorem single_text [Charsets] {subtype : Text} (hs : subtype ∈ Part.textTypes) (t : Text) :
    (Piece.text subtype t).Single := fun _ hfs => hfs.isMultipart_text hs

theorem single_message [Charsets] (m : Message) : (Piece.message m).Single := by
  intro fs hfs
  rw [hfs.type_message]
  decide

theorem single_pieces [Charsets] (hi : ∀ r ∈ e.images, r.Simple)
    (ha : ∀ r ∈ e.attachments, r.Simple) : ∀ p ∈ e.pieces, p.Single := by
  simp only [pieces, List.forall_mem_append, List.forall_mem_map, Option.mem_toList,
    Option.map_eq_some_iff, forall_exists_index, and_imp, forall_apply_eq_imp_iff₂]
  exact ⟨⟨⟨⟨fun t _ => single_text (by decide) t, fun t _ => single_text (by decide) t⟩,
    fun r hr => single_resource (hi r hr) true⟩, fun r hr => single_resource (ha r hr) false⟩,
    fun m _ => single_message m⟩

theorem single_part [Charsets] (hi : ∀ r ∈ e.images, r.Simple)
    (ha : ∀ r ∈ e.attachments, r.Simple) : ∀ p ∈ e.part.pieces, p.Single := by
  obtain ⟨text, hpieces, -⟩ := exists_pieces_part e
  rw [hpieces]
  exact single_pieces hi ha

theorem dash_not_mem_wrapped (bytes : Octets) :
    dash ∉ Utf8.encode (Base64.encodeWrapped bytes) := by
  refine Utf8.not_mem_encode (by decide) ?_
  intro c hc hn
  have hdash : c = '-' := Char.toNat_inj.1 hn
  rcases Base64.mem_wrapFrom hc with hc | rfl | rfl
  · have hdigit := Base64.isDigit_of_mem_encode hc
    rw [hdash] at hdigit
    exact absurd hdigit (by decide)
  · exact absurd hdash (by decide)
  · exact absurd hdash (by decide)

theorem cut?_textBody {b t : Text} (hb : Part.IsBoundary b)
    (h : ¬ StartsLine (delimiter b) (Utf8.encode t)) :
    Delimiter.cut? (delimiter b) (Part.textBody t) = none := by
  have hmark := Part.isMark_delimiter hb
  rw [Part.textBody]
  split
  · exact Delimiter.cutFrom_expandFrom hmark (Delimiter.cut?_eq_none h)
  · exact Delimiter.cutFrom_of_not_mem hmark (dash_not_mem_wrapped _)

/-- A boundary stays out of what a letter sends if no line of its texts begins with the delimiter
and the message that it carries has none to cut at. -/
theorem clear_pieces {b : Text} (hb : Part.IsBoundary b)
    (ht : ∀ t, e.text = some t → ¬ StartsLine (delimiter b) (Utf8.encode t))
    (hh : ∀ t, e.html = some t → ¬ StartsLine (delimiter b) (Utf8.encode t))
    (hf : ∀ m, e.forwarded = some m → Delimiter.cut? (delimiter b) m.octets = none) :
    ∀ p ∈ e.pieces, Delimiter.cut? (delimiter b) p.part.body = none := by
  have hresource : ∀ (r : Resource) (inPlace : Bool),
      Delimiter.cut? (delimiter b) (Piece.resource r inPlace).part.body = none :=
    fun r _ => Delimiter.cutFrom_of_not_mem (Part.isMark_delimiter hb) (dash_not_mem_wrapped _)
  simp only [Email.pieces, List.forall_mem_append, List.forall_mem_map, Option.mem_toList,
    Option.map_eq_some_iff, forall_exists_index, and_imp, forall_apply_eq_imp_iff₂]
  exact ⟨⟨⟨⟨fun t h => cut?_textBody hb (ht t h), fun t h => cut?_textBody hb (hh t h)⟩,
    fun r _ => hresource r true⟩, fun r _ => hresource r false⟩, hf⟩

theorem clear_part {b : Text} (hb : Part.IsBoundary b)
    (ht : ∀ t, e.text = some t → ¬ StartsLine (delimiter b) (Utf8.encode t))
    (hh : ∀ t, e.html = some t → ¬ StartsLine (delimiter b) (Utf8.encode t))
    (hf : ∀ m, e.forwarded = some m → Delimiter.cut? (delimiter b) m.octets = none) :
    ∀ p ∈ e.part.pieces, Delimiter.cut? (delimiter b) p.part.body = none := by
  obtain ⟨text, hpieces, htext⟩ := exists_pieces_part e
  have hwritten : ∀ t, text = some t → ¬ StartsLine (delimiter b) (Utf8.encode t) := by
    rintro t rfl
    rcases htext with htext | ⟨-, ⟨⟩⟩
    · exact ht t htext.symm
    · exact Delimiter.not_startsLine (Part.isMark_delimiter hb) (by decide)
  rw [hpieces]
  exact clear_pieces hb hwritten hh hf

theorem boundaries_topPart (e : Email) (mint : Mint) :
    (e.topPart mint).boundaries.Pairwise Part.Apart ∧
      ∀ b ∈ (e.topPart mint).boundaries, Part.IsBoundary b := by
  obtain ⟨hnumbered, hlength, -⟩ :=
    Part.numbered_stamp e.part (Mint.readClock (e.messageId mint).2).2
  have hfew := boundaries_part e
  have hbound : 3 ≤ UInt64.size := by decide
  refine ⟨Part.pairwise_apart hnumbered (hlength.trans_le (hfew.trans hbound)), ?_⟩
  intro b hb
  obtain ⟨k, -, now, rfl⟩ := Mint.number_of_mem hnumbered hb
  exact ⟨_, now, rfl⟩

theorem Quiet.framed {mint : Mint} (hq : e.Quiet mint) (h : e.Sound) :
    (e.topPart mint).Framed := by
  obtain ⟨hapart, hboundary⟩ := boundaries_topPart e mint
  refine Part.framed (h.topPart_valid mint) hapart ?_
  intro b hb
  rw [topPart, Part.pieces_stamp]
  exact clear_part (hboundary b hb) (hq.text b hb) (hq.html b hb)
    fun m hm => Delimiter.cut?_eq_none (hq.forwarded b hb m hm)

/-- A letter whose images and attachments are simple can be taken apart again into its pieces. -/
theorem Sound.read_octets [Charsets] (h : e.Sound) (hi : ∀ r ∈ e.images, r.Simple)
    (ha : ∀ r ∈ e.attachments, r.Simple) {mint : Mint} (hq : e.Quiet mint) : ∃ entity,
      Entity.read false (e.render mint).1.octets = .ok entity ∧
      entity.fields = e.readBack mint ∧ ShowsAll entity.leaves e.part.pieces := by
  have hpieces : (e.topPart mint).pieces = e.part.pieces := Part.pieces_stamp _ _
  have hsingle : ∀ p ∈ (e.topPart mint).pieces, p.Single := by
    rw [hpieces]
    exact single_part hi ha
  obtain ⟨entity, hread, hshows⟩ := Part.read_part (h.topPart_valid mint) (hq.framed h) hsingle
    (h.readBlock_octets mint) (h.describes mint)
  rw [hpieces] at hshows
  exact ⟨entity, hread, Entity.fields_of_read (h.readBlock_octets mint) hread, hshows⟩

theorem showsAll_append [Charsets] {ps qs : List Piece} (h : ShowsAll leaves (ps ++ qs)) :
    ∃ front back, leaves = front ++ back ∧ ShowsAll front ps ∧ ShowsAll back qs :=
  ⟨_, _, (List.take_append_drop _ _).symm, List.forall₂_take_append _ _ _ h,
    List.forall₂_drop_append _ _ _ h⟩

theorem quiet_of_no_dash {mint : Mint} (ht : ∀ t, e.text = some t → dash ∉ Utf8.encode t)
    (hh : ∀ t, e.html = some t → dash ∉ Utf8.encode t)
    (hf : ∀ m, e.forwarded = some m → dash ∉ m.octets) : e.Quiet mint := by
  have hmark : ∀ b ∈ (e.topPart mint).boundaries, Delimiter.IsMark (delimiter b) :=
    fun b hb => Part.isMark_delimiter ((boundaries_topPart e mint).2 b hb)
  exact ⟨fun b hb t h => Delimiter.not_startsLine (hmark b hb) (ht t h),
    fun b hb t h => Delimiter.not_startsLine (hmark b hb) (hh t h),
    fun b hb m h => Delimiter.not_startsLine (hmark b hb) (hf m h)⟩

end Email
end Epistle
