import Epistle.Proofs.Email.Leaves
import Epistle.Proofs.Email.Pieces

/-!
What the leaves of a rendered letter are used for. Its texts and the message it carries fill their
places, and each image and each attachment is kept in its order with its type and its data, whatever
its name. An image is written with its name quoted, but a reader takes only the angle brackets off;
so the backslashes of the quoting become part of the name.
-/
namespace Epistle

open Epistle.Part (Shows Piece ShowsAll)
open Token.Spelling (Plain)

namespace Email

variable {e : Email} {leaves : List Leaf}

def contentOf (r : Resource) : Option Text × Text × Octets :=
  (r.name, r.source.contentType, r.source.data)

/-- A letter whose images and attachments a reader can tell from its texts and from each other. -/
structure Separable (e : Email) : Prop where
  images : ∀ r ∈ e.images, r.Addressable
  attachments : ∀ r ∈ e.attachments, r.Simple

/-- Leaves that can be read and go to a place, of which there is one at most. -/
structure Fills [Charsets] (p : Place) (ls : List Leaf) : Prop where
  once : ls.length ≤ 1
  placed : ∀ l ∈ ls, l.place? = some p
  sound : ∀ l ∈ ls, l.fault? = none

/-- Leaves that can be read and are kept for a use, since no place is for them. -/
structure Keeps [Charsets] (u : Use) (ls : List Leaf) : Prop where
  free : ∀ l ∈ ls, l.place? = none
  use : ∀ l ∈ ls, l.keep = u
  sound : ∀ l ∈ ls, l.fault? = none

theorem Fills.filter [Charsets] {p : Place} (h : Fills p leaves) (u : Use) :
    (leaves.filter fun l => l.place? = none ∧ l.keep = u) = [] := by
  rw [List.filter_eq_nil_iff]
  intro l hl
  simp [h.placed l hl]

theorem Keeps.filter [Charsets] {u : Use} (h : Keeps u leaves) (v : Use) :
    (leaves.filter fun l => l.place? = none ∧ l.keep = v) = if u = v then leaves else [] := by
  split
  · rw [List.filter_eq_self]
    intro l hl
    simp_all [h.free l hl, h.use l hl]
  · rw [List.filter_eq_nil_iff]
    intro l hl
    simp_all [h.free l hl, h.use l hl]

theorem Fills.filterMap [Charsets] {p : Place} (h : Fills p leaves) :
    (leaves.filterMap Leaf.place?).Sublist [p] := by
  match leaves, h with
  | [], _ => exact List.nil_sublist _
  | [l], h =>
      rw [List.filterMap_cons_some (h.placed l List.mem_cons_self)]
      exact List.Sublist.refl _
  | _ :: _ :: _, h => exact absurd h.once (by simp)

theorem Keeps.filterMap [Charsets] {u : Use} (h : Keeps u leaves) :
    leaves.filterMap Leaf.place? = [] :=
  List.filterMap_eq_nil_iff.2 h.free

theorem find?_offers_eq_none [Charsets] {p : Place} (h : ∀ l ∈ leaves, l.place? ≠ some p) :
    leaves.find? (Leaf.offers p) = none := by
  rw [List.find?_eq_none]
  intro l hl
  rw [Bool.not_eq_true]
  exact offers_eq_false (h l hl)

theorem Fills.find?_other [Charsets] {p q : Place} (h : Fills q leaves) (hne : q ≠ p) :
    leaves.find? (Leaf.offers p) = none :=
  find?_offers_eq_none fun l hl => by simpa [h.placed l hl] using hne

theorem Keeps.find?_offers [Charsets] {u : Use} (h : Keeps u leaves) (p : Place) :
    leaves.find? (Leaf.offers p) = none :=
  find?_offers_eq_none fun l hl => by simp [h.free l hl]

/-- One leaf or none fills the place of a piece that is there or not. -/
theorem fills_option [Charsets] {α : Type} {o : Option α} {f : α → Piece} {p : Place}
    (hl : ShowsAll leaves (o.map f).toList)
    (hf : ∀ a l, Shows l (f a).part → l.place? = some p ∧ ∃ data, l.data = .ok data) :
    Fills p leaves := by
  cases o with
  | none =>
      cases hl
      exact ⟨Nat.zero_le _, by simp, by simp⟩
  | some a =>
      obtain _ | ⟨hshows, ⟨⟩⟩ := hl
      obtain ⟨hplace, data, hdata⟩ := hf a _ hshows
      refine ⟨Nat.le_refl _, List.forall_mem_singleton.2 hplace, List.forall_mem_singleton.2 ?_⟩
      rw [fault?_of_place hplace, hdata]

theorem fills_text [Charsets] {text : Option Text} {subtype : Text} {p : Place}
    (hl : ShowsAll leaves (text.map (Piece.text subtype)).toList) (hs : subtype ∈ Part.textTypes)
    (hp : "text/".toList ++ subtype = p.type) : Fills p leaves :=
  fills_option hl fun _ _ hshows => ⟨Leaf.place?_text hshows hs hp, _, hshows.data_text⟩

theorem fills_forwarded [Charsets] {forwarded : Option Message}
    (hl : ShowsAll leaves (forwarded.map Piece.message).toList) : Fills .forwarded leaves :=
  fills_option hl fun _ _ hshows => ⟨Leaf.place?_message hshows, _, hshows.data_message⟩

theorem keeps_resources [Charsets] {rs : List Resource} {inPlace : Bool} {u : Use}
    (hl : ShowsAll leaves (rs.map (Piece.resource · inPlace)))
    (hr : ∀ r ∈ rs, ∀ l, Shows l (.resource r inPlace) →
      l.place? = none ∧ l.keep = u ∧ l.fault? = none) : Keeps u leaves := by
  have hall : ∀ l ∈ leaves, l.place? = none ∧ l.keep = u ∧ l.fault? = none := by
    induction rs generalizing leaves with
    | nil =>
        cases hl
        simp
    | cons r rs ih =>
        obtain _ | ⟨hshows, hrest⟩ := hl
        obtain ⟨hfirst, hothers⟩ := List.forall_mem_cons.1 hr
        exact List.forall_mem_cons.2 ⟨hfirst _ hshows, ih hrest hothers⟩
  exact ⟨fun l hl => (hall l hl).1, fun l hl => (hall l hl).2.1, fun l hl => (hall l hl).2.2⟩

/-- The place takes what it takes of leaves that show these pieces. -/
def Meets [Charsets] (p : Place) (leaves : List Leaf) (pieces : List Piece) : Prop :=
  ∃ ls, ShowsAll ls pieces ∧ leaves.find? (Leaf.offers p) = ls.find? (Leaf.offers p)

/-- All leaves can be read, and each goes where the piece that it shows was. -/
structure Sorted [Charsets] (e : Email) (leaves : List Leaf) : Prop where
  sound : ∀ l ∈ leaves, l.fault? = none
  text : Meets .text leaves (e.text.map (Piece.text "plain")).toList
  html : Meets .html leaves (e.html.map (Piece.text "html")).toList
  images : ShowsAll (Leaf.usedAs .image leaves) (e.images.map (Piece.resource · true))
  attachments : ShowsAll (Leaf.usedAs .attachment leaves)
    (e.attachments.map (Piece.resource · false))
  forwarded : Meets .forwarded leaves (e.forwarded.map Piece.message).toList

theorem Sound.sorted_leaves [Charsets] (h : e.Sound) (hs : e.Separable)
    (hl : ShowsAll leaves e.pieces) : Sorted e leaves := by
  obtain ⟨front, forwarded, rfl, hl, hforwarded⟩ := showsAll_append hl
  obtain ⟨front, attachments, rfl, hl, hattachments⟩ := showsAll_append hl
  obtain ⟨front, images, rfl, hl, himages⟩ := showsAll_append hl
  obtain ⟨text, html, rfl, htext, hhtml⟩ := showsAll_append hl
  have hplain : Fills .text text := fills_text htext (by decide) (by decide)
  have hrich : Fills .html html := fills_text hhtml (by decide) (by decide)
  have hmessage : Fills .forwarded forwarded := fills_forwarded hforwarded
  have himage : Keeps .image images := keeps_resources himages fun r hr l hshows =>
    ⟨Leaf.place?_image hshows (hs.images r hr),
      (Leaf.image_quoted hshows (hs.images r hr) (h.images r hr)).1,
      Leaf.fault?_resource hshows (hs.images r hr).simple (h.images r hr).1⟩
  have hattachment : Keeps .attachment attachments :=
    keeps_resources hattachments fun r hr l hshows =>
      ⟨Leaf.place?_attachment hshows, Leaf.keep_attachment hshows (h.attachments r hr),
        Leaf.fault?_resource hshows (hs.attachments r hr) (h.attachments r hr)⟩
  -- Each place is asked for once, so the places take their leaves and the others are kept.
  have honce : (([] ++ (text ++ html ++ images ++ attachments ++ forwarded)).filterMap
      Leaf.place?).Nodup := by
    simp only [List.nil_append, List.filterMap_append, himage.filterMap, hattachment.filterMap,
      List.append_nil]
    exact ((hplain.filterMap.append hrich.filterMap).append hmessage.filterMap).nodup (by decide)
  have hused : ∀ u, (∀ p, u ≠ .place p) → u ≠ .nothing →
      Leaf.usedAs u (text ++ html ++ images ++ attachments ++ forwarded) =
        (if .image = u then images else []) ++ if .attachment = u then attachments else [] := by
    intro u hplace hnothing
    rw [Leaf.usedAs, usedFrom_kept hplace hnothing honce]
    simp only [List.filter_append, hplain.filter, hrich.filter, hmessage.filter, himage.filter,
      hattachment.filter, List.nil_append, List.append_nil]
  have hfind : ∀ p, (text ++ html ++ images ++ attachments ++ forwarded).find? (Leaf.offers p) =
      ((text.find? (Leaf.offers p)).or (html.find? (Leaf.offers p))).or
        (forwarded.find? (Leaf.offers p)) := by
    intro p
    simp only [List.find?_append, himage.find?_offers, hattachment.find?_offers, Option.or_none]
  refine ⟨?_, ⟨text, htext, ?_⟩, ⟨html, hhtml, ?_⟩, ?_, ?_, ⟨forwarded, hforwarded, ?_⟩⟩
  · simp only [List.forall_mem_append]
    exact ⟨⟨⟨⟨hplain.sound, hrich.sound⟩, himage.sound⟩, hattachment.sound⟩, hmessage.sound⟩
  · rw [hfind, hrich.find?_other (by decide), hmessage.find?_other (by decide), Option.or_none,
      Option.or_none]
  · rw [hfind, hplain.find?_other (by decide), hmessage.find?_other (by decide), Option.or_none,
      Option.none_or]
  · rw [hused _ (by simp) (by simp)]
    simpa using himages
  · rw [hused _ (by simp) (by simp)]
    simpa using hattachments
  · rw [hfind, hplain.find?_other (by decide), hrich.find?_other (by decide), Option.none_or,
      Option.none_or]

/-- A letter is read from the leaves that its pieces are shown by, and conserves them. -/
theorem Sound.read_sorted [Charsets] (h : e.Sound) (hs : e.Separable) {mint : Mint}
    (hq : e.Quiet mint) : ∃ e' leaves text, (text = e.text ∨ e.text = none ∧ text = some []) ∧
      Sorted { e with text } leaves ∧ ofMessage (e.render mint).1 = .ok e' ∧
      e'.Conserves leaves := by
  obtain ⟨entity, hread, -, hshows⟩ :=
    h.read_octets (fun r hr => (hs.images r hr).simple) hs.attachments hq
  obtain ⟨text, hpieces, htext⟩ := exists_pieces_part e
  rw [hpieces] at hshows
  have hsound : Sound { e with text } := { h with }
  have hseparable : Separable { e with text } := ⟨hs.images, hs.attachments⟩
  have hsorted := hsound.sorted_leaves hseparable hshows
  have hmessage : ofMessage (e.render mint).1 = ofEntity entity := by rw [ofMessage, hread]
  obtain ⟨e', hread', hconserves⟩ :=
    ofEntity_conserves (List.findSome?_eq_none_iff.2 hsorted.sound)
  exact ⟨e', entity.leaves, text, htext, hsorted, hmessage.trans hread', hconserves⟩

/-- A letter is read with an image for each of its images and an attachment for each of its
attachments. -/
theorem Sound.read_resources [Charsets] (h : e.Sound) (hs : e.Separable) {mint : Mint}
    (hq : e.Quiet mint) : ∃ e' images attachments, ofMessage (e.render mint).1 = .ok e' ∧
      ShowsAll images (e.images.map (Piece.resource · true)) ∧ e'.images = images.map Leaf.image ∧
      ShowsAll attachments (e.attachments.map (Piece.resource · false)) ∧
      e'.attachments = attachments.map Leaf.attachment := by
  obtain ⟨e', leaves, text, -, hsorted, hread, hconserves⟩ := h.read_sorted hs hq
  exact ⟨e', _, _, hread, hsorted.images, hconserves.images, hsorted.attachments,
    hconserves.attachments⟩

theorem map_image_quoted [Charsets] {rs : List Resource}
    (hl : ShowsAll leaves (rs.map (Piece.resource · true)))
    (hr : ∀ r ∈ rs, r.Addressable ∧ r.Valid ∧ r.name ≠ none) :
    leaves.map Leaf.image = rs.map Resource.quoted := by
  induction rs generalizing leaves with
  | nil =>
      cases hl
      rfl
  | cons r rs ih =>
      obtain _ | ⟨hshows, hrest⟩ := hl
      obtain ⟨hfirst, hothers⟩ := List.forall_mem_cons.1 hr
      rw [List.map_cons, List.map_cons, (Leaf.image_quoted hshows hfirst.1 hfirst.2).2,
        ih hrest hothers]

/-- What is read of an image is what it was exactly if its name needs no quoting. -/
theorem contentOf_quoted_iff (r : Resource) : contentOf r.quoted = contentOf r ↔
    ∀ n, r.name = some n → ∀ c ∈ n, c ≠ '\\' ∧ c ≠ '"' := by
  have hname : r.quoted.name = r.name.map Quoted.escape := by simp [Resource.quoted, Resource.name]
  rw [contentOf, hname]
  cases hn : r.name with
  | none => simp [contentOf, hn, Resource.quoted]
  | some n => simp [contentOf, hn, Resource.quoted, Quoted.escape_eq_self_iff]

theorem Sound.read_images [Charsets] (h : e.Sound) (hs : e.Separable) {mint : Mint}
    (hq : e.Quiet mint) :
    ∃ e', ofMessage (e.render mint).1 = .ok e' ∧ e'.images = e.images.map Resource.quoted := by
  obtain ⟨e', images, -, hread, hshows, himages, -, -⟩ := h.read_resources hs hq
  exact ⟨e', hread,
    himages.trans (map_image_quoted hshows fun r hr => ⟨hs.images r hr, h.images r hr⟩)⟩

/-- The images of a letter come back in their order, each with its type, its data and its name as
quoted; so all come back as they were exactly if no name has a quote or a backslash. -/
theorem ofMessage_render_images [Charsets] (h : Reachable e) (hs : e.Separable) {mint : Mint}
    (hq : e.Quiet mint) : ∃ e', ofMessage (e.render mint).1 = .ok e' ∧
      e'.images = e.images.map Resource.quoted ∧
      (e'.images.map contentOf = e.images.map contentOf ↔
        ∀ r ∈ e.images, ∀ n, r.name = some n → ∀ c ∈ n, c ≠ '\\' ∧ c ≠ '"') := by
  obtain ⟨e', hread, hquoted⟩ := h.sound.read_images hs hq
  refine ⟨e', hread, hquoted, ?_⟩
  rw [hquoted, List.map_map, List.map_inj_left]
  exact forall₂_congr fun r _ => contentOf_quoted_iff r

def poster (name : Text) : Email :=
  { empty with
    html := some "<p>Look:</p>".toList
    images := [⟨some name, ⟨none, "image/png".toList, [0x89, 0x50, 0x4E, 0x47]⟩⟩] }

theorem poster_reachable [Charsets] {name : Text} (hn : name ≠ []) : Reachable (poster name) := by
  obtain ⟨c, rest, rfl⟩ := List.exists_cons_of_ne_nil hn
  have hhtml := Reachable.empty.write (.setHtml (some "<p>Look:</p>".toList)) trivial rfl rfl
  exact hhtml.write (.embed (c :: rest) [0x89, 0x50, 0x4E, 0x47] "image/png".toList) trivial rfl rfl

theorem poster_separable {name : Text} (hcontrol : Text.hasControl name = false)
    (hangles : '<' ∉ name ∧ '>' ∉ name) (hplain : Plain name) : (poster name).Separable := by
  have htype : MediaType.IsSimple "image/png".toList :=
    ⟨"image".toList, "png".toList, rfl, by decide⟩
  have hsingle : "multipart/".toList.isPrefixOf "image/png".toList = false := by decide
  have hplace : "image/png".toList ∉
      ["text/plain".toList, "text/html".toList, "message/rfc822".toList] := by decide
  refine ⟨fun r hr => ?_, fun r hr => nomatch hr⟩
  rw [List.mem_singleton.1 hr]
  refine ⟨⟨htype, hsingle⟩, hplace, ?_, ?_, ?_⟩
  all_goals
    rintro n ⟨⟩
    assumption

theorem poster_quiet (name : Text) (mint : Mint) : (poster name).Quiet mint := by
  refine quiet_of_no_dash (fun t ht => nomatch ht) ?_ fun m hm => nomatch hm
  rintro t ⟨⟩
  decide

/-- A name with a blank, a semicolon and a letter beyond ASCII. -/
theorem ofMessage_render_images_poster : ∃ e',
    ofMessage ((poster "Bär; v2").render ⟨0, fun _ => 0⟩).1 = .ok e' ∧
    e'.images.map contentOf =
      [(some "Bär; v2".toList, "image/png".toList, [0x89, 0x50, 0x4E, 0x47])] := by
  obtain ⟨e', hread, -, hsame⟩ := ofMessage_render_images (poster_reachable (by decide))
    (poster_separable (by decide) (by decide) (by decide)) (poster_quiet "Bär; v2" ⟨0, fun _ => 0⟩)
  refine ⟨e', hread, hsame.2 fun r hr n hn => ?_⟩
  rw [List.mem_singleton.1 hr] at hn
  cases hn
  decide

/-- An image whose name holds a backslash is read under another name. -/
theorem image_renamed : Reachable (poster "a\\b") ∧ ∃ e',
    ofMessage ((poster "a\\b").render ⟨0, fun _ => 0⟩).1 = .ok e' ∧
    e'.images.map contentOf =
      [(some "a\\\\b".toList, "image/png".toList, [0x89, 0x50, 0x4E, 0x47])] := by
  have hreach : Reachable (poster "a\\b") := poster_reachable (by decide)
  obtain ⟨e', hread, hquoted⟩ := hreach.sound.read_images
    (poster_separable (by decide) (by decide) (by decide)) (poster_quiet "a\\b" ⟨0, fun _ => 0⟩)
  refine ⟨hreach, e', hread, ?_⟩
  rw [hquoted]
  decide

end Email
end Epistle
