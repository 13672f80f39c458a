import Epistle.Proofs.Email.BodyRoundTrip

/-!
Letters of texts inside each other. A rendering shows no boundary that is taken after it, so it can
be carried whole by a later letter, and what a letter carries is found again octet for octet.
-/
namespace Epistle

open Delimiter (StartsLine)
open Epistle.Part (IsBoundary delimiter)

namespace Message

/-- No line of the message begins with a delimiter of the boundary. -/
def Clear (m : Message) (b : Text) : Prop := Delimiter.cut? (delimiter b) m.octets = none

end Message

namespace Email

variable {e : Email} {mint : Mint} {b t : Text} {number : UInt64} {now : Date.Instant}

/-- No line of the text begins like a boundary. -/
def Calm (t : Text) : Prop :=
  ¬ StartsLine (Utf8.encode "------=_Part_".toList) (Utf8.encode t)

theorem front_delimiter (number : UInt64) (now : Date.Instant) :
    "------=_Part_".toList <+: "--".toList ++ Mint.boundaryText number now := by
  have hjoin : "------=_Part_".toList = "--".toList ++ "----=_Part_".toList := by decide
  have hfront : "----=_Part_".toList <+: Mint.boundaryText number now :=
    ((List.prefix_append _ _).trans (List.prefix_append _ _)).trans (List.prefix_append _ _)
  rwa [hjoin, List.prefix_append_right_inj]

theorem Calm.not_startsLine (h : Calm t) (hb : IsBoundary b) :
    ¬ StartsLine (delimiter b) (Utf8.encode t) := by
  obtain ⟨number, now, rfl⟩ := hb
  rintro ⟨before, after, ht, hlast⟩
  obtain ⟨rest, hrest⟩ := front_delimiter number now
  refine h ⟨before, Utf8.encode rest ++ after, ?_, hlast⟩
  rw [ht, delimiter, ← hrest, Utf8.encode_append, List.append_assoc, List.append_assoc,
    List.append_assoc]

/-- A letter of at most two texts and a message, none of whose texts looks like a boundary. -/
structure Light (e : Email) : Prop where
  images : e.images = []
  attachments : e.attachments = []
  text : ∀ t, e.text = some t → Calm t
  html : ∀ t, e.html = some t → Calm t

theorem counter_messageId (e : Email) (mint : Mint) :
    ∃ k ≤ 1, (e.messageId mint).2.counter = mint.counter + UInt64.ofNat k := by
  rw [messageId]
  cases e.id.filter (fun id => !Text.hasControl id) with
  | none => exact ⟨1, by decide, rfl⟩
  | some id => exact ⟨0, by decide, (UInt64.add_zero _).symm⟩

theorem counter_stamped (e : Email) (mint : Mint) : (e.render mint).2.counter =
    (e.messageId mint).2.counter + UInt64.ofNat e.part.boundaries.length :=
  (Part.numbered_stamp e.part (Mint.readClock (e.messageId mint).2).2).2.2

theorem counter_render (e : Email) {mint : Mint} (h : mint.counter.toNat + 4 < UInt64.size) :
    mint.counter ≤ (e.render mint).2.counter ∧
      (e.render mint).2.counter.toNat ≤ mint.counter.toNat + 4 := by
  obtain ⟨k, hk, hid⟩ := counter_messageId e mint
  have hfew := boundaries_part e
  change mint.counter.toNat + 4 < 18446744073709551616 at h
  simp only [counter_stamped, hid, UInt64.le_iff_toNat_le, UInt64.toNat_add, UInt64.toNat_ofNat']
  omega

/-- Unless the counter comes round, the boundaries of a rendering have numbers from where it stood
before to where it stands afterwards. -/
theorem number_of_boundaries (h : mint.counter ≤ (e.render mint).2.counter)
    (hb : b ∈ (e.topPart mint).boundaries) : ∃ number now, b = Mint.boundaryText number now ∧
      mint.counter ≤ number ∧ number < (e.render mint).2.counter := by
  obtain ⟨hnumbered, hlength, -⟩ :=
    Part.numbered_stamp e.part (Mint.readClock (e.messageId mint).2).2
  obtain ⟨j, hj, now, hnow⟩ := Mint.number_of_mem hnumbered hb
  obtain ⟨k, hk, hid⟩ := counter_messageId e mint
  have hfew := boundaries_part e
  have hbefore := mint.counter.toNat_lt
  have hstart : (Mint.readClock (e.messageId mint).2).2.counter =
      mint.counter + UInt64.ofNat k := hid
  refine ⟨_, now, hnow, ?_⟩
  simp only [counter_stamped, hid, hstart, UInt64.le_iff_toNat_le, UInt64.lt_iff_toNat_lt,
    UInt64.toNat_add, UInt64.toNat_ofNat'] at h ⊢
  omega

theorem not_prefix_of_head {name : Text} (h : name.head? ≠ some '-') :
    ¬ "--".toList ++ b <+: name := by
  rintro ⟨rest, rfl⟩
  exact h rfl

/-- The line of a field whose name does not begin with a delimiter does not either. -/
theorem isPrefixOf_field (hb : IsBoundary b) {name value : Text}
    (h : ¬ "--".toList ++ b <+: name) : (delimiter b).isPrefixOf
      ((Field.ofText name value).name ++ Field.colon :: Field.space ::
        (Field.ofText name value).value) = false := by
  have hcolon : Field.colon ∉ delimiter b := by
    obtain ⟨number, now, rfl⟩ := hb
    refine Utf8.not_mem_encode (by decide) ?_
    intro c hc hn
    have hdashes : ∀ c ∈ "--".toList, Mint.isBoundaryChar c := by decide
    have hc : Mint.isBoundaryChar c := by
      rcases List.mem_append.1 hc with hc | hc
      · exact hdashes c hc
      · exact Mint.isBoundaryChar_of_mem hc
    have hsame : c = ':' := Char.toNat_inj.1 hn
    rw [hsame] at hc
    exact absurd hc (by decide)
  rw [Delimiter.isPrefixOf_append hcolon, Bool.eq_false_iff]
  exact fun hp => h (Utf8.prefix_of_encode (List.isPrefixOf_iff_prefix.1 hp))

/-- Only the names of custom fields can begin with a delimiter. -/
theorem Sound.isPrefixOf_fields (h : e.Sound) (hb : IsBoundary b)
    (hnames : ∀ p ∈ e.headers, ¬ "--".toList ++ b <+: p.1) :
    ∀ f ∈ e.topFields mint ++ (e.topPart mint).fields, (delimiter b).isPrefixOf
      (f.name ++ Field.colon :: Field.space :: f.value) = false := by
  have hmark := Part.isMark_delimiter hb
  have hpart := Part.fields_clean (h.topPart_valid mint)
  have hother : ∀ name ∈ headNames ++ ["MIME-Version".toList], name.head? ≠ some '-' := by decide
  simp only [topFields_eq, List.forall_mem_append, List.forall_mem_singleton]
  refine ⟨⟨?_, ?_, ?_⟩, ?_⟩
  · intro f hf
    obtain ⟨name, value, hp, rfl⟩ := Field.mem_ofPairs hf
    have hname : name ∈ (e.pairs mint).map (·.1) := List.mem_map_of_mem hp
    rw [names_pairs] at hname
    exact isPrefixOf_field hb (not_prefix_of_head (hother name (List.mem_append_left _ hname)))
  · intro f hf
    obtain ⟨p, hp, rfl⟩ := List.mem_map.1 hf
    exact isPrefixOf_field hb (hnames p (List.mem_filter.1 hp).1)
  · exact isPrefixOf_field hb (not_prefix_of_head (by decide))
  · exact fun f hf => Part.isPrefixOf_line hmark (hpart f hf) (Part.name_fields hf)

/-- A boundary that is taken after a rendering is not shown by it, unless a header has guessed its
delimiter. -/
theorem Sound.clear_render (hsound : e.Sound) (h : e.Light)
    (hcount : mint.counter ≤ (e.render mint).2.counter)
    (hlater : (e.render mint).2.counter ≤ number)
    (hnames : ∀ p ∈ e.headers, ¬ "--".toList ++ Mint.boundaryText number now <+: p.1)
    (hclear : ∀ m, e.forwarded = some m → m.Clear (Mint.boundaryText number now)) :
    (e.render mint).1.Clear (Mint.boundaryText number now) := by
  have hb : IsBoundary (Mint.boundaryText number now) := ⟨number, now, rfl⟩
  have hmark := Part.isMark_delimiter hb
  have hvalid := hsound.topPart_valid mint
  have hclean : ∀ f ∈ e.topFields mint ++ (e.topPart mint).fields, f.Clean :=
    List.forall_mem_append.2 ⟨hsound.topFields_clean mint, Part.fields_clean hvalid⟩
  have hbody : Delimiter.cut? (delimiter (Mint.boundaryText number now))
      (e.topPart mint).body = none := by
    -- The boundaries of the rendering have earlier numbers, and the texts show none at all.
    refine Part.cut?_body hb hvalid ?_ ?_
    · intro c hc
      obtain ⟨earlier, before, rfl, -, hearlier⟩ := number_of_boundaries hcount hc
      refine Part.apart_of_ne ?_ now before
      rintro rfl
      exact absurd hearlier (UInt64.not_lt.2 hlater)
    · rw [topPart, Part.pieces_stamp]
      exact clear_part hb (fun t ht => (h.text t ht).not_startsLine hb)
        (fun t ht => (h.html t ht).not_startsLine hb) hclear
  rw [Message.Clear, render_octets]
  exact Part.cut?_lines hmark hclean (hsound.isPrefixOf_fields hb hnames) hbody

theorem Light.separable (h : e.Light) : e.Separable :=
  ⟨by simp [h.images], by simp [h.attachments]⟩

theorem Light.quiet (h : e.Light)
    (hclear : ∀ b ∈ (e.topPart mint).boundaries, ∀ m, e.forwarded = some m → m.Clear b) :
    e.Quiet mint := by
  have hboundary := (boundaries_topPart e mint).2
  have hmark : ∀ b ∈ (e.topPart mint).boundaries, delimiter b ≠ [] :=
    fun b hb => (Part.isMark_delimiter (hboundary b hb)).ne_nil
  exact ⟨fun b hb t ht => (h.text t ht).not_startsLine (hboundary b hb),
    fun b hb t ht => (h.html t ht).not_startsLine (hboundary b hb),
    fun b hb m hm => (Delimiter.cut?_eq_none_iff (hmark b hb)).1 (hclear b hb m hm)⟩

theorem Sound.ofMessage_light [Charsets] (hsound : e.Sound) (h : e.Light)
    (hclear : ∀ b ∈ (e.topPart mint).boundaries, ∀ m, e.forwarded = some m → m.Clear b) :
    ∃ e', ofMessage (e.render mint).1 = .ok e' ∧ e'.forwarded = e.forwarded := by
  obtain ⟨e', leaves, text, -, hsorted, hread, hconserves⟩ :=
    hsound.read_sorted h.separable (h.quiet hclear)
  exact ⟨e', hread, hconserves.forwarded.trans hsorted.forwarded.content⟩

end Email
end Epistle
