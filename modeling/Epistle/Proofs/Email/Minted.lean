import Epistle.Proofs.Email.Nesting

/-!
The values that renderings make unique. Boundaries and identifiers take their numbers from one
counter, so in any sequence of renderings no number is taken twice before the counter comes round,
and values with different numbers cannot be confused whatever the clock shows.
-/
namespace Epistle

inductive Minted where
  | id (t : Text)
  | boundary (t : Text)
  deriving DecidableEq, Repr

namespace Minted

variable {start number : UInt64} {v : Minted} {vs ws : List Minted}

def id? : Minted → Option Text
  | id t => some t
  | boundary _ => none

def boundary? : Minted → Option Text
  | id _ => none
  | boundary t => some t

def HasNumber (number : UInt64) : Minted → Prop
  | id t => ∃ now domain, t = Mint.messageIdText number now domain
  | boundary t => ∃ now, t = Mint.boundaryText number now

theorem HasNumber.boundary {b : Text} (h : v.HasNumber number) (hb : v.boundary? = some b) :
    ∃ now, b = Mint.boundaryText number now := by
  cases v with
  | id t => cases hb
  | boundary t =>
      cases hb
      exact h

theorem HasNumber.id {t : Text} (h : v.HasNumber number) (ht : v.id? = some t) :
    ∃ now domain, t = Mint.messageIdText number now domain := by
  cases v with
  | id t =>
      cases ht
      exact h
  | boundary t => cases ht

/-- Values that were taken one after the other, the first with the number `start`. -/
def Counted (start : UInt64) (vs : List Minted) : Prop :=
  ∀ i v, vs[i]? = some v → HasNumber (start + UInt64.ofNat i) v

theorem counted_nil (start : UInt64) : Counted start [] := by
  intro i v hv
  cases hv

theorem counted_singleton (h : v.HasNumber start) : Counted start [v] := by
  intro i w hw
  cases i with
  | zero =>
      cases hw
      have hstart : start + UInt64.ofNat 0 = start := UInt64.add_zero start
      rwa [hstart]
  | succ i => cases hw

theorem Counted.append (hvs : Counted start vs)
    (hws : Counted (start + UInt64.ofNat vs.length) ws) : Counted start (vs ++ ws) := by
  intro i v hv
  by_cases hi : i < vs.length
  · rw [List.getElem?_append_left hi] at hv
    exact hvs i v hv
  · obtain ⟨j, rfl⟩ := Nat.exists_eq_add_of_le (Nat.le_of_not_lt hi)
    rw [List.getElem?_append_right (Nat.le_add_right _ _), Nat.add_sub_cancel_left] at hv
    rw [UInt64.ofNat_add, ← UInt64.add_assoc]
    exact hws j v hv

theorem counted_boundaries {bs : List Text} (h : Mint.Numbered start bs) :
    Counted start (bs.map boundary) := by
  intro i v hv
  rw [List.getElem?_map, Option.map_eq_some_iff] at hv
  obtain ⟨b, hb, rfl⟩ := hv
  exact Mint.number_of_getElem? h hb

/-- Until the counter comes round the numbers differ, and so does all that depends on them. -/
theorem Counted.pairwise (h : Counted start vs) (hlength : vs.length < UInt64.size)
    {R : Minted → Minted → Prop}
    (hR : ∀ m n v w, m ≠ n → HasNumber m v → HasNumber n w → R v w) : vs.Pairwise R := by
  rw [List.pairwise_iff_getElem]
  intro i j hi hj hij
  exact hR _ _ _ _ (Mint.number_ne hij (hj.trans hlength)) (h i _ (List.getElem?_eq_getElem hi))
    (h j _ (List.getElem?_eq_getElem hj))

end Minted

namespace Part

/-- No line begins with the delimiters of both boundaries. -/
structure Unconfused (b c : Text) : Prop where
  ne : b ≠ c
  not_prefix : ¬ b <+: c ∧ ¬ c <+: b
  lines : ∀ line : Octets, ¬ ((Entity.mark b).isPrefixOf line ∧ (Entity.mark c).isPrefixOf line)

theorem not_prefix_of_ne {m n : UInt64} (h : m ≠ n) (now later : Date.Instant) :
    ¬ Mint.boundaryText m now <+: Mint.boundaryText n later := by
  intro hprefix
  have hlong : Mint.boundaryText m now <+: Mint.boundaryText n later ++ [] := by
    rwa [List.append_nil]
  exact h (Mint.number_of_prefix hlong)

theorem unconfused_of_ne {m n : UInt64} (h : m ≠ n) (now later : Date.Instant) :
    Unconfused (Mint.boundaryText m now) (Mint.boundaryText n later) := by
  have hfirst := not_prefix_of_ne h now later
  have hsecond := not_prefix_of_ne h.symm later now
  have hmark : ∀ {b c : Text}, Entity.mark b <+: Entity.mark c → b <+: c := by
    intro b c hprefix
    exact (List.prefix_append_right_inj _).1 (Utf8.prefix_of_encode hprefix)
  refine ⟨?_, ⟨hfirst, hsecond⟩, ?_⟩
  · intro hsame
    rw [hsame] at hfirst
    exact hfirst List.prefix_rfl
  · rintro line ⟨hb, hc⟩
    rcases List.prefix_or_prefix_of_prefix (List.isPrefixOf_iff_prefix.1 hb)
      (List.isPrefixOf_iff_prefix.1 hc) with hprefix | hprefix
    · exact hfirst (hmark hprefix)
    · exact hsecond (hmark hprefix)

end Part

namespace Email

open Minted (Counted)

/-- The identifier of a message, if its letter has none that can be shown. -/
def mintedId (e : Email) (mint : Mint) : List Minted :=
  match e.id.filter (fun id => !Text.hasControl id) with
  | some _ => []
  | none => [.id (e.messageId mint).1]

/-- What a rendering generates, in the order of the numbers: the identifier, and the boundaries of
the body that it writes. -/
def minted (e : Email) (mint : Mint) : List Minted :=
  e.mintedId mint ++ (e.topPart mint).boundaries.map .boundary

/-- What renderings generate, each from the mint that the one before it left. -/
def mintedAll : List Email → Mint → List Minted
  | [], _ => []
  | e :: es, mint => e.minted mint ++ mintedAll es (e.render mint).2

theorem counted_mintedId (e : Email) (mint : Mint) : Counted mint.counter (e.mintedId mint) ∧
    (e.messageId mint).2.counter = mint.counter + UInt64.ofNat (e.mintedId mint).length := by
  rw [mintedId, messageId]
  cases e.id.filter (fun id => !Text.hasControl id) with
  | some id => exact ⟨Minted.counted_nil _, (UInt64.add_zero _).symm⟩
  | none => exact ⟨Minted.counted_singleton ⟨_, _, rfl⟩, rfl⟩

/-- A rendering takes one number for each value that it generates. -/
theorem counted_minted (e : Email) (mint : Mint) : Counted mint.counter (e.minted mint) ∧
    (e.render mint).2.counter = mint.counter + UInt64.ofNat (e.minted mint).length := by
  obtain ⟨hid, hcounter⟩ := counted_mintedId e mint
  obtain ⟨hnumbered, hlength, -⟩ :=
    Part.numbered_stamp e.part (Mint.readClock (e.messageId mint).2).2
  have hstart : (Mint.readClock (e.messageId mint).2).2.counter =
      mint.counter + UInt64.ofNat (e.mintedId mint).length := hcounter
  rw [hstart] at hnumbered
  refine ⟨hid.append (Minted.counted_boundaries hnumbered), ?_⟩
  have hboundaries : (e.topPart mint).boundaries.length = e.part.boundaries.length := hlength
  rw [counter_stamped, hcounter, minted, List.length_append, List.length_map, hboundaries,
    UInt64.ofNat_add, UInt64.add_assoc]

theorem counted_mintedAll (es : List Email) (mint : Mint) :
    Counted mint.counter (mintedAll es mint) := by
  induction es generalizing mint with
  | nil => exact Minted.counted_nil _
  | cons e es ih =>
      obtain ⟨hfirst, hcounter⟩ := counted_minted e mint
      have hrest := ih (e.render mint).2
      rw [hcounter] at hrest
      exact hfirst.append hrest

/-- However many letters are rendered one after the other, whatever they carry and whatever the
clock shows, no boundary is taken for another and no identifier is given twice. -/
theorem minted_apart (es : List Email) (mint : Mint)
    (h : (mintedAll es mint).length < UInt64.size) :
    ((mintedAll es mint).filterMap Minted.boundary?).Pairwise Part.Unconfused ∧
      ((mintedAll es mint).filterMap Minted.id?).Pairwise (· ≠ ·) := by
  have hcounted := counted_mintedAll es mint
  constructor
  · rw [List.pairwise_filterMap]
    refine hcounted.pairwise h fun m n v w hne hv hw b hb c hc => ?_
    obtain ⟨now, rfl⟩ := hv.boundary hb
    obtain ⟨later, rfl⟩ := hw.boundary hc
    exact Part.unconfused_of_ne hne now later
  · rw [List.pairwise_filterMap]
    refine hcounted.pairwise h fun m n v w hne hv hw s hs t ht hsame => ?_
    obtain ⟨now, domain, rfl⟩ := hv.id hs
    obtain ⟨later, other, rfl⟩ := hw.id ht
    exact hne (Mint.number_of_messageIdText hsame)

def twofold : Email := { (∅ : Email) with text := some "plain", html := some "<b>bold</b>" }

/-- From nine on, the numbers get longer. -/
def nearTen : Mint := ⟨9, fun i => 1000 * i⟩

/-- The second carries the first, and the third has an identifier of its own. -/
def letters : List Email :=
  [twofold, { twofold with forwarded := some (twofold.render nearTen).1 },
    { twofold with id := some "<own@x.com>" }]

theorem minted_apart_letters : (mintedAll letters nearTen).length < UInt64.size ∧
    (mintedAll letters nearTen).filterMap Minted.id? =
      ["<0.9@missive.local>".toList, "<3000.11@missive.local>".toList] ∧
    (mintedAll letters nearTen).filterMap Minted.boundary? =
      ["----=_Part_10_2".toList, "----=_Part_12_5".toList, "----=_Part_13_6".toList,
        "----=_Part_14_8".toList] ∧
    ((mintedAll letters nearTen).filterMap Minted.boundary?).Pairwise Part.Unconfused ∧
    ((mintedAll letters nearTen).filterMap Minted.id?).Pairwise (· ≠ ·) := by
  have hfew : (mintedAll letters nearTen).length < UInt64.size := by decide
  obtain ⟨hboundaries, hids⟩ := minted_apart letters nearTen hfew
  exact ⟨hfew, by decide, by decide, hboundaries, hids⟩

end Email
end Epistle
