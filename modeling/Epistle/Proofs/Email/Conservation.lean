import Epistle.Proofs.Email.HeaderRoundTrip

/-!
What becomes of the leaves of a message. A leaf has one use, which depends on the leaves in front of
it: the first that has anything for a place of the letter fills the place, and what no place takes
is kept in document order unless it is empty. So nothing that a message carries is lost or doubled.
-/
namespace Epistle

open LineEnding (collapse)

/-- The places of a letter that one leaf fills each. -/
inductive Place where
  | text | html | forwarded
  deriving DecidableEq

def Place.type : Place → Text
  | text => "text/plain"
  | html => "text/html"
  | forwarded => "message/rfc822"

inductive Use where
  | place (p : Place) | image | attachment | nothing
  deriving DecidableEq

theorem Place.type_injective {p q : Place} (h : p.type = q.type) : p = q := by
  cases p <;> cases q <;> first | rfl | exact absurd h (by decide)

section

variable [Charsets]

namespace Leaf

/-- The place for leaves of its type; an attachment has none. -/
def place? (l : Leaf) : Option Place :=
  if l.isAttachment then none
  else [Place.text, Place.html, Place.forwarded].find? fun p => l.typeName == p.type

/-- The text with plain line feeds, unless it is empty. -/
def prose? (l : Leaf) : Option Text := (l.text.toOption.map collapse).filter (· ≠ [])

def content (l : Leaf) : Octets := l.data.toOption.getD []

/-- The leaf has something for the place: a text that is not empty, or any message. -/
def offers (p : Place) (l : Leaf) : Bool :=
  l.place? == some p && (p == .forwarded || l.prose?.isSome)

/-- What a leaf is kept as that fills no place. -/
def keep (l : Leaf) : Use :=
  if l.content = [] then .nothing
  else if !l.isAttachment && l.contentId?.isSome then .image
  else .attachment

/-- The use of a leaf behind the leaves `before`. A place that is open takes the leaf, even one that
leaves it open. -/
def use (before : List Leaf) (l : Leaf) : Use :=
  match l.place? with
  | none => l.keep
  | some p =>
    if before.any (offers p) then l.keep
    else if l.offers p then .place p
    else .nothing

def usesFrom (before : List Leaf) : List Leaf → List (Leaf × Use)
  | [] => []
  | l :: ls => (l, l.use before) :: usesFrom (before ++ [l]) ls

def usedFrom (before : List Leaf) (u : Use) (ls : List Leaf) : List Leaf :=
  ((usesFrom before ls).filter (·.2 = u)).map (·.1)

def usedAs (u : Use) (ls : List Leaf) : List Leaf := usedFrom [] u ls

/-- Why a leaf cannot be taken, whatever the letter holds by then. -/
def fault? (l : Leaf) : Option ReadError :=
  match l.data with
  | .error err => some (.malformed err)
  | .ok data =>
    if data = [] then none
    else if Text.allBlank l.typeName then some (.unusable (.missing .contentType))
    else if Text.hasControl l.typeName then some (.unusable (.invalid .contentType))
    else none

/-- The octets under the type that is stated for them. -/
def source (l : Leaf) : DataSource := ⟨none, Text.trim l.typeName, l.content⟩

def image (l : Leaf) : Resource := ⟨l.contentId?, l.source⟩

def attachment (l : Leaf) : Resource := .make (l.fileName?.map EncodedWord.encode) l.source

end Leaf

/-- What the first leaf that has something for a place puts there. -/
def Slots.first (ls : List Leaf) : Slots :=
  ⟨(ls.find? (Leaf.offers .text)).bind Leaf.prose?, (ls.find? (Leaf.offers .html)).bind Leaf.prose?,
    (ls.find? (Leaf.offers .forwarded)).map fun l => ⟨l.content⟩⟩

namespace Slots

def has (s : Slots) : Place → Bool
  | .text => s.text.isSome
  | .html => s.html.isSome
  | .forwarded => s.forwarded.isSome

def put (s : Slots) (l : Leaf) : Place → Slots
  | .text => { s with text := l.prose? }
  | .html => { s with html := l.prose? }
  | .forwarded => { s with forwarded := some ⟨l.content⟩ }

end Slots

namespace Email

def withLeaf (e : Email) (l : Leaf) : Use → Email
  | .image => { e with images := e.images ++ [l.image] }
  | .attachment => { e with attachments := e.attachments ++ [l.attachment] }
  | _ => e

/-- The letter and its places once a leaf has been taken. -/
def settle (state : Email × Slots) (l : Leaf) : Email × Slots :=
  match l.place? with
  | none => (state.1.withLeaf l l.keep, state.2)
  | some p =>
    if state.2.has p then (state.1.withLeaf l l.keep, state.2) else (state.1, state.2.put l p)

variable {e : Email} {slots : Slots} {l : Leaf}

theorem contentId_ne_nil {id : Text} (h : l.contentId? = some id) : id ≠ [] := by
  simpa using (Option.filter_eq_some_iff.1 h).2

theorem readResource_eq (e : Email) (l : Leaf) : readResource e l =
    match l.fault? with
    | some err => .error err
    | none => .ok (e.withLeaf l l.keep) := by
  rw [readResource, Leaf.fault?]
  cases hd : l.data with
  | error err => rfl
  | ok data =>
      have hcontent : l.content = data := by rw [Leaf.content, hd]; rfl
      cases data with
      | nil => simp [withLeaf, Leaf.keep, hcontent]
      | cons b data =>
          simp only [DataSource.make, if_neg (List.cons_ne_nil b data)]
          by_cases hblank : Text.allBlank l.typeName = true
          · simp only [if_pos hblank]
          · by_cases hcontrol : Text.hasControl l.typeName = true
            · simp only [if_neg hblank, if_pos hcontrol]
            · simp only [if_neg hblank, if_neg hcontrol]
              have hsource : (⟨none, Text.trim l.typeName, b :: data⟩ : DataSource) = l.source := by
                rw [Leaf.source, hcontent]
              rw [hsource, Leaf.keep, hcontent, if_neg (List.cons_ne_nil b data)]
              cases hid : l.contentId? with
              | none => simp [attachSource, withLeaf, Leaf.attachment]
              | some id =>
                  cases hplace : l.isAttachment with
                  | true => simp [attachSource, withLeaf, Leaf.attachment]
                  | false =>
                      simp only [embedSource_named (contentId_ne_nil hid), withLeaf, Leaf.image,
                        hid]
                      rfl

theorem leafText_eq_prose? (l : Leaf) : leafText l =
    match l.data with
    | .error err => .error (.malformed err)
    | .ok _ => .ok l.prose? := by
  rw [leafText, Leaf.prose?, Leaf.text]
  cases l.data with
  | error err => rfl
  | ok data => rfl

theorem place?_eq_some {p : Place} :
    l.place? = some p ↔ l.isAttachment = false ∧ l.typeName = p.type := by
  have hall : ∀ p : Place, p ∈ [Place.text, Place.html, Place.forwarded] := by
    intro p
    cases p <;> decide
  rw [Leaf.place?]
  cases l.isAttachment with
  | true => simp only [if_true, reduceCtorEq, Bool.true_eq_false, false_and]
  | false =>
      simp only [Bool.false_eq_true, if_false, true_and]
      constructor
      · intro h
        have htype := List.find?_some h
        exact beq_iff_eq.1 htype
      · intro h
        cases hq : [Place.text, Place.html, Place.forwarded].find? (l.typeName == ·.type) with
        | none => exact absurd (beq_iff_eq.2 h) (List.find?_eq_none.1 hq p (hall p))
        | some q =>
            have htype := List.find?_some hq
            exact congrArg some (Place.type_injective ((beq_iff_eq.1 htype).symm.trans h))

/-- Where a leaf has a place its type is no reason to refuse it. -/
theorem fault?_of_place {p : Place} (h : l.place? = some p) : l.fault? =
    match l.data with
    | .error err => some (.malformed err)
    | .ok _ => none := by
  have hfit : Text.allBlank p.type = false ∧ Text.hasControl p.type = false := by
    cases p <;> decide
  rw [Leaf.fault?, (place?_eq_some.1 h).2, hfit.1, hfit.2]
  cases l.data with
  | error err => rfl
  | ok data => simp

theorem opens_iff {α : Type} (l : Leaf) (p : Place) (filled : Option α)
    (h : slots.has p = filled.isSome) :
    ((!l.isAttachment) = true ∧ l.typeName = p.type ∧ filled = none) ↔
      l.place? = some p ∧ slots.has p = false := by
  rw [place?_eq_some, h, Option.isSome_eq_false_iff, Option.isNone_iff_eq_none, and_assoc,
    Bool.not_eq_true']

/-- A leaf is refused for a fault of its own; otherwise it fills its place if that is open, and is
kept if not. -/
theorem readLeaf_eq (e : Email) (slots : Slots) (l : Leaf) : readLeaf (e, slots) l =
    match l.fault? with
    | some err => .error err
    | none => .ok (settle (e, slots) l) := by
  -- The three places are asked for in the same way: the leaf is of their type and they are open.
  have htext : ((!l.isAttachment) = true ∧ l.typeName = "text/plain".toList ∧ slots.text = none) ↔
      l.place? = some .text ∧ slots.has .text = false := opens_iff l .text _ rfl
  have hhtml : ((!l.isAttachment) = true ∧ l.typeName = "text/html".toList ∧ slots.html = none) ↔
      l.place? = some .html ∧ slots.has .html = false := opens_iff l .html _ rfl
  have hforwarded : ((!l.isAttachment) = true ∧ l.typeName = "message/rfc822".toList ∧
      slots.forwarded = none) ↔ l.place? = some .forwarded ∧ slots.has .forwarded = false :=
    opens_iff l .forwarded _ rfl
  simp only [readLeaf, htext, hhtml, hforwarded, settle]
  cases hp : l.place? with
  | none =>
      simp only [reduceCtorEq, false_and, if_false, readResource_eq]
      cases l.fault? with
      | none => rfl
      | some err => rfl
  | some p =>
      cases hs : slots.has p with
      | true =>
          have hclosed : ∀ q, ¬ (some p = some q ∧ slots.has q = false) := by
            rintro q ⟨⟨⟩, hq⟩
            rw [hs] at hq
            cases hq
          simp only [if_neg (hclosed _), readResource_eq, hs]
          cases l.fault? with
          | none => rfl
          | some err => rfl
      | false =>
          rw [fault?_of_place hp]
          cases p with
          | text =>
              rw [if_pos ⟨rfl, hs⟩, leafText_eq_prose?]
              cases l.data with
              | error err => rfl
              | ok data => simp only [hs]; rfl
          | html =>
              rw [if_neg (by simp), if_pos ⟨rfl, hs⟩, leafText_eq_prose?]
              cases l.data with
              | error err => rfl
              | ok data => simp only [hs]; rfl
          | forwarded =>
              rw [if_neg (by simp), if_neg (by simp), if_pos ⟨rfl, hs⟩]
              cases hd : l.data with
              | error err => rfl
              | ok data => simp only [hs, Slots.put, Leaf.content, hd]; rfl

theorem readLeaves_eq (ls : List Leaf) (state : Email × Slots) : ls.foldlM readLeaf state =
    match ls.findSome? Leaf.fault? with
    | some err => .error err
    | none => .ok (ls.foldl settle state) := by
  induction ls generalizing state with
  | nil => rfl
  | cons l ls ih =>
      rw [List.foldlM_cons, readLeaf_eq, List.findSome?_cons]
      cases l.fault? with
      | none => exact ih (settle state l)
      | some err => rfl

theorem offers_eq_false {p : Place} (h : l.place? ≠ some p) : l.offers p = false := by
  simp [Leaf.offers, h]

theorem prose?_isSome {p : Place} (hp : p ≠ .forwarded) (h : l.offers p = true) :
    l.prose?.isSome = true := by
  simp only [Leaf.offers, Bool.and_eq_true, Bool.or_eq_true, beq_iff_eq] at h
  exact h.2.resolve_left hp

theorem has_first (ls : List Leaf) (p : Place) :
    (Slots.first ls).has p = ls.any (Leaf.offers p) := by
  have hprose : ∀ q : Place, q ≠ .forwarded →
      ((ls.find? (Leaf.offers q)).bind Leaf.prose?).isSome = (ls.find? (Leaf.offers q)).isSome := by
    intro q hq
    cases hl : ls.find? (Leaf.offers q) with
    | none => rfl
    | some l => exact prose?_isSome hq (List.find?_some hl)
  have hany : (ls.find? (Leaf.offers p)).isSome = ls.any (Leaf.offers p) := List.isSome_find?
  rw [← hany]
  cases p with
  | text => exact hprose _ (by decide)
  | html => exact hprose _ (by decide)
  | forwarded => exact Option.isSome_map

/-- The first leaf that has something for a place stays the first when another comes behind it. -/
theorem find?_concat_of_any {before : List Leaf} {p : Place}
    (h : before.any (Leaf.offers p) = true) (l : Leaf) :
    (before ++ [l]).find? (Leaf.offers p) = before.find? (Leaf.offers p) := by
  have hsome : (before.find? (Leaf.offers p)).isSome = true := by rwa [List.isSome_find?]
  rw [List.find?_append, Option.or_of_isSome hsome]

theorem find?_concat_of_not_any {before : List Leaf} {p : Place}
    (h : before.any (Leaf.offers p) = false) (l : Leaf) :
    (before ++ [l]).find? (Leaf.offers p) = if l.offers p then some l else none := by
  have hnone : before.find? (Leaf.offers p) = none := by
    rw [← Option.not_isSome_iff_eq_none, List.isSome_find?, h]
    decide
  rw [List.find?_append, hnone, Option.none_or, List.find?_singleton]

theorem find?_concat_of_place {before : List Leaf} {p : Place} (h : l.place? ≠ some p) :
    (before ++ [l]).find? (Leaf.offers p) = before.find? (Leaf.offers p) := by
  rw [List.find?_append, List.find?_singleton, offers_eq_false h]
  exact Option.or_none

/-- A text that is empty leaves its place open. -/
theorem prose?_offered {p : Place} (hp : p ≠ .forwarded) (h : l.place? = some p) :
    (if l.offers p then some l else none).bind Leaf.prose? = l.prose? := by
  cases hprose : l.prose? with
  | none => simp [Leaf.offers, hp, hprose]
  | some t => simp [Leaf.offers, h, hprose]

/-- A leaf behind others changes a place only if that is its own and is open. -/
theorem first_concat (before : List Leaf) (l : Leaf) : Slots.first (before ++ [l]) =
    match l.place? with
    | none => Slots.first before
    | some p =>
      if before.any (Leaf.offers p) then Slots.first before else (Slots.first before).put l p := by
  cases hplace : l.place? with
  | none =>
      have hsame : ∀ q, (before ++ [l]).find? (Leaf.offers q) = before.find? (Leaf.offers q) :=
        fun q => find?_concat_of_place (by simp [hplace])
      simp only [Slots.first, hsame]
  | some p =>
      have hother : ∀ q, q ≠ p →
          (before ++ [l]).find? (Leaf.offers q) = before.find? (Leaf.offers q) :=
        fun q hq => find?_concat_of_place (by simpa [hplace] using hq.symm)
      dsimp only
      split
      · rename_i hany
        have hsame : ∀ q, (before ++ [l]).find? (Leaf.offers q) = before.find? (Leaf.offers q) := by
          intro q
          by_cases hq : q = p
          · rw [hq, find?_concat_of_any hany]
          · exact hother q hq
        simp only [Slots.first, hsame]
      · rename_i hany
        have hown := find?_concat_of_not_any (by simpa using hany) l
        cases p with
        | text =>
            rw [Slots.first, hown, prose?_offered (by decide) hplace, hother .html (by decide),
              hother .forwarded (by decide)]
            rfl
        | html =>
            rw [Slots.first, hown, prose?_offered (by decide) hplace, hother .text (by decide),
              hother .forwarded (by decide)]
            rfl
        | forwarded =>
            have hoffers : l.offers .forwarded = true := by simp [Leaf.offers, hplace]
            rw [Slots.first, hown, hoffers, hother .text (by decide), hother .html (by decide)]
            rfl

theorem settle_eq (e : Email) (before : List Leaf) (l : Leaf) :
    settle (e, Slots.first before) l =
      (e.withLeaf l (l.use before), Slots.first (before ++ [l])) := by
  rw [settle, first_concat, Leaf.use]
  cases l.place? with
  | none => rfl
  | some p =>
      simp only [has_first]
      split
      · rfl
      · split
        · rfl
        · rfl

theorem settle_all (e : Email) (before ls : List Leaf) :
    ls.foldl settle (e, Slots.first before) =
      ({ e with
          images := e.images ++ (Leaf.usedFrom before .image ls).map Leaf.image
          attachments := e.attachments ++
            (Leaf.usedFrom before .attachment ls).map Leaf.attachment },
        Slots.first (before ++ ls)) := by
  induction ls generalizing e before with
  | nil => simp [Leaf.usedFrom, Leaf.usesFrom]
  | cons l ls ih =>
      -- The places hold what the leaves in front have put there, so `l` meets its use behind them.
      rw [List.foldl_cons, settle_eq, ih]
      cases hu : l.use before <;>
        simp [Leaf.usedFrom, Leaf.usesFrom, hu, withLeaf]

theorem usedFrom_cons (before : List Leaf) (u : Use) (l : Leaf) (ls : List Leaf) :
    Leaf.usedFrom before u (l :: ls) =
      (if l.use before = u then [l] else []) ++ Leaf.usedFrom (before ++ [l]) u ls := by
  rw [Leaf.usedFrom, Leaf.usesFrom, List.filter_cons]
  split <;> simp_all [Leaf.usedFrom]

theorem use_eq_place {before : List Leaf} {p : Place} :
    l.use before = .place p ↔ before.any (Leaf.offers p) = false ∧ l.offers p = true := by
  have hkeep : l.keep ≠ .place p := by
    rw [Leaf.keep]
    split
    · simp
    · split <;> simp
  rw [Leaf.use]
  cases hplace : l.place? with
  | none =>
      have hoffers : l.offers p = false := offers_eq_false (by simp [hplace])
      simp [hkeep, hoffers]
  | some q =>
      dsimp only
      by_cases hq : q = p
      · subst hq
        generalize before.any (Leaf.offers q) = filled
        cases filled with
        | true => simp [hkeep]
        | false => simp
      · have hoffers : l.offers p = false := offers_eq_false (by simpa [hplace] using hq)
        simp only [hoffers]
        split
        · simp [hkeep]
        · split <;> simp [hq]

/-- A place takes the first leaf that has something for it and no other. -/
theorem usedFrom_place (p : Place) (before ls : List Leaf) :
    Leaf.usedFrom before (.place p) ls =
      if before.any (Leaf.offers p) then [] else (ls.find? (Leaf.offers p)).toList := by
  induction ls generalizing before with
  | nil => simp [Leaf.usedFrom, Leaf.usesFrom]
  | cons l ls ih =>
      rw [usedFrom_cons, ih, List.any_append, List.any_cons, List.any_nil, Bool.or_false]
      simp only [use_eq_place]
      cases before.any (Leaf.offers p) with
      | true => simp
      | false =>
          cases ho : l.offers p with
          | true => simp [ho]
          | false => simp [ho]

/-- Where no place is asked for twice, what is kept is what asks for none. -/
theorem usedFrom_kept {u : Use} (hplace : ∀ p, u ≠ .place p) (hnothing : u ≠ .nothing)
    {before ls : List Leaf} (honce : ((before ++ ls).filterMap Leaf.place?).Nodup) :
    Leaf.usedFrom before u ls = ls.filter fun l => l.place? = none ∧ l.keep = u := by
  induction ls generalizing before with
  | nil => rfl
  | cons l ls ih =>
      rw [usedFrom_cons, ih (by simpa using honce), List.filter_cons]
      cases hl : l.place? with
      | none =>
          have huse : l.use before = l.keep := by rw [Leaf.use, hl]
          rw [huse]
          split <;> simp_all
      | some p =>
          -- No leaf in front has the place of `l`, so that is open.
          have hopen : before.any (Leaf.offers p) = false := by
            rw [List.any_eq_false]
            intro x hx
            rw [Bool.not_eq_true]
            refine offers_eq_false fun hp => ?_
            rw [List.filterMap_append, List.filterMap_cons_some hl] at honce
            exact (List.nodup_append.1 honce).2.2 p (List.mem_filterMap.2 ⟨x, hx, hp⟩) p
              List.mem_cons_self rfl
          have huse : l.use before ≠ u := by
            rw [Leaf.use, hl]
            dsimp only
            rw [hopen]
            split
            · rename_i hfull
              cases hfull
            · split
              · exact (hplace p).symm
              · exact hnothing.symm
          rw [if_neg huse]
          simp

/-- Every leaf has a use and no second one. -/
theorem length_usedFrom (before ls : List Leaf) :
    (Leaf.usedFrom before (.place .text) ls).length +
      (Leaf.usedFrom before (.place .html) ls).length +
      (Leaf.usedFrom before (.place .forwarded) ls).length +
      (Leaf.usedFrom before .image ls).length + (Leaf.usedFrom before .attachment ls).length +
      (Leaf.usedFrom before .nothing ls).length = ls.length := by
  induction ls generalizing before with
  | nil => rfl
  | cons l ls ih =>
      have hrest := ih (before ++ [l])
      simp only [usedFrom_cons, List.length_append, List.length_cons]
      cases l.use before with
      | place p => cases p <;> simp <;> omega
      | image | attachment | nothing => simp; omega

/-- A place of the letter holds something exactly if a leaf is used for it. -/
theorem length_usedFrom_place (p : Place) (ls : List Leaf) :
    (Leaf.usedFrom [] (.place p) ls).length = ((Slots.first ls).has p).toNat := by
  have hfound : (ls.find? (Leaf.offers p)).isSome = ls.any (Leaf.offers p) := List.isSome_find?
  rw [usedFrom_place, has_first, ← hfound]
  cases ls.find? (Leaf.offers p) <;> rfl

theorem data_of_fault? (h : l.fault? = none) : l.data = .ok l.content := by
  rw [Leaf.fault?] at h
  rw [Leaf.content]
  cases hdata : l.data with
  | error err =>
      rw [hdata] at h
      cases h
  | ok data => rfl

/-- The letter holds what each leaf is used for, and nothing else in the places of leaves. -/
structure Conserves (e : Email) (ls : List Leaf) : Prop where
  decoded : ∀ l ∈ ls, l.data = .ok l.content
  all : e.text.isSome.toNat + e.html.isSome.toNat + e.forwarded.isSome.toNat + e.images.length +
    e.attachments.length + (Leaf.usedAs .nothing ls).length = ls.length
  once : ∀ p, Leaf.usedAs (.place p) ls = (ls.find? (Leaf.offers p)).toList
  text : e.text = (ls.find? (Leaf.offers .text)).bind Leaf.prose?
  html : e.html = (ls.find? (Leaf.offers .html)).bind Leaf.prose?
  forwarded : e.forwarded = (ls.find? (Leaf.offers .forwarded)).map fun l => ⟨l.content⟩
  images : e.images = (Leaf.usedAs .image ls).map Leaf.image
  attachments : e.attachments = (Leaf.usedAs .attachment ls).map Leaf.attachment

/-- The letter that leaves without a fault make behind the fields. -/
theorem ofEntity_ok {entity : Entity} (h : entity.leaves.findSome? Leaf.fault? = none) :
    ofEntity entity = .ok (({ (∅ : Email).withFields entity.fields with
      images := (Leaf.usedAs .image entity.leaves).map Leaf.image
      attachments := (Leaf.usedAs .attachment entity.leaves).map Leaf.attachment } : Email).fill
        (Slots.first entity.leaves)) := by
  have hstart : Slots.empty = Slots.first [] := rfl
  rw [ofEntity_eq, readLeaves_eq, h, hstart]
  simp only [settle_all, withFields_empty]
  rfl

theorem ofEntity_error {entity : Entity} {err : ReadError}
    (h : entity.leaves.findSome? Leaf.fault? = some err) : ofEntity entity = .error err := by
  rw [ofEntity_eq, readLeaves_eq, h]
  rfl

theorem ofEntity_conserves {entity : Entity} (h : entity.leaves.findSome? Leaf.fault? = none) :
    ∃ e, ofEntity entity = .ok e ∧ e.Conserves entity.leaves := by
  have hsound : ∀ l ∈ entity.leaves, l.fault? = none := by
    simpa [List.findSome?_eq_none_iff] using h
  exact ⟨_, ofEntity_ok h, {
    decoded := fun l hl => data_of_fault? (hsound l hl)
    all := by
      have hall := length_usedFrom [] entity.leaves
      simp only [length_usedFrom_place] at hall
      simp only [fill, List.length_map]
      exact hall
    once := fun p => usedFrom_place p [] entity.leaves
    text := rfl
    html := rfl
    forwarded := rfl
    images := rfl
    attachments := rfl }⟩

/-- No leaf of a message that can be read is lost or doubled. -/
theorem ofMessage_conserves {m : Message} (h : ofMessage m = .ok e) : ∃ entity,
    Entity.read false m.octets = .ok entity ∧
    (∀ l ∈ entity.leaves, "multipart/".toList.isPrefixOf l.typeName = false) ∧
    e.Conserves entity.leaves := by
  rw [ofMessage] at h
  cases hread : Entity.read false m.octets with
  | error err =>
      rw [hread] at h
      cases h
  | ok entity =>
      rw [hread] at h
      refine ⟨entity, rfl, Entity.single_of_read hread, ?_⟩
      dsimp only at h
      cases hfault : entity.leaves.findSome? Leaf.fault? with
      | some err =>
          rw [ofEntity_error hfault] at h
          cases h
      | none =>
          obtain ⟨e', hread', hconserves⟩ := ofEntity_conserves hfault
          rw [hread'] at h
          cases h
          exact hconserves

end Email

end

namespace Email

/-- Two texts, two images of which one is attached, and an empty part between them. -/
def medley : Message := ⟨Utf8.encode ("Content-Type: multipart/mixed; boundary=b\r\n\r\n" ++
  "--b\r\n\r\n\r\n--b\r\n\r\nHi\r\n--b\r\nContent-Type: text/plain\r\n\r\nbye\r\n" ++
  "--b\r\nContent-Type: image/png\r\nContent-ID: <logo>\r\n\r\nP\r\n" ++
  "--b\r\nContent-Type: image/png\r\nContent-ID: <>\r\n\r\nQ\r\n--b--\r\n").toList⟩

theorem ofMessage_conserves_medley : ∃ e entity, ofMessage medley = .ok e ∧
    Entity.read false medley.octets = .ok entity ∧
    (∀ l ∈ entity.leaves, "multipart/".toList.isPrefixOf l.typeName = false) ∧
    e.Conserves entity.leaves := by
  obtain ⟨e, hread⟩ : ∃ e, ofMessage medley = .ok e := Checked.ok_of_isSome (by decide +kernel)
  obtain ⟨entity, hentity, hsingle, hconserves⟩ := ofMessage_conserves hread
  exact ⟨e, entity, hread, hentity, hsingle, hconserves⟩

end Email
end Epistle
