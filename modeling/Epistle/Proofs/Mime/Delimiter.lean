import Epistle.Mime.Entity
import Epistle.Transfer.LineEnding

/-!
Blocks of octets between delimiter lines. When no line of a block begins with the mark, the blocks
are found again as they were, however their own lines end. What stands at the beginning of a line
is not changed by the line break before it or after it, so a block may be looked at line by line.
-/
namespace Epistle
namespace Delimiter

open LineEnding (cr lf crlf expandFrom expand)

def dash : UInt8 := 0x2D

/-- Some line of `bytes` begins with `mark`. -/
def StartsLine (mark bytes : Octets) : Prop :=
  ∃ before after, bytes = before ++ mark ++ after ∧ ∀ b, before.getLast? = some b → b = lf

/-- A mark begins with a dash and is no longer than a line. -/
structure IsMark (mark : Octets) : Prop where
  starts : mark.head? = some dash
  cr : cr ∉ mark
  lf : lf ∉ mark

variable {mark bytes : Octets} {atStart : Bool}

theorem IsMark.ne_nil (hm : IsMark mark) : mark ≠ [] := by
  rintro rfl
  cases hm.starts

theorem IsMark.not_prefix (hm : IsMark mark) {b : UInt8} (hb : b ≠ dash) (rest : Octets) :
    mark.isPrefixOf (b :: rest) = false := by
  obtain ⟨m, hmark⟩ := List.head?_eq_some_iff.1 hm.starts
  rw [hmark, List.isPrefixOf]
  simp [hb.symm]

theorem isPrefixOf_append {c : UInt8} (hc : c ∉ mark) (xs ys : Octets) :
    mark.isPrefixOf (xs ++ c :: ys) = mark.isPrefixOf xs := by
  induction xs generalizing mark with
  | nil =>
      cases mark with
      | nil => rfl
      | cons m mark =>
          have hne : m ≠ c := fun he => hc (by simp [he])
          simp [List.isPrefixOf, hne]
  | cons x xs ih =>
      cases mark with
      | nil => rfl
      | cons m mark =>
          rw [List.cons_append, List.isPrefixOf, List.isPrefixOf, ih fun h => hc (by simp [h])]

theorem cutFrom_cons {b : UInt8} (h : ¬ (atStart ∧ mark.isPrefixOf (b :: bytes))) :
    cutFrom mark atStart (b :: bytes) =
      (cutFrom mark (b == lf) bytes).map fun (before, after) => (b :: before, after) := by
  rw [cutFrom, if_neg h]

/-- A mark that is found stands at the beginning of a line. -/
theorem startsLine_of_cutFrom {before after : Octets}
    (h : cutFrom mark atStart bytes = some (before, after)) :
    (before = [] → atStart) ∧ ∀ b, before.getLast? = some b → b = lf := by
  induction bytes generalizing before atStart with
  | nil =>
      simp only [cutFrom] at h
      split at h
      · rename_i hstart
        cases h
        exact ⟨fun _ => hstart.1, by simp⟩
      · cases h
  | cons b rest ih =>
      simp only [cutFrom] at h
      split at h
      · rename_i hstart
        cases h
        exact ⟨fun _ => hstart.1, by simp⟩
      · obtain ⟨⟨front, back⟩, hfront, he⟩ := Option.map_eq_some_iff.1 h
        cases he
        obtain ⟨hempty, hlast⟩ := ih hfront
        refine ⟨fun hn => absurd hn (List.cons_ne_nil _ _), ?_⟩
        intro c hc
        cases front with
        | nil =>
            cases hc
            simpa using hempty rfl
        | cons d front => exact hlast c hc

/-- A mark at the beginning of a line is found, there or before. -/
theorem cutFrom_ne_none (hne : mark ≠ []) {before after : Octets} (hstart : before = [] → atStart)
    (hlast : ∀ b, before.getLast? = some b → b = lf) :
    cutFrom mark atStart (before ++ mark ++ after) ≠ none := by
  induction before generalizing atStart with
  | nil =>
      obtain ⟨m, rest, rfl⟩ := List.exists_cons_of_ne_nil hne
      have hfound : atStart ∧ (m :: rest).isPrefixOf (m :: (rest ++ after)) :=
        ⟨hstart rfl, List.isPrefixOf_iff_prefix.2 (List.prefix_append _ _)⟩
      rw [List.nil_append, List.cons_append, cutFrom, if_pos hfound]
      exact Option.some_ne_none _
  | cons b before ih =>
      rw [List.cons_append, List.cons_append, cutFrom]
      split
      · exact Option.some_ne_none _
      · rw [ne_eq, Option.map_eq_none_iff]
        refine ih ?_ fun c hc => hlast c ?_
        · rintro rfl
          exact beq_iff_eq.2 (hlast b rfl)
        · rw [List.getLast?_cons, hc]
          rfl

theorem cut?_eq_none (h : ¬ StartsLine mark bytes) : cut? mark bytes = none := by
  cases hcut : cut? mark bytes with
  | none => rfl
  | some found =>
      obtain ⟨before, after⟩ := found
      exact absurd ⟨before, after, cutFrom_eq hcut, (startsLine_of_cutFrom hcut).2⟩ h

theorem cut?_eq_none_iff (hne : mark ≠ []) :
    cut? mark bytes = none ↔ ¬ StartsLine mark bytes := by
  refine ⟨?_, cut?_eq_none⟩
  rintro hcut ⟨before, after, rfl, hlast⟩
  exact cutFrom_ne_none hne (fun _ => rfl) hlast hcut

theorem cutFrom_crlf (hm : IsMark mark) (atStart : Bool) (ys : Octets) :
    cutFrom mark atStart (crlf ++ ys) = (cut? mark ys).map fun (b, a) => (crlf ++ b, a) := by
  have hcr := hm.not_prefix (b := cr) (by decide) (lf :: ys)
  have hlf := hm.not_prefix (b := lf) (by decide) ys
  have hstep : cutFrom mark atStart (crlf ++ ys) =
      (cutFrom mark false (lf :: ys)).map fun (b, a) => (cr :: b, a) := by
    refine cutFrom_cons ?_
    rintro ⟨-, hp⟩
    exact absurd hp (by simp [hcr])
  rw [hstep, cutFrom_cons (by simp), Option.map_map]
  rfl

/-- Behind a line break the search begins anew. -/
theorem cutFrom_append_crlf (hm : IsMark mark) {xs : Octets} (h : cutFrom mark atStart xs = none)
    (ys : Octets) : cutFrom mark atStart (xs ++ crlf ++ ys) =
      (cut? mark ys).map fun (b, a) => (xs ++ crlf ++ b, a) := by
  induction xs generalizing atStart with
  | nil => exact cutFrom_crlf hm atStart ys
  | cons x xs ih =>
      simp only [cutFrom] at h
      split at h
      · cases h
      · rename_i hno
        have hjoin : x :: xs ++ crlf ++ ys = x :: (xs ++ crlf ++ ys) := rfl
        have hno' : ¬ (atStart ∧ mark.isPrefixOf (x :: (xs ++ crlf ++ ys))) := by
          have hsame : mark.isPrefixOf ((x :: xs) ++ cr :: (lf :: ys)) =
              mark.isPrefixOf (x :: xs) :=
            isPrefixOf_append hm.cr _ _
          have hlist : x :: (xs ++ crlf ++ ys) = (x :: xs) ++ cr :: (lf :: ys) := by simp [crlf]
          rwa [hlist, hsame]
        rw [hjoin, cutFrom_cons hno', ih (Option.map_eq_none_iff.1 h), Option.map_map]
        rfl

theorem cut?_append_crlf (hm : IsMark mark) {xs ys : Octets} (hx : cut? mark xs = none)
    (hy : cut? mark ys = none) : cut? mark (xs ++ crlf ++ ys) = none := by
  rw [cut?, cutFrom_append_crlf hm hx, hy]
  rfl

theorem cut?_mark (hm : IsMark mark) (after : Octets) :
    cut? mark (mark ++ after) = some ([], after) := by
  obtain ⟨m, rest, hcons⟩ := List.exists_cons_of_ne_nil hm.ne_nil
  have hprefix : mark.isPrefixOf (mark ++ after) := List.isPrefixOf_iff_prefix.2 ⟨after, rfl⟩
  have hjoin : mark ++ after = m :: (rest ++ after) := by rw [hcons]; rfl
  rw [hjoin] at hprefix
  rw [cut?, hjoin, cutFrom, if_pos ⟨rfl, hprefix⟩, ← hjoin, List.drop_left]

/-- The mark behind a line break is found when no line before it begins with one. -/
theorem cut?_found (hm : IsMark mark) {xs : Octets} (h : cut? mark xs = none) (after : Octets) :
    cut? mark (xs ++ crlf ++ (mark ++ after)) = some (xs ++ crlf, after) := by
  rw [cut?, cutFrom_append_crlf hm h, cut?_mark hm]
  simp

/-- One line can only begin with the mark. -/
theorem cutFrom_line (hm : IsMark mark) (hlf : lf ∉ bytes)
    (h : atStart → mark.isPrefixOf bytes = false) : cutFrom mark atStart bytes = none := by
  induction bytes generalizing atStart with
  | nil => rw [cutFrom, if_neg fun hn => hm.ne_nil hn.2]
  | cons b rest ih =>
      have hb : (b == lf) = false := by
        simp only [beq_eq_false_iff_ne]
        exact fun he => hlf (by simp [he])
      have hno : ¬ (atStart ∧ mark.isPrefixOf (b :: rest)) := by
        rintro ⟨hs, hp⟩
        rw [h hs] at hp
        cases hp
      have hrest : cutFrom mark false rest = none :=
        ih (fun hr => hlf (by simp [hr])) fun hs => absurd hs (by decide)
      rw [cutFrom_cons hno, hb, hrest]
      rfl

/-- Octets without a dash hold no mark. -/
theorem cutFrom_of_not_mem (hm : IsMark mark) (h : dash ∉ bytes) :
    cutFrom mark atStart bytes = none := by
  induction bytes generalizing atStart with
  | nil => rw [cutFrom, if_neg fun hn => hm.ne_nil hn.2]
  | cons b rest ih =>
      have hb : b ≠ dash := fun he => h (by simp [he])
      have hno : ¬ (atStart ∧ mark.isPrefixOf (b :: rest)) := by
        rintro ⟨-, hp⟩
        rw [hm.not_prefix hb] at hp
        cases hp
      rw [cutFrom_cons hno, ih fun hr => h (by simp [hr])]
      rfl

theorem not_startsLine (hm : IsMark mark) (h : dash ∉ bytes) : ¬ StartsLine mark bytes := by
  rintro ⟨before, after, rfl, -⟩
  obtain ⟨m, hmark⟩ := List.head?_eq_some_iff.1 hm.starts
  exact h (by simp [hmark])

theorem isPrefixOf_expandFrom (hcr : cr ∉ mark) (hlf : lf ∉ mark) (last : UInt8) (xs : Octets) :
    mark.isPrefixOf (expandFrom last xs) = mark.isPrefixOf xs := by
  induction xs generalizing mark last with
  | nil => rfl
  | cons x xs ih =>
      cases mark with
      | nil => simp [List.isPrefixOf]
      | cons m mark =>
          have hm_cr : m ≠ cr := fun he => hcr (by simp [he])
          have hm_lf : m ≠ lf := fun he => hlf (by simp [he])
          have hrest := ih (mt (List.mem_cons_of_mem m) hcr) (mt (List.mem_cons_of_mem m) hlf)
          rw [expandFrom]
          split
          · rename_i hx
            have hcr' : (m == cr) = false := by simpa using hm_cr
            have hlf' : (m == lf) = false := by simpa using hm_lf
            rw [List.isPrefixOf, List.isPrefixOf, hx.1, hcr', hlf']
            rfl
          · rw [List.isPrefixOf, List.isPrefixOf, hrest]

/-- Line endings are not what a line begins with. -/
theorem cutFrom_expandFrom (hm : IsMark mark) {last : UInt8}
    (h : cutFrom mark atStart bytes = none) :
    cutFrom mark atStart (expandFrom last bytes) = none := by
  induction bytes generalizing last atStart with
  | nil => exact h
  | cons b rest ih =>
      simp only [cutFrom] at h
      split at h
      · cases h
      · rename_i hno
        have hrest {next : UInt8} : cutFrom mark (b == lf) (expandFrom next rest) = none :=
          ih (Option.map_eq_none_iff.1 h)
        have hsame := isPrefixOf_expandFrom hm.cr hm.lf last (b :: rest)
        rw [expandFrom] at hsame ⊢
        split
        · rename_i hlf
          obtain ⟨rfl, -⟩ := hlf
          have hjoin : cr :: lf :: expandFrom lf rest = [] ++ crlf ++ expandFrom lf rest := rfl
          have hnil : cutFrom mark atStart [] = none := by
            rw [cutFrom, if_neg fun hn => hm.ne_nil hn.2]
          have hnext : cut? mark (expandFrom lf rest) = none := hrest
          rw [hjoin, cutFrom_append_crlf hm hnil, hnext]
          rfl
        · rename_i hlf
          rw [if_neg hlf] at hsame
          have hno' : ¬ (atStart ∧ mark.isPrefixOf (b :: expandFrom b rest)) := by rwa [hsame]
          rw [cutFrom_cons hno', hrest]
          rfl

/-- The blocks, each below a line of the mark alone; the last of these lines closes the whole. -/
def enclose (mark : Octets) : List Octets → Octets
  | [] => mark ++ [dash, dash] ++ crlf
  | block :: rest => mark ++ crlf ++ block ++ crlf ++ enclose mark rest

theorem trimBreak_append_crlf (xs : Octets) : trimBreak (xs ++ crlf) = xs := by
  have hreverse : (xs ++ crlf).reverse = lf :: cr :: xs.reverse := by simp [crlf]
  rw [trimBreak, hreverse]
  simp

theorem afterLine?_crlf (ys : Octets) : afterLine? (crlf ++ ys) = some ys := by
  simp [afterLine?, crlf, cr, lf]

/-- What follows a mark, when the mark and it enclose blocks. -/
def behind (mark : Octets) : List Octets → Octets
  | [] => [dash, dash] ++ crlf
  | block :: rest => crlf ++ block ++ crlf ++ enclose mark rest

theorem enclose_eq (mark : Octets) (blocks : List Octets) :
    enclose mark blocks = mark ++ behind mark blocks := by
  cases blocks with
  | nil => simp [enclose, behind]
  | cons block rest => simp [enclose, behind]

theorem sectionsFrom_found {body before after : Octets} (hline : afterLine? bytes = some body)
    (hcut : cut? mark body = some (before, after)) : sectionsFrom mark bytes =
      trimBreak before :: if closes after then [] else sectionsFrom mark after := by
  rw [sectionsFrom.eq_def]
  split
  · rename_i hnone
    rw [hline] at hnone
    cases hnone
  · rename_i hsome
    rw [hline] at hsome
    cases hsome
    split
    · rename_i hnone
      rw [hcut] at hnone
      cases hnone
    · rename_i hsome
      rw [hcut] at hsome
      cases hsome
      rfl

theorem sectionsFrom_cons (hm : IsMark mark) {block : Octets} (h : cut? mark block = none)
    (rest : List Octets) : sectionsFrom mark (behind mark (block :: rest)) =
      block :: if closes (behind mark rest) then [] else sectionsFrom mark (behind mark rest) := by
  have hline : afterLine? (behind mark (block :: rest)) =
      some (block ++ crlf ++ (mark ++ behind mark rest)) := by
    have hjoin : behind mark (block :: rest) =
        crlf ++ (block ++ crlf ++ (mark ++ behind mark rest)) := by
      rw [behind, enclose_eq]
      simp only [List.append_assoc]
    rw [hjoin, afterLine?_crlf]
  rw [sectionsFrom_found hline (cut?_found hm h _), trimBreak_append_crlf]

theorem sectionsFrom_behind (hm : IsMark mark) {block : Octets} {rest : List Octets}
    (h : ∀ x ∈ block :: rest, cut? mark x = none) :
    sectionsFrom mark (behind mark (block :: rest)) = block :: rest := by
  induction rest generalizing block with
  | nil =>
      rw [sectionsFrom_cons hm (h block (by simp))]
      rfl
  | cons next rest ih =>
      rw [sectionsFrom_cons hm (h block (by simp)), ih fun x hx => h x (by simp [hx])]
      rfl

/-- The blocks are found again. -/
theorem sections_enclose (hm : IsMark mark) {blocks : List Octets} (hne : blocks ≠ [])
    (h : ∀ x ∈ blocks, cut? mark x = none) : sections mark (enclose mark blocks) = blocks := by
  obtain ⟨block, rest, rfl⟩ := List.exists_cons_of_ne_nil hne
  rw [sections, enclose_eq, cut?_mark hm]
  exact sectionsFrom_behind hm h

/-- Lines of one mark hide no other mark that does not begin them. -/
theorem cut?_enclose {inner : Octets} (hm : IsMark mark) (hi : IsMark inner)
    (hother : mark.isPrefixOf (inner ++ [dash, dash]) = false) {blocks : List Octets}
    (h : ∀ x ∈ blocks, cut? mark x = none) : cut? mark (enclose inner blocks) = none := by
  have hnil : cut? mark [] = none := by
    rw [cut?, cutFrom, if_neg fun hn => hm.ne_nil hn.2]
  have hinner : mark.isPrefixOf inner = false := by
    cases hp : mark.isPrefixOf inner with
    | false => rfl
    | true =>
        have hlong :=
          (List.isPrefixOf_iff_prefix.1 hp).trans (List.prefix_append inner [dash, dash])
        rw [List.isPrefixOf_iff_prefix.2 hlong] at hother
        cases hother
  have hline : cut? mark inner = none := cutFrom_line hm hi.lf fun _ => hinner
  have hlast : cut? mark (inner ++ [dash, dash]) = none := by
    refine cutFrom_line hm ?_ fun _ => hother
    rw [List.mem_append, not_or]
    exact ⟨hi.lf, by decide⟩
  induction blocks with
  | nil =>
      have hjoin : enclose inner [] = inner ++ [dash, dash] ++ crlf ++ [] := by simp [enclose]
      rw [hjoin]
      exact cut?_append_crlf hm hlast hnil
  | cons block rest ih =>
      have hjoin : enclose inner (block :: rest) =
          inner ++ crlf ++ (block ++ crlf ++ enclose inner rest) := by simp [enclose]
      rw [hjoin]
      exact cut?_append_crlf hm hline
        (cut?_append_crlf hm (h block (by simp)) (ih fun x hx => h x (by simp [hx])))

end Delimiter
end Epistle
