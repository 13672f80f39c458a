import Epistle.Mime.Mint
import Epistle.Proofs.Text.Split

/-!
How computations that mint run: one after the other, each from the mint that the one before left.
Whatever the counter and the clock show, dates, identifiers and boundaries stand on one line, and
boundaries are made of letters, digits and three signs.
-/
namespace Epistle

namespace Date

theorem isDigit_of_mem_digits {n : Nat} {c : Char} (h : c ∈ digits n) : c.isDigit := by
  rw [digits, Nat.toString_eq_repr, Nat.toList_repr] at h
  exact Nat.isDigit_of_mem_toDigits (by decide) (by decide) h

/-- A number ends where a character is no digit. -/
theorem cut?_digits {sep : Char} (h : sep.isDigit = false) (n : Nat) (tail : Text) :
    Text.cut? sep (digits n ++ sep :: tail) = some (digits n, tail) := by
  refine Text.cut?_append tail fun hc => ?_
  rw [isDigit_of_mem_digits hc] at h
  cases h

theorem digits_injective {m n : Nat} (h : digits m = digits n) : m = n := by
  have hvalue : ∀ k, Nat.ofDigitChars 10 (digits k) 0 = k := by
    intro k
    rw [digits, Nat.toString_eq_repr, Nat.toList_repr]
    exact Nat.ofDigitChars_toDigits (by decide) (by decide)
  rw [← hvalue m, h, hvalue]

theorem isPrintable_of_isDigit {c : Char} (h : c.isDigit) : Text.isPrintable c := by
  simp only [Char.isDigit, Bool.and_eq_true, decide_eq_true_eq, ge_iff_le,
    UInt32.le_iff_toNat_le] at h
  change 48 ≤ c.toNat ∧ c.toNat ≤ 57 at h
  simp only [Text.isPrintable, Bool.and_eq_true, decide_eq_true_eq]
  omega

theorem isPrintable_of_mem_digits {n : Nat} {c : Char} (h : c ∈ digits n) :
    Text.isPrintable c := isPrintable_of_isDigit (isDigit_of_mem_digits h)

theorem oneLine_digits (n : Nat) : Text.OneLine (digits n) :=
  Text.oneLine_of_isPrintable fun _ h => isPrintable_of_mem_digits h

theorem oneLine_padded (width n : Nat) : Text.OneLine (padded width n) := by
  rw [padded, Text.oneLine_append]
  refine ⟨?_, oneLine_digits n⟩
  intro c hc
  rw [List.eq_of_mem_replicate hc]
  decide

theorem oneLine_getD {names : List String} (h : ∀ s ∈ names, Text.OneLine s.toList) (i : Nat) :
    Text.OneLine (names.getD i "").toList := by
  rw [List.getD_eq_getElem?_getD]
  cases hi : names[i]? with
  | none => exact fun c hc => nomatch hc
  | some s => exact h s (List.mem_of_getElem? hi)

theorem oneLine_format (t : Instant) : Text.OneLine (format t) := by
  have hdays : ∀ s ∈ weekdays, Text.OneLine s.toList := by decide
  have hmonths : ∀ s ∈ months, Text.OneLine s.toList := by decide
  have hcomma : Text.OneLine ", ".toList := by decide
  have hspace : Text.OneLine [' '] := by decide
  have hcolon : Text.OneLine [':'] := by decide
  have hzone : Text.OneLine " +0000".toList := by decide
  simp only [format, Text.oneLine_append]
  exact ⟨⟨⟨⟨⟨⟨⟨⟨⟨⟨⟨⟨⟨oneLine_getD hdays _, hcomma⟩, oneLine_digits _⟩, hspace⟩,
    oneLine_getD hmonths _⟩, hspace⟩, oneLine_padded _ _⟩, hspace⟩, oneLine_padded _ _⟩, hcolon⟩,
    oneLine_padded _ _⟩, hcolon⟩, oneLine_padded _ _⟩, hzone⟩

end Date

namespace Mint

theorem pure_apply {α : Type} (a : α) (mint : Mint) : (pure a : Minting α) mint = (a, mint) := rfl

theorem oneLine_messageIdText (number : UInt64) (now : Date.Instant) {domain : Text}
    (h : Text.OneLine domain) : Text.OneLine (messageIdText number now domain) := by
  simp only [messageIdText, Text.oneLine_append]
  have hopen : Text.OneLine ['<'] := by decide
  have hdot : Text.OneLine ['.'] := by decide
  have hat : Text.OneLine ['@'] := by decide
  have hclose : Text.OneLine ['>'] := by decide
  exact ⟨⟨⟨⟨⟨⟨hopen, Date.oneLine_digits _⟩, hdot⟩, Date.oneLine_digits _⟩, hat⟩, h⟩, hclose⟩

def isBoundaryChar (c : Char) : Bool := c.isAlphanum || c == '-' || c == '=' || c == '_'

theorem isBoundaryChar_of_mem {number : UInt64} {now : Date.Instant} {c : Char}
    (h : c ∈ boundaryText number now) : isBoundaryChar c := by
  have hdigit {n : Nat} (hc : c ∈ Date.digits n) : isBoundaryChar c := by
    simp [isBoundaryChar, Char.isAlphanum, Date.isDigit_of_mem_digits hc]
  have hfront : ∀ d ∈ "----=_Part_".toList, isBoundaryChar d := by decide
  unfold boundaryText at h
  simp only [List.mem_append, List.mem_singleton] at h
  rcases h with ((h | h) | h) | h
  · exact hfront c h
  · exact hdigit h
  · rw [h]
    decide
  · exact hdigit h

theorem isPrintable_of_isAlpha {c : Char} (h : c.isAlpha) : Text.isPrintable c := by
  change (decide (c.val ≥ 'A'.val ∧ c.val ≤ 'Z'.val) ||
    (decide (c.val ≥ 'a'.val) && decide (c.val ≤ 'z'.val))) = true at h
  simp only [Bool.or_eq_true, Bool.and_eq_true, decide_eq_true_eq, ge_iff_le,
    UInt32.le_iff_toNat_le] at h
  change (65 ≤ c.toNat ∧ c.toNat ≤ 90) ∨ (97 ≤ c.toNat ∧ c.toNat ≤ 122) at h
  simp only [Text.isPrintable, Bool.and_eq_true, decide_eq_true_eq]
  omega

theorem isPrintable_of_isBoundaryChar {c : Char} (h : isBoundaryChar c) : Text.isPrintable c := by
  simp only [isBoundaryChar, Char.isAlphanum, Bool.or_eq_true, beq_iff_eq] at h
  rcases h with (((h | h) | rfl) | rfl) | rfl
  · exact isPrintable_of_isAlpha h
  · exact Date.isPrintable_of_isDigit h
  all_goals decide

theorem oneLine_boundaryText (number : UInt64) (now : Date.Instant) :
    Text.OneLine (boundaryText number now) :=
  Text.oneLine_of_isPrintable fun _ h => isPrintable_of_isBoundaryChar (isBoundaryChar_of_mem h)

/-- Boundaries of different numbers stay apart, whatever stands behind the second. -/
theorem number_of_prefix {m n : UInt64} {now later : Date.Instant} {rest : Text}
    (h : boundaryText m now <+: boundaryText n later ++ rest) : m = n := by
  unfold boundaryText at h
  simp only [List.append_assoc, List.prefix_append_right_inj] at h
  obtain ⟨back, hback⟩ := h
  simp only [List.append_assoc, List.cons_append, List.nil_append] at hback
  have hsame := congrArg (Text.cut? '_') hback
  rw [Date.cut?_digits rfl, Date.cut?_digits rfl] at hsame
  exact UInt64.toNat_inj.1 (Date.digits_injective (congrArg Prod.fst (Option.some.inj hsame)))

/-- So do identifiers, whatever their domains. -/
theorem number_of_messageIdText {m n : UInt64} {now later : Date.Instant} {domain other : Text}
    (h : messageIdText m now domain = messageIdText n later other) : m = n := by
  simp only [messageIdText, List.append_assoc, List.cons_append, List.nil_append, List.cons.injEq,
    true_and] at h
  have hinstant := congrArg (Text.cut? '.') h
  rw [Date.cut?_digits rfl, Date.cut?_digits rfl] at hinstant
  have hnumber := congrArg (Text.cut? '@') (congrArg Prod.snd (Option.some.inj hinstant))
  rw [Date.cut?_digits rfl, Date.cut?_digits rfl] at hnumber
  exact UInt64.toNat_inj.1 (Date.digits_injective (congrArg Prod.fst (Option.some.inj hnumber)))

/-- Boundaries that were taken one after the other, the first with the number `start`. -/
def Numbered (start : UInt64) : List Text → Prop
  | [] => True
  | b :: rest => (∃ now, b = boundaryText start now) ∧ Numbered (start + 1) rest

theorem numbered_append {start : UInt64} {bs cs : List Text} (h : Numbered start bs)
    (hcs : Numbered (start + UInt64.ofNat bs.length) cs) : Numbered start (bs ++ cs) := by
  induction bs generalizing start with
  | nil =>
      have hzero : start + UInt64.ofNat ([] : List Text).length = start := UInt64.add_zero start
      rwa [hzero] at hcs
  | cons b bs ih =>
      refine ⟨h.1, ih h.2 ?_⟩
      have hnext : start + 1 + UInt64.ofNat bs.length = start + UInt64.ofNat (b :: bs).length := by
        rw [List.length_cons, UInt64.add_assoc, Nat.add_comm, UInt64.ofNat_add]
        rfl
      rwa [hnext]

theorem number_of_getElem? {start : UInt64} {bs : List Text} (h : Numbered start bs) {k : Nat}
    {b : Text} (hb : bs[k]? = some b) : ∃ now, b = boundaryText (start + UInt64.ofNat k) now := by
  induction bs generalizing start k with
  | nil => cases hb
  | cons c bs ih =>
      obtain ⟨⟨now, hnow⟩, hrest⟩ := h
      cases k with
      | zero =>
          cases hb
          refine ⟨now, hnow.trans ?_⟩
          exact congrArg (boundaryText · now) (UInt64.add_zero start).symm
      | succ k =>
          obtain ⟨later, hlater⟩ := ih hrest hb
          refine ⟨later, ?_⟩
          rw [hlater, UInt64.add_assoc, Nat.add_comm k, UInt64.ofNat_add]
          rfl

/-- The counter gives no number twice before it comes round. -/
theorem number_ne {start : UInt64} {i j : Nat} (hij : i < j) (hj : j < UInt64.size) :
    start + UInt64.ofNat i ≠ start + UInt64.ofNat j := by
  intro hsame
  have hnat := congrArg UInt64.toNat ((UInt64.add_right_inj start).1 hsame)
  change j < 18446744073709551616 at hj
  simp only [UInt64.toNat_ofNat'] at hnat
  omega

theorem number_of_mem {start : UInt64} {bs : List Text} (h : Numbered start bs) {b : Text}
    (hb : b ∈ bs) : ∃ k < bs.length, ∃ now, b = boundaryText (start + UInt64.ofNat k) now := by
  obtain ⟨k, hk⟩ := List.mem_iff_getElem?.1 hb
  exact ⟨k, (List.getElem?_eq_some_iff.1 hk).1, number_of_getElem? h hk⟩

end Mint
end Epistle
