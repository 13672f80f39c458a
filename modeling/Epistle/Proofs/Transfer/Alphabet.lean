import Epistle.Proofs.Transfer.Base64
import Mathlib.Data.List.Forall2
import Mathlib.Data.Nat.Digits.Defs
import Mathlib.Tactic.Ring

/-!
What base64 is. Octets are the digits of a number in base 256, and symbols are the digits of the
same number in base 64. Bits that are missing at the end are zeros, and padding takes the place of
the symbols that are missing in the last group of four.
-/
namespace Epistle
namespace Base64

def alphabet : Text := "ABCDEFGHIJKLMNOPQRSTUVWXYZabcdefghijklmnopqrstuvwxyz0123456789+/".toList

theorem alphabet_symbol : ∀ n < 64, alphabet[n]? = some (symbol n) := by decide

/-- The number that digits make, of which the first is the highest. -/
def number (base : Nat) (digits : List Nat) : Nat := Nat.ofDigits base digits.reverse

theorem number_cons (base d : Nat) (ds : List Nat) :
    number base (d :: ds) = d * base ^ ds.length + number base ds := by
  rw [number, List.reverse_cons, Nat.ofDigits_append, Nat.ofDigits_singleton, List.length_reverse,
    number]
  ring

/-- The octets in groups of six bits, with two bits added for each padding. -/
structure Regroups (bytes : Octets) (digits : List Nat) (pads : Nat) : Prop where
  few : pads ≤ 2
  size : digits.length * 6 = bytes.length * 8 + pads * 2
  value : number 64 digits = number 256 (bytes.map UInt8.toNat) * 4 ^ pads

/-- Each symbol stands in the alphabet where its digit says. -/
abbrev Spelled (digits : List Nat) (symbols : Text) : Prop :=
  List.Forall₂ (fun d c => alphabet[d]? = some c) digits symbols

/-- The standard form of the octets: the symbols for their groups, and the padding. -/
def IsStandard (bytes : Octets) (t : Text) : Prop :=
  ∃ digits symbols pads, Regroups bytes digits pads ∧ Spelled digits symbols ∧
    t = symbols ++ List.replicate pads '='

variable {bytes : Octets} {t : Text}

theorem Regroups.cons {digits : List Nat} {pads : Nat} (h : Regroups bytes digits pads)
    (a b c : UInt8) : Regroups (a :: b :: c :: bytes)
      ((a.toNat / 4) :: (a.toNat % 4 * 16 + b.toNat / 16) ::
        (b.toNat % 16 * 4 + c.toNat / 64) :: (c.toNat % 64) :: digits) pads := by
  have hbits : a.toNat / 4 * 64 ^ 3 + (a.toNat % 4 * 16 + b.toNat / 16) * 64 ^ 2 +
      (b.toNat % 16 * 4 + c.toNat / 64) * 64 + c.toNat % 64 =
        a.toNat * 256 ^ 2 + b.toNat * 256 + c.toNat := by omega
  -- The groups behind are as many bits as the octets behind, the added ones included.
  have hpow : 64 ^ digits.length = 256 ^ bytes.length * 4 ^ pads := by
    calc 64 ^ digits.length = 2 ^ (6 * digits.length) := (Nat.pow_mul 2 6 _).symm
      _ = 2 ^ (8 * bytes.length + 2 * pads) := by
        have hsize := h.size
        congr 1
        omega
      _ = 256 ^ bytes.length * 4 ^ pads := by rw [Nat.pow_add, Nat.pow_mul, Nat.pow_mul]
  refine ⟨h.few, ?_, ?_⟩
  · have hsize := h.size
    simp only [List.length_cons]
    omega
  · simp only [number_cons, List.map_cons, List.length_cons, List.length_map, h.value]
    calc _ = (a.toNat / 4 * 64 ^ 3 + (a.toNat % 4 * 16 + b.toNat / 16) * 64 ^ 2 +
          (b.toNat % 16 * 4 + c.toNat / 64) * 64 + c.toNat % 64) * 64 ^ digits.length +
            number 256 (bytes.map UInt8.toNat) * 4 ^ pads := by ring
      _ = _ := by
        rw [hbits, hpow]
        ring

theorem spelled_cons {n : Nat} {digits : List Nat} {symbols : Text} (hn : n < 64)
    (h : Spelled digits symbols) : Spelled (n :: digits) (symbol n :: symbols) :=
  .cons (alphabet_symbol n hn) h

theorem encode_standard (bytes : Octets) : IsStandard bytes (encode bytes) := by
  fun_induction encode bytes with
  | case1 => exact ⟨[], [], 0, ⟨by omega, rfl, rfl⟩, .nil, rfl⟩
  | case2 a =>
      have := a.toNat_lt
      refine ⟨[a.toNat / 4, a.toNat % 4 * 16], _, 2, ⟨Nat.le_refl 2, by simp, ?_⟩,
        spelled_cons (by omega) (spelled_cons (by omega) .nil), rfl⟩
      simp only [number_cons, List.map_cons, List.map_nil, List.length_cons, List.length_nil]
      change a.toNat / 4 * 64 + (a.toNat % 4 * 16 * 1 + 0) = (a.toNat * 1 + 0) * 16
      omega
  | case3 a b =>
      have := a.toNat_lt
      have := b.toNat_lt
      refine ⟨[a.toNat / 4, a.toNat % 4 * 16 + b.toNat / 16, b.toNat % 16 * 4], _, 1,
        ⟨by omega, by simp, ?_⟩, spelled_cons (by omega) (spelled_cons (by omega)
          (spelled_cons (by omega) .nil)), rfl⟩
      simp only [number_cons, List.map_cons, List.map_nil, List.length_cons, List.length_nil]
      change a.toNat / 4 * 4096 + ((a.toNat % 4 * 16 + b.toNat / 16) * 64 +
        (b.toNat % 16 * 4 * 1 + 0)) = (a.toNat * 256 + (b.toNat * 1 + 0)) * 4
      omega
  | case4 a b c rest ih =>
      have := a.toNat_lt
      have := b.toNat_lt
      have := c.toNat_lt
      obtain ⟨digits, symbols, pads, hgroups, hsymbols, hrest⟩ := ih
      refine ⟨_, _, pads, hgroups.cons a b c, spelled_cons (by omega) (spelled_cons (by omega)
        (spelled_cons (by omega) (spelled_cons (by omega) hsymbols))), ?_⟩
      rw [hrest]
      rfl

/-- Symbols of the alphabet, with no more than two paddings behind them. -/
def IsPadded (t : Text) : Prop :=
  ∃ symbols pads, t = symbols ++ List.replicate pads '=' ∧ pads ≤ 2 ∧ ∀ c ∈ symbols, c ∈ alphabet

theorem IsStandard.padded (h : IsStandard bytes t) : IsPadded t := by
  obtain ⟨digits, symbols, pads, hgroups, hsymbols, ht⟩ := h
  refine ⟨symbols, pads, ht, hgroups.few, ?_⟩
  clear ht hgroups
  induction hsymbols with
  | nil => exact fun c hc => nomatch hc
  | cons hfirst _ ih => exact List.forall_mem_cons.2 ⟨List.mem_of_getElem? hfirst, ih⟩

/-- In front of two characters there are symbols alone. -/
theorem IsPadded.append {front back : Text} (h : IsPadded (front ++ back))
    (hback : 2 ≤ back.length) : (∀ c ∈ front, c ∈ alphabet) ∧ IsPadded back := by
  obtain ⟨symbols, pads, ht, hfew, hsymbols⟩ := h
  rcases List.append_eq_append_iff.1 ht with ⟨more, hsame, hrest⟩ | ⟨more, hsame, hrest⟩
  · rw [hsame, List.forall_mem_append] at hsymbols
    exact ⟨hsymbols.1, more, pads, hrest, hfew, hsymbols.2⟩
  · have hlength := congrArg List.length hrest
    rw [List.length_replicate, List.length_append] at hlength
    have hmore : more = [] := List.length_eq_zero_iff.1 (by omega)
    rw [hmore, List.append_nil] at hsame
    rw [hmore, List.nil_append] at hrest
    rw [hsame]
    exact ⟨hsymbols, [], pads, hrest.symm, hfew, fun c hc => nomatch hc⟩

/-- Four characters for every three octets that are begun. -/
theorem IsStandard.length_eq (h : IsStandard bytes t) : t.length = (bytes.length + 2) / 3 * 4 := by
  obtain ⟨digits, symbols, pads, hgroups, hsymbols, rfl⟩ := h
  have hsize := hgroups.size
  have hfew := hgroups.few
  rw [List.length_append, List.length_replicate, ← hsymbols.length_eq]
  omega

end Base64
end Epistle
