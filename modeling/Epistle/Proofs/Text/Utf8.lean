import Epistle.Text.Utf8

/-!
UTF-8 is read back from what it was written to. Octets below 0x80 stand for characters of the same
number and for nothing else, so a line break or a colon in the octets was one in the text.
-/
namespace Epistle
namespace Utf8

theorem encode_append (s t : Text) : encode (s ++ t) = encode s ++ encode t := by
  simp [encode]

theorem encode_cons (c : Char) (t : Text) : encode (c :: t) = encodeChar c ++ encode t := rfl

theorem encodeChar_ascii {c : Char} (h : c.toNat < 0x80) :
    encodeChar c = [UInt8.ofNat c.toNat] := by
  simp [encodeChar, h]

theorem encode_ascii {t : Text} (h : ∀ c ∈ t, c.toNat < 0x80) :
    encode t = t.map fun c => UInt8.ofNat c.toNat := by
  induction t with
  | nil => rfl
  | cons c t ih =>
      rw [encode_cons, encodeChar_ascii (h c (by simp)), ih fun d hd => h d (by simp [hd])]
      rfl

theorem encode_lt_of_ascii {s t : Text} (hs : ∀ c ∈ s, c.toNat < 0x80)
    (ht : ∀ c ∈ t, c.toNat < 0x80) (h : s < t) : encode s < encode t := by
  induction s generalizing t with
  | nil =>
      cases t with
      | nil => exact absurd h (List.lt_irrefl _)
      | cons d t =>
          rw [encode_cons, encodeChar_ascii (ht d (by simp))]
          exact List.nil_lt_cons _ _
  | cons c s ih =>
      cases t with
      | nil => exact absurd h (List.not_lt_nil _)
      | cons d t =>
          have hc := hs c (by simp)
          have hd := ht d (by simp)
          rw [encode_cons, encode_cons, encodeChar_ascii hc, encodeChar_ascii hd,
            List.singleton_append, List.singleton_append, List.cons_lt_cons_iff]
          rcases List.cons_lt_cons_iff.1 h with hlt | ⟨rfl, hrest⟩
          · refine .inl ?_
            rw [UInt8.lt_iff_toNat_lt, UInt8.toNat_ofNat_of_lt' (by simp only [UInt8.size]; omega),
              UInt8.toNat_ofNat_of_lt' (by simp only [UInt8.size]; omega)]
            exact hlt
          · refine .inr ⟨rfl, ih ?_ ?_ hrest⟩
            · exact fun x hx => hs x (by simp [hx])
            · exact fun x hx => ht x (by simp [hx])

theorem encodeChar_ne_nil (c : Char) : encodeChar c ≠ [] := by
  simp only [encodeChar]
  split
  · simp
  · split
    · simp
    · split <;> simp

theorem encode_eq_nil {t : Text} : encode t = [] ↔ t = [] := by
  cases t with
  | nil => simp [encode]
  | cons c t => simp [encode_cons, encodeChar_ne_nil]

private theorem toNat_lt (c : Char) : c.toNat < 0x110000 := by
  have h := c.valid
  simp only [UInt32.isValidChar, Nat.isValidChar] at h
  have : c.toNat = c.val.toNat := rfl
  omega

private theorem toNat_not_surrogate (c : Char) : ¬ (0xD800 ≤ c.toNat ∧ c.toNat < 0xE000) := by
  have h := c.valid
  simp only [UInt32.isValidChar, Nat.isValidChar] at h
  have : c.toNat = c.val.toNat := rfl
  omega

/-- Every octet of a character beyond ASCII lies beyond ASCII. -/
theorem toNat_of_mem_encodeChar {c : Char} {b : UInt8} (hb : b ∈ encodeChar c)
    (h : b.toNat < 0x80) : c.toNat = b.toNat := by
  have hc := toNat_lt c
  simp only [encodeChar] at hb
  split at hb
  · simp only [List.mem_singleton] at hb
    subst hb
    rw [UInt8.toNat_ofNat_of_lt' (by simp only [UInt8.size]; omega)]
  · exfalso
    split at hb
    · simp only [List.mem_cons, List.not_mem_nil, or_false] at hb
      rcases hb with rfl | rfl <;> simp only [UInt8.toNat_ofNat'] at h <;> omega
    · split at hb
      · simp only [List.mem_cons, List.not_mem_nil, or_false] at hb
        rcases hb with rfl | rfl | rfl <;> simp only [UInt8.toNat_ofNat'] at h <;> omega
      · simp only [List.mem_cons, List.not_mem_nil, or_false] at hb
        rcases hb with rfl | rfl | rfl | rfl <;> simp only [UInt8.toNat_ofNat'] at h <;> omega

theorem not_mem_encodeChar {c d : Char} {b : UInt8} (h : b.toNat < 0x80) (hd : d.toNat = b.toNat)
    (hc : c ≠ d) : b ∉ encodeChar c :=
  fun hb => hc (Char.toNat_inj.1 ((toNat_of_mem_encodeChar hb h).trans hd.symm))

theorem exists_of_mem_encode {t : Text} {b : UInt8} (hb : b ∈ encode t) (h : b.toNat < 0x80) :
    ∃ c ∈ t, c.toNat = b.toNat := by
  obtain ⟨c, hc, hbc⟩ := List.mem_flatMap.1 hb
  exact ⟨c, hc, toNat_of_mem_encodeChar hbc h⟩

theorem not_mem_encode {t : Text} {b : UInt8} (h : b.toNat < 0x80)
    (ht : ∀ c ∈ t, c.toNat ≠ b.toNat) : b ∉ encode t := by
  intro hb
  obtain ⟨c, hc, he⟩ := exists_of_mem_encode hb h
  exact ht c hc he

/-- The last octet of a character completes it. -/
theorem readFrom_last {value low high n : Nat} (hl : low ≤ n) (hh : n ≤ high) (hn : n < 256)
    (rest : Octets) :
    readFrom (some ⟨1, value, low, high⟩) (UInt8.ofNat n :: rest) =
      some (Char.ofNat (value * 64 + (n - 0x80))) :: readFrom none rest := by
  rw [readFrom, UInt8.toNat_ofNat_of_lt' hn]
  simp [next, hl, hh]

theorem readFrom_more {needed value low high n : Nat} (hl : low ≤ n) (hh : n ≤ high)
    (hn : n < 256) (rest : Octets) :
    readFrom (some ⟨needed + 2, value, low, high⟩) (UInt8.ofNat n :: rest) =
      readFrom (some ⟨needed + 1, value * 64 + (n - 0x80), 0x80, 0xBF⟩) rest := by
  rw [readFrom, UInt8.toNat_ofNat_of_lt' hn]
  simp [next, hl, hh]

theorem readFrom_lead {n : Nat} {p : Pending} (hp : Pending.ofLead? n = some p) (h : 0x80 ≤ n)
    (hn : n < 256) (rest : Octets) :
    readFrom none (UInt8.ofNat n :: rest) = readFrom (some p) rest := by
  rw [readFrom, UInt8.toNat_ofNat_of_lt' hn]
  simp [next, first, hp, Nat.not_lt.2 h]

theorem ofLead?_two {n : Nat} (hl : 0x80 ≤ n) (hh : n < 0x800) :
    Pending.ofLead? (0xC0 + n / 64) = some ⟨1, n / 64, 0x80, 0xBF⟩ := by
  simp only [Pending.ofLead?]
  rw [if_pos (by omega), Nat.add_sub_cancel_left]

/-- The lead octets 0xE0 and 0xED narrow the octet that follows them. -/
theorem ofLead?_three {n : Nat} (hl : 0x800 ≤ n) (hh : n < 0x10000)
    (hs : ¬ (0xD800 ≤ n ∧ n < 0xE000)) :
    ∃ low high, Pending.ofLead? (0xE0 + n / 4096) = some ⟨2, n / 4096, low, high⟩ ∧
      low ≤ 0x80 + n / 64 % 64 ∧ 0x80 + n / 64 % 64 ≤ high := by
  simp only [Pending.ofLead?]
  rw [if_neg (by omega)]
  split
  · exact ⟨0xA0, 0xBF, by simp; omega, by omega, by omega⟩
  · split
    · exact ⟨0x80, 0x9F, by simp; omega, by omega, by omega⟩
    · rw [if_pos (by omega), Nat.add_sub_cancel_left]
      exact ⟨0x80, 0xBF, rfl, by omega, by omega⟩

/-- So do 0xF0 and 0xF4. -/
theorem ofLead?_four {n : Nat} (hl : 0x10000 ≤ n) (hh : n < 0x110000) :
    ∃ low high, Pending.ofLead? (0xF0 + n / 262144) = some ⟨3, n / 262144, low, high⟩ ∧
      low ≤ 0x80 + n / 4096 % 64 ∧ 0x80 + n / 4096 % 64 ≤ high := by
  simp only [Pending.ofLead?]
  rw [if_neg (by omega), if_neg (by omega), if_neg (by omega), if_neg (by omega)]
  split
  · exact ⟨0x90, 0xBF, by simp; omega, by omega, by omega⟩
  · split
    · exact ⟨0x80, 0x8F, by simp; omega, by omega, by omega⟩
    · rw [if_pos (by omega), Nat.add_sub_cancel_left]
      exact ⟨0x80, 0xBF, rfl, by omega, by omega⟩

/-- Reading takes exactly the octets of one character. -/
theorem readFrom_encodeChar (c : Char) (rest : Octets) :
    readFrom none (encodeChar c ++ rest) = some c :: readFrom none rest := by
  have hc := toNat_lt c
  have hs := toNat_not_surrogate c
  have hself {n : Nat} (h : n = c.toNat) : Char.ofNat n = c := by
    rw [h, Char.ofNat_toNat]
  simp only [encodeChar]
  split
  · rename_i h
    rw [List.singleton_append, readFrom,
      UInt8.toNat_ofNat_of_lt' (by simp only [UInt8.size]; omega)]
    simp [next, first, h, hself]
  · split
    · have hp := ofLead?_two (n := c.toNat) (by omega) (by omega)
      simp only [List.cons_append, List.nil_append]
      rw [readFrom_lead hp (by omega) (by omega), readFrom_last (by omega) (by omega) (by omega),
        hself (by omega)]
    · split
      · obtain ⟨low, high, hp, hl, hh⟩ := ofLead?_three (n := c.toNat) (by omega) (by omega) hs
        simp only [List.cons_append, List.nil_append]
        rw [readFrom_lead hp (by omega) (by omega), readFrom_more hl hh (by omega),
          readFrom_last (by omega) (by omega) (by omega), hself (by omega)]
      · obtain ⟨low, high, hp, hl, hh⟩ := ofLead?_four (n := c.toNat) (by omega) (by omega)
        simp only [List.cons_append, List.nil_append]
        rw [readFrom_lead hp (by omega) (by omega), readFrom_more hl hh (by omega),
          readFrom_more (by omega) (by omega) (by omega),
          readFrom_last (by omega) (by omega) (by omega), hself (by omega)]

theorem readFrom_encode (t : Text) (rest : Octets) :
    readFrom none (encode t ++ rest) = t.map some ++ readFrom none rest := by
  induction t with
  | nil => rfl
  | cons c t ih => rw [encode_cons, List.append_assoc, readFrom_encodeChar, ih]; rfl

theorem readFrom_encode_self (t : Text) : readFrom none (encode t) = t.map some := by
  simpa [readFrom] using readFrom_encode t []

theorem decode_encode (t : Text) : decode (encode t) = t := by
  simp [decode, readFrom_encode_self, Function.comp_def]

theorem decode?_encode (t : Text) : decode? (encode t) = some t := by
  rw [decode?, readFrom_encode_self]
  induction t with
  | nil => rfl
  | cons c t ih => simp [List.mapM_cons, ih]

theorem prefix_of_encode {s t : Text} (h : encode s <+: encode t) : s <+: t := by
  obtain ⟨rest, hrest⟩ := h
  have hread := readFrom_encode s rest
  rw [hrest, readFrom_encode_self] at hread
  have hmap : s.map some <+: t.map some := ⟨_, hread.symm⟩
  exact (List.prefix_map_iff_of_injective fun _ _ he => Option.some.inj he).1 hmap

end Utf8
end Epistle
