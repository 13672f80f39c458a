import Epistle.Proofs.Text.Utf8
import Epistle.Text.Charset
import Epistle.Transfer.LineEnding

/-!
Line endings survive the way over the wire: text that is sent with CRLF and read again comes back
with the line feeds it would have had anyway. Text that is labelled as UTF-8 is read as it is
unless it begins with a byte order mark.
-/
namespace Epistle

namespace Charset

/-- The byte order mark as a character. -/
def byteOrderMark : Char := Char.ofNat 0xFEFF

theorem ofMark?_encode {t : Text} (h : t.head? ≠ some byteOrderMark) :
    ofMark? (Utf8.encode t) = none := by
  have hread := Utf8.readFrom_encode_self t
  rw [ofMark?.eq_def]
  split
  · rename_i rest heq
    have hmark : Utf8.readFrom none (0xEF :: 0xBB :: 0xBF :: rest) =
        some byteOrderMark :: Utf8.readFrom none rest := Utf8.readFrom_encodeChar byteOrderMark rest
    rw [heq, hmark] at hread
    cases t with
    | nil => cases hread
    | cons c t =>
        rw [List.map_cons, List.cons.injEq, Option.some.injEq] at hread
        exact absurd (congrArg some hread.1.symm) h
  · rename_i rest heq
    rw [heq] at hread
    cases t with
    | nil => cases hread
    | cons c t => cases hread
  · rename_i rest heq
    rw [heq] at hread
    cases t with
    | nil => cases hread
    | cons c t => cases hread
  · rfl

theorem decodeLabelled_encode [Charsets] {t : Text} (h : t.head? ≠ some byteOrderMark) :
    decodeLabelled "utf-8" (Utf8.encode t) = t := by
  have hlabel : ofBodyLabel? "utf-8" = some utf8 := (if_neg (by decide)).trans (if_pos (by decide))
  rw [decodeLabelled, hlabel]
  simp only [ofMark?_encode h]
  exact Utf8.decode_encode t

end Charset

namespace LineEnding

variable {last : UInt8} {bytes : Octets} {t : Text}

theorem expandFrom_cons_of_ne {b : UInt8} (h : b ≠ lf) (last : UInt8) (rest : Octets) :
    expandFrom last (b :: rest) = b :: expandFrom b rest := by
  rw [expandFrom, if_neg fun hb => h hb.1]

theorem expandFrom_lf (h : last ≠ cr) (rest : Octets) :
    expandFrom last (lf :: rest) = cr :: lf :: expandFrom lf rest := by
  rw [expandFrom, if_pos ⟨rfl, h⟩]

theorem expandFrom_cr_lf (rest : Octets) :
    expandFrom cr (lf :: rest) = lf :: expandFrom lf rest := by
  rw [expandFrom, if_neg fun hl => hl.2 rfl]

theorem collapseWith_cons {α : Type} [DecidableEq α] {cr lf c : α} {rest : List α}
    (h : c = cr → rest.head? ≠ some lf) :
    collapseWith cr lf (c :: rest) = c :: collapseWith cr lf rest := by
  cases rest with
  | nil => rfl
  | cons d rest => rw [collapseWith, if_neg fun hc => h hc.1 (congrArg some hc.2)]

theorem collapseWith_append {α : Type} [DecidableEq α] {cr lf : α} {xs : List α} (h : cr ∉ xs)
    (ys : List α) : collapseWith cr lf (xs ++ ys) = xs ++ collapseWith cr lf ys := by
  induction xs with
  | nil => rfl
  | cons x xs ih =>
      obtain ⟨hx, hxs⟩ := not_or.1 (mt List.mem_cons.2 h)
      rw [List.cons_append, collapseWith_cons fun he => absurd he.symm hx, ih hxs]
      rfl

theorem collapseWith_eq_self {α : Type} [DecidableEq α] {cr lf : α} {t : List α} (h : cr ∉ t) :
    collapseWith cr lf t = t := by
  have hall : collapseWith cr lf (t ++ []) = t ++ [] := collapseWith_append h []
  rwa [List.append_nil] at hall

theorem collapseWith_pair {α : Type} [DecidableEq α] (cr lf : α) (rest : List α) :
    collapseWith cr lf (cr :: lf :: rest) = lf :: collapseWith cr lf rest := by
  rw [collapseWith, if_pos ⟨rfl, rfl⟩]

theorem expandFrom_append (last : UInt8) (xs ys : Octets) :
    expandFrom last (xs ++ ys) = expandFrom last xs ++ expandFrom (xs.getLastD last) ys := by
  induction xs generalizing last with
  | nil => rfl
  | cons x xs ih =>
      rw [List.cons_append, expandFrom, expandFrom, ih, List.getLastD_cons]
      split <;> rfl

theorem expandFrom_of_not_mem (h : lf ∉ bytes) (last : UInt8) : expandFrom last bytes = bytes := by
  induction bytes generalizing last with
  | nil => rfl
  | cons b rest ih =>
      obtain ⟨hb, hrest⟩ := not_or.1 (mt List.mem_cons.2 h)
      rw [expandFrom_cons_of_ne (Ne.symm hb), ih hrest]

theorem head?_expandFrom_ne (h : bytes.head? ≠ some lf) :
    (expandFrom last bytes).head? ≠ some lf := by
  cases bytes with
  | nil => simp [expandFrom]
  | cons b rest =>
      have hb : b ≠ lf := fun he => h (congrArg some he)
      rw [expandFrom_cons_of_ne hb]
      exact h

/-- What expanding adds is what collapsing takes away. A carriage return that came before stays, so
a line feed at the front must not follow one. -/
theorem collapseWith_expandFrom (h : last = cr → bytes.head? ≠ some lf) :
    collapseWith cr lf (expandFrom last bytes) = collapseWith cr lf bytes := by
  have hne : lf ≠ cr := by decide
  fun_induction collapseWith cr lf bytes generalizing last with
  | case1 => rfl
  | case2 b =>
      by_cases hb : b = lf
      · subst hb
        rw [expandFrom_lf fun hl => h hl rfl, collapseWith_pair]
        rfl
      · rw [expandFrom_cons_of_ne hb]
        rfl
  | case3 b c rest hpair ih =>
      obtain ⟨rfl, rfl⟩ := hpair
      rw [expandFrom_cons_of_ne hne.symm, expandFrom_cr_lf, collapseWith_pair,
        ih fun hl => absurd hl hne]
  | case4 b c rest hpair ih =>
      by_cases hb : b = lf
      · subst hb
        rw [expandFrom_lf fun hl => h hl rfl, collapseWith_pair, ih fun hl => absurd hl hne]
      · have hnext : b = cr → (c :: rest).head? ≠ some lf :=
          fun hcr hc => hpair ⟨hcr, Option.some.inj hc⟩
        rw [expandFrom_cons_of_ne hb, collapseWith_cons fun hcr => head?_expandFrom_ne (hnext hcr),
          ih hnext]

section Encoded

variable {c : Char}

theorem head?_encode_ne (h : t.head? ≠ some '\n') : (Utf8.encode t).head? ≠ some lf := by
  cases t with
  | nil => exact nofun
  | cons c t =>
      have hc : c ≠ '\n' := fun he => h (congrArg some he)
      have hlf : lf ∉ Utf8.encodeChar c :=
        Utf8.not_mem_encodeChar (by decide) (by decide) hc
      obtain ⟨first, more, hoctets⟩ := List.exists_cons_of_ne_nil (Utf8.encodeChar_ne_nil c)
      rw [hoctets] at hlf
      rw [Utf8.encode_cons, hoctets]
      intro hhead
      exact hlf (Option.some.inj hhead ▸ List.mem_cons_self)

theorem collapseWith_encodeChar (h : c = '\r' → bytes.head? ≠ some lf) :
    collapseWith cr lf (Utf8.encodeChar c ++ bytes) =
      Utf8.encodeChar c ++ collapseWith cr lf bytes := by
  by_cases hc : c = '\r'
  · subst hc
    exact collapseWith_cons fun _ => h rfl
  · have hcr : cr ∉ Utf8.encodeChar c :=
      Utf8.not_mem_encodeChar (by decide) (by decide) hc
    exact collapseWith_append hcr bytes

/-- The line endings of a text are collapsed in its octets as they are in the text. -/
theorem encode_collapse (t : Text) :
    Utf8.encode (collapse t) = collapseWith cr lf (Utf8.encode t) := by
  rw [collapse]
  fun_induction collapseWith '\r' '\n' t with
  | case1 => rfl
  | case2 c =>
      have halone : c = '\r' → ([] : Octets).head? ≠ some lf := fun _ => nofun
      exact (collapseWith_encodeChar halone).symm
  | case3 c d rest hpair ih =>
      obtain ⟨rfl, rfl⟩ := hpair
      exact (congrArg (lf :: ·) ih).trans (collapseWith_pair cr lf _).symm
  | case4 c d rest hpair ih =>
      have hnext : c = '\r' → (d :: rest).head? ≠ some '\n' :=
        fun hc hd => hpair ⟨hc, Option.some.inj hd⟩
      rw [Utf8.encode_cons c, Utf8.encode_cons c, ih,
        collapseWith_encodeChar fun hc => head?_encode_ne (hnext hc)]

/-- Expanding puts nothing inside a character, so what it makes of a text is a text. -/
theorem exists_expandFrom_encode (last : UInt8) (t : Text) :
    ∃ sent, expandFrom last (Utf8.encode t) = Utf8.encode sent := by
  induction t generalizing last with
  | nil => exact ⟨[], rfl⟩
  | cons c t ih =>
      by_cases hc : c = '\n'
      · subst hc
        obtain ⟨sent, hsent⟩ := ih lf
        have hlf : Utf8.encode ('\n' :: t) = lf :: Utf8.encode t := rfl
        rw [hlf, expandFrom, hsent]
        split
        · exact ⟨'\r' :: '\n' :: sent, rfl⟩
        · exact ⟨'\n' :: sent, rfl⟩
      · obtain ⟨sent, hsent⟩ := ih ((Utf8.encodeChar c).getLastD last)
        have hlf : lf ∉ Utf8.encodeChar c :=
          Utf8.not_mem_encodeChar (by decide) (by decide) hc
        refine ⟨c :: sent, ?_⟩
        rw [Utf8.encode_cons, expandFrom_append, expandFrom_of_not_mem hlf, hsent, Utf8.encode_cons]

/-- A text on the wire is a text with the same lines. -/
theorem exists_expand_encode (t : Text) : ∃ sent : Text,
    expand (Utf8.encode t) = Utf8.encode sent ∧ collapse sent = collapse t := by
  obtain ⟨sent, hsent⟩ := exists_expandFrom_encode 0 t
  have hoctets : Utf8.encode (collapse sent) = Utf8.encode (collapse t) := by
    rw [encode_collapse, encode_collapse, ← hsent]
    exact collapseWith_expandFrom fun hl => absurd hl (by decide)
  exact ⟨sent, hsent, Function.LeftInverse.injective Utf8.decode_encode hoctets⟩

end Encoded

theorem toNat_of_isPlain {c : Char} (h : isPlain c) : c.toNat < 0x80 := by
  simp only [isPlain, Text.isPrintable, Bool.or_eq_true, Bool.and_eq_true, decide_eq_true_eq] at h
  rcases h with ((h | rfl) | rfl) | rfl
  · omega
  all_goals decide

/-- Expanding adds no octets but carriage returns. -/
theorem mem_expandFrom {b : UInt8} (h : b ∈ expandFrom last bytes) : b = cr ∨ b ∈ bytes := by
  induction bytes generalizing last with
  | nil => cases h
  | cons c rest ih =>
      rw [expandFrom] at h
      split at h
      · rcases List.mem_cons.1 h with h | h
        · exact .inl h
        · rcases List.mem_cons.1 h with rfl | h
          · exact .inr List.mem_cons_self
          · exact (ih h).imp_right (List.mem_cons_of_mem _)
      · rcases List.mem_cons.1 h with rfl | h
        · exact .inr List.mem_cons_self
        · exact (ih h).imp_right (List.mem_cons_of_mem _)

theorem toNat_of_mem_expandFrom (h : ∀ b ∈ bytes, b.toNat < 0x80) :
    ∀ b ∈ expandFrom last bytes, b.toNat < 0x80 := by
  intro b hb
  rcases mem_expandFrom hb with rfl | hb
  · decide
  · exact h b hb

theorem toNat_ofLatin1 (b : UInt8) : (Charset.ofLatin1 b).toNat = b.toNat := by
  have hb := b.toNat_lt
  have hvalid : b.toNat.isValidChar := .inl (by omega)
  rw [Charset.ofLatin1, Char.ofNat, dif_pos hvalid]
  exact UInt32.toNat_ofNatLT

theorem ofLatin1_injective : Function.Injective Charset.ofLatin1 := by
  intro a b h
  have hnat := congrArg Char.toNat h
  rw [toNat_ofLatin1, toNat_ofLatin1] at hnat
  exact UInt8.toNat_inj.1 hnat

theorem encode_ofLatin1 (h : ∀ b ∈ bytes, b.toNat < 0x80) :
    Utf8.encode (bytes.map Charset.ofLatin1) = bytes := by
  rw [Utf8.encode_ascii, List.map_map]
  · conv => rhs; rw [← List.map_id bytes]
    apply List.map_congr_left
    intro b _
    simp [toNat_ofLatin1]
  · intro c hc
    obtain ⟨b, hb, rfl⟩ := List.mem_map.1 hc
    rw [toNat_ofLatin1]
    exact h b hb

theorem toNat_of_all_isPlain (h : t.all isPlain) : ∀ c ∈ t, c.toNat < 0x80 :=
  fun c hc => toNat_of_isPlain (List.all_eq_true.1 h c hc)

theorem toNat_of_mem_encode (h : ∀ c ∈ t, c.toNat < 0x80) :
    ∀ b ∈ Utf8.encode t, b.toNat < 0x80 := by
  rw [Utf8.encode_ascii h]
  intro b hb
  obtain ⟨c, hc, rfl⟩ := List.mem_map.1 hb
  have hc := h c hc
  rw [UInt8.toNat_ofNat_of_lt' (by simp only [UInt8.size]; omega)]
  exact hc

/-- The octets of ASCII are its characters. -/
theorem map_ofLatin1_encode (h : ∀ c ∈ t, c.toNat < 0x80) :
    (Utf8.encode t).map Charset.ofLatin1 = t := by
  have hdecode := congrArg Utf8.decode (encode_ofLatin1 (toNat_of_mem_encode h))
  rwa [Utf8.decode_encode, Utf8.decode_encode] at hdecode

/-- Plain text on the wire is text that no byte order mark begins. -/
theorem exists_of_expand (h : t.all isPlain) : ∃ sent : Text,
    expand (Utf8.encode t) = Utf8.encode sent ∧ sent.head? ≠ some Charset.byteOrderMark ∧
      collapse sent = collapse t := by
  have hsent : ∀ b ∈ expand (Utf8.encode t), b.toNat < 0x80 :=
    toNat_of_mem_expandFrom (toNat_of_mem_encode (toNat_of_all_isPlain h))
  obtain ⟨sent, hoctets, hlines⟩ := exists_expand_encode t
  refine ⟨sent, hoctets, ?_, hlines⟩
  intro hmark
  obtain ⟨rest, rfl⟩ := List.head?_eq_some_iff.1 hmark
  have hfirst : (0xEF : UInt8) ∈ expand (Utf8.encode t) := by
    rw [hoctets, Utf8.encode_cons]
    exact List.mem_append_left _ (by decide)
  exact absurd (hsent _ hfirst) (by decide)

end LineEnding
end Epistle
