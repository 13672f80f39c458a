import Epistle.Header.Parameter
import Epistle.Proofs.Text.Dictionary
import Epistle.Proofs.Text.Split

/-!
Values with one quoted parameter are read back as the value and that parameter, as long as no
semicolon stands in either. Behind the first semicolon nothing can change the value itself; the
parameter is still found, but then as one of the pieces that the semicolons leave of it.
-/
namespace Epistle

namespace Case

/-- A character that lower case leaves alone. -/
def isSmall (c : Char) : Bool := Text.isAscii c && c.toLower == c

theorem lowerFrom_small {t : Text} (h : ∀ c ∈ t, isSmall c) (before : Text) :
    lowerFrom before t = t := by
  have hsigma : isSmall capitalSigma = false := by decide
  induction t generalizing before with
  | nil => rfl
  | cons c t ih =>
      have hc := h c (by simp)
      have hne : c ≠ capitalSigma := by
        rintro rfl
        rw [hsigma] at hc
        cases hc
      simp only [isSmall, Bool.and_eq_true, beq_iff_eq] at hc
      rw [lowerFrom, if_neg hne, lowerChar, if_pos hc.1, hc.2, ih fun d hd => h d (by simp [hd])]
      rfl

theorem lower_small {t : Text} (h : ∀ c ∈ t, isSmall c) : lower t = t := lowerFrom_small h []

/-- Capital letters of ASCII have small forms, and these characters are none. -/
theorem toLower_eq_self {c : Char} (h : c.toNat < 0x41 ∨ 0x5A < c.toNat) : c.toLower = c := by
  have hno : ¬ (c.val ≥ 'A'.val ∧ c.val ≤ 'Z'.val) := by
    simp only [ge_iff_le, UInt32.le_iff_toNat_le]
    change ¬ (65 ≤ c.toNat ∧ c.toNat ≤ 90)
    omega
  exact dif_neg hno

theorem toLower_ofNat {n : Nat} (h : 0x5A < n) : (Char.ofNat n).toLower = Char.ofNat n := by
  apply toLower_eq_self
  by_cases hvalid : n.isValidChar
  · have hchar : Char.ofNat n = Char.ofNatAux n hvalid := dif_pos hvalid
    rw [hchar]
    exact .inr h
  · have hnul : Char.ofNat n = '\x00' := dif_neg hvalid
    rw [hnul]
    exact .inl (by decide)

theorem toLower_ascii {c : Char} (h : Text.isAscii c) : c.toLower.toLower = c.toLower := by
  have hall : ∀ n < 0x80, (Char.ofNat n).toLower.toLower = (Char.ofNat n).toLower := by decide
  have hc := hall c.toNat (by simpa [Text.isAscii] using h)
  rwa [Char.ofNat_toNat] at hc

theorem toLower_of_mem_lowerWide {c d : Char} (hc : Text.isAscii c = false)
    (h : d ∈ lowerWide c) : d.toLower = d := by
  have hall : ∀ r ∈ capitals, 0x5A < r.lower := by decide +kernel
  have hdotted : ∀ x ∈ ['i', Char.ofNat 0x307], x.toLower = x := by decide
  rw [lowerWide] at h
  split at h
  · exact hdotted d h
  · split at h
    · rename_i r hr
      have hlow := hall r (List.mem_of_find?_eq_some hr)
      rw [List.mem_singleton.1 h]
      exact toLower_ofNat (by omega)
    · rw [List.mem_singleton.1 h]
      simp only [Text.isAscii, decide_eq_false_iff_not] at hc
      exact toLower_eq_self (by omega)

theorem toLower_of_mem_lowerFrom {before t : Text} {d : Char} (h : d ∈ lowerFrom before t) :
    d.toLower = d := by
  induction t generalizing before with
  | nil => cases h
  | cons c t ih =>
      simp only [lowerFrom, List.mem_append] at h
      rcases h with h | h
      · split at h
        · rw [List.mem_singleton.1 h]
          split <;> decide
        · rw [lowerChar] at h
          split at h
          · rename_i hc
            rw [List.mem_singleton.1 h]
            exact toLower_ascii hc
          · exact toLower_of_mem_lowerWide (by simp_all) h
      · exact ih h

/-- Lower case has no capital letter of ASCII. -/
theorem lowerAscii_lower (t : Text) : Text.lowerAscii (lower t) = lower t := by
  rw [Text.lowerAscii]
  conv => rhs; rw [← List.map_id (lower t)]
  exact List.map_congr_left fun _ hd => toLower_of_mem_lowerFrom hd

end Case

namespace Parameters

theorem unquote_quoted (t : Text) : unquote (['"'] ++ t ++ ['"']) = t := by
  have hcons : ['"'] ++ t ++ ['"'] = '"' :: (t ++ ['"']) := rfl
  rw [hcons]
  cases ht : t ++ ['"'] with
  | nil => simp at ht
  | cons c rest =>
      rw [unquote, ← ht, if_pos (by simp), List.dropLast_concat]

/-- Names of parameters that are written plainly: small letters, without a star. -/
structure IsPlainName (key : Text) : Prop where
  small : ∀ c ∈ key, Case.isSmall c
  trimmed : Text.trim (' ' :: key) = key
  equals : '=' ∉ key
  semicolon : ';' ∉ key
  star : withoutEnd? ['*'] key = none
  first : withoutEnd? "*0".toList key = none

variable {key text : Text}

theorem trim_quoted (t : Text) : Text.trim (['"'] ++ t ++ ['"']) = ['"'] ++ t ++ ['"'] := by
  apply Text.trim_eq_self
  · rintro c ⟨⟩
    decide
  · intro c hc
    rw [List.getLast?_append] at hc
    cases hc
    decide

/-- The piece that a quoted parameter begins with is a parameter of its name. -/
theorem ofPiece?_open (hkey : IsPlainName key) (tail : Text) :
    ofPiece? (' ' :: key ++ "=\"".toList ++ tail) =
      some (key, unquote (Text.trim ('"' :: tail))) := by
  have hequals : '=' ∉ ' ' :: key := by
    rw [List.mem_cons, not_or]
    exact ⟨by decide, hkey.equals⟩
  have hjoin : ' ' :: key ++ "=\"".toList ++ tail = (' ' :: key) ++ '=' :: '"' :: tail := by simp
  rw [hjoin, ofPiece?, Text.cut?_append _ hequals, Option.map_some]
  simp only [hkey.trimmed, Case.lower_small hkey.small]

theorem ofPiece?_quoted (hkey : IsPlainName key) (text : Text) :
    ofPiece? (' ' :: key ++ "=\"".toList ++ text ++ ['"']) = some (key, text) := by
  have hquoted : '"' :: (text ++ ['"']) = ['"'] ++ text ++ ['"'] := rfl
  rw [List.append_assoc _ text, ofPiece?_open hkey, hquoted, trim_quoted, unquote_quoted]

theorem unquote_isInfix (t : Text) : unquote t <:+: t := by
  rw [unquote.eq_def]
  split
  · split
    · exact (List.dropLast_prefix _).isInfix.trans (List.suffix_cons _ _).isInfix
    · exact List.infix_refl _
  · exact List.infix_refl _

theorem ofPiece?_isInfix {piece value : Text} (h : ofPiece? piece = some (key, value)) :
    value <:+: piece := by
  obtain ⟨⟨name, rest⟩, hcut, hpair⟩ := Option.map_eq_some_iff.1 h
  cases hpair
  rw [Text.cut?_eq hcut]
  have hrest : rest <:+: name ++ '=' :: rest :=
    ((List.suffix_cons '=' rest).trans (List.suffix_append name _)).isInfix
  exact ((unquote_isInfix _).trans (Text.trim_isInfix rest)).trans hrest

theorem fst_of_mem_setEncoding {name : Text} {e : Encoding} {es : List (Text × Encoding)}
    {p : Text × Encoding} (h : p ∈ setEncoding name e es) : p.1 = name ∨ p ∈ es := by
  rcases List.mem_cons.1 h with rfl | h
  · exact .inl rfl
  · exact .inr (List.mem_filter.1 h).1

/-- Only encoded parameters that no plain one answers have an encoding. -/
theorem fst_of_mem_encodings {ps : Parameters} :
    ∀ p ∈ encodings ps, p.1 ∈ encodedNames ps := by
  refine List.foldlRecOn
    (motive := fun es : List (Text × Encoding) => ∀ p ∈ es, p.1 ∈ encodedNames ps) _ _ (by simp) ?_
  intro es hes name hname
  split
  · refine List.foldlRecOn
      (motive := fun es : List (Text × Encoding) => ∀ p ∈ es, p.1 ∈ encodedNames ps) _ _ hes ?_
    intro es hes n hn p hp
    rcases fst_of_mem_setEncoding hp with heq | hp
    · exact heq ▸ (List.mem_filter.1 hn).1
    · exact hes p hp
  · split
    · exact hes
    · intro p hp
      rcases fst_of_mem_setEncoding hp with heq | hp
      · exact heq ▸ hname
      · exact hes p hp

theorem ne_of_not_has {ps : Parameters} {name : Text} (hkey : (ps.get? key).isSome)
    (hname : (!ps.has name) = true) : key ≠ name := by
  rintro rfl
  rw [Dictionary.has, hkey] at hname
  cases hname

/-- A parameter without a star is there with the same value once the others are decoded. -/
theorem get?_decodeAll [Charsets] {ps : Parameters} (hstar : '*' ∉ key)
    (hkey : (ps.get? key).isSome) : (decodeAll ps).get? key = ps.get? key := by
  refine List.foldlRecOn (motive := fun acc : Parameters => acc.get? key = ps.get? key) _ _ rfl ?_
  rintro acc hacc ⟨name, e⟩ hmem
  have hname := (List.mem_filter.1 (fst_of_mem_encodings _ hmem)).2
  have hstarred : key ≠ name ++ ['*'] := by
    rintro rfl
    exact hstar (by simp)
  dsimp only
  split
  · exact hacc
  · rw [Dictionary.get?_set, if_neg (ne_of_not_has hkey hname), Dictionary.get?_remove hstarred,
      hacc]

theorem get?_takePieces (hstar : '*' ∉ key) (base : Text) (ps : Parameters) (i left : Nat) :
    (takePieces base ps i left).2.get? key = ps.get? key := by
  induction left generalizing ps i with
  | zero => rfl
  | succ left ih =>
      rw [takePieces]
      dsimp only
      split
      · rfl
      · have hname : key ≠ base ++ '*' :: (toString i).toList := by
          rintro rfl
          exact hstar (by simp)
        exact (ih _ _).trans (Dictionary.get?_remove hname ps)

/-- So it is once the numbered pieces of the others are joined. -/
theorem get?_joinAll {ps : Parameters} (hstar : '*' ∉ key) (hkey : (ps.get? key).isSome) :
    (joinAll ps).get? key = ps.get? key := by
  refine List.foldlRecOn (motive := fun acc : Parameters => acc.get? key = ps.get? key) _ _ rfl ?_
  intro acc hacc base hmem
  have hbase := (List.mem_filter.1 hmem).2
  dsimp only
  rw [Dictionary.get?_set, if_neg (ne_of_not_has hkey hbase), get?_takePieces hstar, hacc]

theorem decodeAll_single [Charsets] (hkey : IsPlainName key) (text : Text) :
    decodeAll [(key, text)] = [(key, text)] := by
  have hnames : encodedNames [(key, text)] = [] := by
    simp [encodedNames, hkey.star]
  rw [decodeAll, encodings, hnames]
  rfl

theorem joinAll_single (hkey : IsPlainName key) (text : Text) :
    joinAll [(key, text)] = [(key, text)] := by
  simp only [joinAll, List.filterMap_cons, hkey.first]
  rfl

end Parameters

namespace Parameterized

open Parameters (IsPlainName)

variable {value key : Text}

theorem read_alone [Charsets] (h : ';' ∉ value) (ht : Text.trim value = value) :
    read value = ⟨value, []⟩ := by
  rw [read, Text.splitAll_of_not_mem h]
  exact congrArg (Parameterized.mk · []) ht

/-- Behind a semicolon nothing changes the value. -/
theorem value_read [Charsets] (h : ';' ∉ value) (ht : Text.trim value = value) {more : Text}
    (hmore : ∀ c, more.head? = some c → c = ';') : (read (value ++ more)).value = value := by
  cases more with
  | nil => rw [List.append_nil, read_alone h ht]
  | cons c rest =>
      rw [hmore c rfl, read, Text.splitAll_append rest h]
      exact ht

theorem read_quoted [Charsets] (h : ';' ∉ value) (ht : Text.trim value = value)
    (hkey : IsPlainName key) {text : Text} (htext : ';' ∉ text) :
    read (value ++ "; ".toList ++ key ++ "=\"".toList ++ text ++ ['"']) =
      ⟨value, [(key, text)]⟩ := by
  have hjoin : value ++ "; ".toList ++ key ++ "=\"".toList ++ text ++ ['"'] =
      value ++ ';' :: (' ' :: key ++ "=\"".toList ++ text ++ ['"']) := by simp
  have hpiece : ';' ∉ ' ' :: key ++ "=\"".toList ++ text ++ ['"'] := by
    simp only [List.mem_append, not_or]
    refine ⟨⟨⟨?_, by decide⟩, htext⟩, by decide⟩
    rw [List.mem_cons, not_or]
    exact ⟨by decide, hkey.semicolon⟩
  have hlist : Dictionary.ofList [(key, text)] = [(key, text)] := rfl
  rw [hjoin, read, Text.splitAll_append _ h, Text.splitAll_of_not_mem hpiece]
  simp only [List.filterMap_cons_some (Parameters.ofPiece?_quoted hkey text), List.filterMap_nil,
    hlist, Parameters.decodeAll_single hkey, Parameters.joinAll_single hkey, ht]

/-- Whatever is in its quotes, a parameter without a star is found; but its value is a piece of the
line in which no semicolon stands. -/
theorem get?_read [Charsets] (h : ';' ∉ value) (hkey : IsPlainName key) (hstar : '*' ∉ key)
    (text : Text) :
    ∃ found, (read (value ++ "; ".toList ++ key ++ "=\"".toList ++ text ++ ['"'])).params.get? key =
      some found ∧ ';' ∉ found ∧
      found <:+: value ++ "; ".toList ++ key ++ "=\"".toList ++ text ++ ['"'] := by
  have hjoin : value ++ "; ".toList ++ key ++ "=\"".toList ++ text ++ ['"'] =
      value ++ ';' :: (' ' :: key ++ "=\"".toList ++ (text ++ ['"'])) := by simp
  have hopen : ';' ∉ ' ' :: key ++ "=\"".toList := by
    rw [List.mem_append, List.mem_cons, not_or, not_or]
    exact ⟨⟨by decide, hkey.semicolon⟩, by decide⟩
  obtain ⟨tail, more, hpieces⟩ := Text.splitAll_front hopen (text ++ ['"'])
  rw [hjoin]
  generalize hrest : ' ' :: key ++ "=\"".toList ++ (text ++ ['"']) = rest at hpieces
  generalize hentries : (Text.splitAll ';' rest).filterMap Parameters.ofPiece? = entries
  have hfirst : (key, Parameters.unquote (Text.trim ('"' :: tail))) ∈ entries := by
    rw [← hentries, hpieces, List.filterMap_cons_some (Parameters.ofPiece?_open hkey tail)]
    exact List.mem_cons_self
  have hlookup : (Dictionary.ofList entries).get? key = entries.reverse.lookup key :=
    (Dictionary.get?_setAll [] entries key).trans Option.or_none
  have hsome : ((Dictionary.ofList entries).get? key).isSome := by
    rw [hlookup, List.lookup_isSome_iff]
    exact ⟨_, List.mem_reverse.2 hfirst, beq_self_eq_true key⟩
  obtain ⟨found, hfound⟩ := Option.isSome_iff_exists.1 hsome
  have hread : (read (value ++ ';' :: rest)).params.get? key = some found := by
    rw [read, Text.splitAll_append rest h]
    dsimp only
    rw [hentries, Parameters.get?_joinAll hstar, Parameters.get?_decodeAll hstar hsome, hfound]
    rwa [Parameters.get?_decodeAll hstar hsome]
  -- The value that counts is the one of some piece, and no piece holds a semicolon.
  rw [hlookup] at hfound
  have hmem : (key, found) ∈ entries := List.mem_reverse.1 (Dictionary.mem_of_get? hfound)
  rw [← hentries, List.mem_filterMap] at hmem
  obtain ⟨piece, hpiece, hvalue⟩ := hmem
  obtain ⟨hpart, hnot⟩ := Text.mem_splitAll hpiece
  have hin := Parameters.ofPiece?_isInfix hvalue
  have hbehind : rest <:+: value ++ ';' :: rest :=
    ((List.suffix_cons ';' rest).trans (List.suffix_append value _)).isInfix
  exact ⟨found, hread, fun hc => hnot (hin.subset hc), (hin.trans hpart).trans hbehind⟩

end Parameterized
end Epistle
