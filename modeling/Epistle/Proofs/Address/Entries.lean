import Epistle.Address.Entries
import Epistle.Proofs.Address.Recipient

/-!
How a list is cut into entries. The scan forgets what it has read at each separator that it cuts at,
so an entry is scanned as if it stood alone, and entries that are closed come back from a list that
is made of them.
-/
namespace Epistle

theorem Text.trimStart_append {front : Text} (h : allBlank front) (t : Text) :
    trimStart (front ++ t) = trimStart t :=
  List.dropWhile_append_of_pos (List.all_eq_true.1 h)

namespace Entries

variable {s : Scan} {t u : Text} {c : Char}

namespace Scan

/-- The scan behind a text. -/
def run (s : Scan) (t : Text) : Scan := t.foldl step s

/-- No separator of the text counts as one. -/
def Covers (s : Scan) : Text → Prop
  | [] => True
  | c :: t => ¬ (isSeparator c ∧ s.outside) ∧ (s.step c).Covers t

theorem run_append (s : Scan) (t u : Text) : s.run (t ++ u) = (s.run t).run u :=
  List.foldl_append

theorem covers_append : s.Covers (t ++ u) ↔ s.Covers t ∧ (s.run t).Covers u := by
  induction t generalizing s with
  | nil => exact (and_iff_right trivial).symm
  | cons c t ih =>
      rw [List.cons_append, Covers, Covers, ih, and_assoc]
      rfl

/-- At a separator that counts the scan begins anew. -/
theorem step_separator (hc : isSeparator c) (h : s.outside) : s.step c = init := by
  obtain ⟨quotes, brackets, backslash⟩ := s
  simp only [outside, Bool.and_eq_true, Bool.not_eq_true'] at h
  obtain ⟨rfl, rfl⟩ := h
  simp only [isSeparator, Bool.or_eq_true, beq_iff_eq] at hc
  rcases hc with rfl | rfl
  · cases backslash <;> rfl
  · cases backslash <;> rfl

/-- The characters that mean nothing to the scan and do not separate. -/
def isCalm (c : Char) : Bool := !(['"', '<', '>', '\\', ',', ';'] : Text).contains c

theorem isCalm_iff : isCalm c ↔
    c ≠ '"' ∧ c ≠ '<' ∧ c ≠ '>' ∧ c ≠ '\\' ∧ c ≠ ',' ∧ c ≠ ';' := by
  simp [isCalm]

theorem step_calm (hc : isCalm c) (h : s.afterBackslash = false) : s.step c = s := by
  obtain ⟨hquote, hopen, hclose, hslash, -, -⟩ := isCalm_iff.1 hc
  obtain ⟨quotes, brackets, backslash⟩ := s
  cases h
  simp [step, hquote, hopen, hclose, hslash]

theorem covers_calm (ht : ∀ c ∈ t, isCalm c) (h : s.afterBackslash = false) :
    s.Covers t ∧ s.run t = s := by
  induction t with
  | nil => exact ⟨trivial, rfl⟩
  | cons c t ih =>
      obtain ⟨hc, ht⟩ := List.forall_mem_cons.1 ht
      obtain ⟨-, -, -, -, hcomma, hsemicolon⟩ := isCalm_iff.1 hc
      obtain ⟨hcovers, hrun⟩ := ih ht
      have hcons : s.run (c :: t) = (s.step c).run t := rfl
      rw [Covers, hcons, step_calm hc h]
      exact ⟨⟨by simp [isSeparator, hcomma, hsemicolon], hcovers⟩, hrun⟩

theorem isCalm_of_isBlank (h : Text.isBlank c) : isCalm c := by
  rw [isCalm_iff]
  refine ⟨?_, ?_, ?_, ?_, ?_, ?_⟩ <;>
    · rintro rfl
      exact absurd h (by decide)

/-- Inside quotes nothing separates, and what is escaped does not end them. -/
theorem covers_escape (brackets : Bool) (t : Text) :
    Covers ⟨true, brackets, false⟩ (Quoted.escape t) ∧
      run ⟨true, brackets, false⟩ (Quoted.escape t) = ⟨true, brackets, false⟩ := by
  induction t with
  | nil => exact ⟨trivial, rfl⟩
  | cons c t ih =>
      have hcons : Quoted.escape (c :: t) = Quoted.escapeChar c ++ Quoted.escape t := rfl
      have hchar : Covers ⟨true, brackets, false⟩ (Quoted.escapeChar c) ∧
          run ⟨true, brackets, false⟩ (Quoted.escapeChar c) = ⟨true, brackets, false⟩ := by
        by_cases hc : c = '\\' ∨ c = '"'
        · rcases hc with rfl | rfl
          · exact ⟨by simp [Quoted.escapeChar, Covers, isSeparator], rfl⟩
          · exact ⟨by simp [Quoted.escapeChar, Covers, isSeparator], rfl⟩
        · obtain ⟨hslash, hquote⟩ := not_or.1 hc
          simp [Quoted.escapeChar, hslash, hquote, Covers, outside, run, step]
      rw [hcons, covers_append, run_append, hchar.2]
      exact ⟨⟨hchar.1, ih.1⟩, ih.2⟩

end Scan

/-- Text without a separator that counts belongs to one piece. -/
theorem piecesFrom_append (h : s.Covers t) (piece rest : Text) :
    piecesFrom s piece (t ++ rest) = piecesFrom (s.run t) (piece ++ t) rest := by
  induction t generalizing s piece with
  | nil => rw [List.append_nil]; rfl
  | cons c t ih =>
      rw [List.cons_append, piecesFrom, if_neg h.1, ih h.2]
      simp [Scan.run]

theorem piecesFrom_covers (h : s.Covers t) (piece : Text) :
    piecesFrom s piece t = [piece ++ t] := by
  have happend := piecesFrom_append h piece []
  rwa [List.append_nil] at happend

theorem piecesFrom_separator (hc : isSeparator c) (h : s.outside) (piece rest : Text) :
    piecesFrom s piece (c :: rest) = piece :: piecesFrom Scan.init [] rest := by
  rw [piecesFrom, if_pos ⟨hc, h⟩, Scan.step_separator hc h]

/-- What stands before a separator that counts and what stands behind it are cut on their own. -/
theorem piecesFrom_divide (hc : isSeparator c) (h : (s.run t).outside) (piece rest : Text) :
    piecesFrom s piece (t ++ c :: rest) = piecesFrom s piece t ++ piecesFrom Scan.init [] rest := by
  induction t generalizing s piece with
  | nil => exact piecesFrom_separator hc h piece rest
  | cons d t ih =>
      rw [List.cons_append, piecesFrom, piecesFrom]
      split
      · rw [ih h, List.cons_append]
      · exact ih h (piece ++ [d])

theorem split_divide (hc : isSeparator c) (h : (Scan.init.run t).outside) (rest : Text) :
    split (t ++ c :: rest) = split t ++ split rest := by
  simp only [split, piecesFrom_divide hc h, List.map_append, List.filter_append]

/-- Text without a separator that counts is one entry, if it is not blank. -/
theorem split_covers (h : Scan.init.Covers t) : split t = [Text.trim t].filter (· ≠ []) := by
  rw [split, piecesFrom_covers h]
  rfl

theorem split_self (h : Scan.init.Covers t) (htrim : Text.trim t = t) (hne : t ≠ []) :
    split t = [t] := by
  rw [split_covers h, htrim]
  simp [hne]

/-- Blanks at the beginning of a piece are trimmed off. -/
theorem map_trim_piecesFrom {front : Text} (h : Text.allBlank front) (s : Scan) (piece t : Text) :
    (piecesFrom s (front ++ piece) t).map Text.trim = (piecesFrom s piece t).map Text.trim := by
  have htrim : ∀ piece, Text.trim (front ++ piece) = Text.trim piece := by
    intro piece
    rw [Text.trim, Text.trimStart_append h, Text.trim]
  induction t generalizing s piece with
  | nil => rw [piecesFrom, piecesFrom, List.map_singleton, List.map_singleton, htrim]
  | cons c t ih =>
      rw [piecesFrom, piecesFrom]
      split
      · rw [List.map_cons, List.map_cons, htrim]
      · rw [List.append_assoc, ih]

theorem split_blank {front : Text} (h : Text.allBlank front) (t : Text) :
    split (front ++ t) = split t := by
  have hcalm : ∀ c ∈ front, Scan.isCalm c :=
    fun c hc => Scan.isCalm_of_isBlank (List.all_eq_true.1 h c hc)
  obtain ⟨hcovers, hrun⟩ := @Scan.covers_calm Scan.init front hcalm rfl
  have hpieces := map_trim_piecesFrom h Scan.init [] t
  rw [split, piecesFrom_append hcovers, hrun, List.nil_append, split, ← hpieces, List.append_nil]

/-- An entry that a separator can follow. -/
structure Closed (e : Text) : Prop where
  ne : e ≠ []
  trimmed : Text.trim e = e
  covers : Scan.init.Covers e
  outside : (Scan.init.run e).outside

/-- What is read of a piece is scanned as the beginning of it. -/
theorem covers_of_mem_pieces {piece rest : Text} (hpiece : Scan.init.Covers piece)
    (h : t ∈ piecesFrom (Scan.init.run piece) piece rest) : Scan.init.Covers t := by
  induction rest generalizing piece with
  | nil => rwa [List.mem_singleton.1 h]
  | cons c rest ih =>
      by_cases hc : isSeparator c ∧ (Scan.init.run piece).outside
      · rw [piecesFrom_separator hc.1 hc.2] at h
        rcases List.mem_cons.1 h with rfl | h
        · exact hpiece
        · exact @ih [] trivial h
      · have hrun : (Scan.init.run piece).step c = Scan.init.run (piece ++ [c]) := by
          rw [Scan.run_append]
          rfl
        have hlonger : Scan.init.Covers (piece ++ [c]) :=
          Scan.covers_append.2 ⟨hpiece, hc, trivial⟩
        rw [piecesFrom, if_neg hc, hrun] at h
        exact ih hlonger h

theorem covers_trim (h : Scan.init.Covers t) : Scan.init.Covers (Text.trim t) := by
  obtain ⟨tail, hend⟩ := Text.dropEndWhile_append Text.isBlank (Text.trimStart t)
  have hblank : ∀ c ∈ t.takeWhile Text.isBlank, Scan.isCalm c :=
    fun c hc => Scan.isCalm_of_isBlank (List.mem_takeWhile_imp hc)
  have hstart : Scan.init.Covers (Text.trimStart t) := by
    rw [← @List.takeWhile_append_dropWhile _ Text.isBlank t, Scan.covers_append,
      (Scan.covers_calm hblank rfl).2] at h
    exact h.2
  rw [← hend] at hstart
  exact (Scan.covers_append.1 hstart).1

/-- An entry holds no separator that the scan would have cut at. -/
theorem covers_of_mem_split {list e : Text} (h : e ∈ split list) : Scan.init.Covers e := by
  obtain ⟨piece, hpiece, rfl⟩ := List.mem_map.1 (List.mem_filter.1 h).1
  exact covers_trim (@covers_of_mem_pieces piece [] list trivial hpiece)

theorem trim_of_mem_split {list e : Text} (h : e ∈ split list) : Text.trim e = e ∧ e ≠ [] := by
  obtain ⟨hmem, hne⟩ := List.mem_filter.1 h
  obtain ⟨piece, -, rfl⟩ := List.mem_map.1 hmem
  exact ⟨Text.trim_trim piece, by simpa using hne⟩

/-- An entry stands for itself where a list is expected. -/
theorem split_of_mem_split {list e : Text} (h : e ∈ split list) : split e = [e] := by
  obtain ⟨htrim, hne⟩ := trim_of_mem_split h
  exact split_self (covers_of_mem_split h) htrim hne

theorem parse_of_split_ne_nil {list : Text} (h : split list ≠ []) (name : Option Text)
    (role : Option Role) :
    parse name list role = (split list).mapM fun entry => interpret name entry role := by
  rw [parse]
  split
  · rename_i hnil
    exact absurd hnil h
  · rfl

/-- Entries come back from a list of them if all but the last can be followed by a separator. -/
theorem split_join {es : List Text} (hself : ∀ e ∈ es, split e = [e])
    (hopen : ∀ e ∈ es.dropLast, (Scan.init.run e).outside) :
    split (Text.joinWith ", ".toList es) = es := by
  induction es with
  | nil => rfl
  | cons e es ih =>
      cases es with
      | nil => exact hself e List.mem_cons_self
      | cons next es =>
          have hcomma : Text.joinWith ", ".toList (e :: next :: es) =
              e ++ ',' :: ([' '] ++ Text.joinWith ", ".toList (next :: es)) := by
            rw [Text.joinWith_cons _ _ _ (List.cons_ne_nil next es), List.append_assoc]
            rfl
          have hrest := ih (fun f hf => hself f (List.mem_cons_of_mem e hf))
            fun f hf => hopen f (List.mem_cons_of_mem e hf)
          rw [hcomma, split_divide rfl (hopen e List.mem_cons_self), hself e List.mem_cons_self,
            split_blank rfl, hrest]
          rfl

/-- Closed entries come back from a list of them. -/
theorem split_joinWith {es : List Text} (h : ∀ e ∈ es, Closed e) (_ : es ≠ []) :
    split (Text.joinWith ", ".toList es) = es :=
  split_join (fun e he => split_self (h e he).covers (h e he).trimmed (h e he).ne)
    fun e he => (h e ((List.dropLast_sublist es).subset he)).outside

end Entries

namespace Recipient

open Entries (Closed Scan)

/-- A named recipient is an entry: its quotes and brackets hide what is in them. -/
theorem closed_named (name : Text) {address : Text} (h : ∀ c ∈ address, Scan.isCalm c) :
    Closed (['"'] ++ Quoted.escape name ++ "\" <".toList ++ address ++ ['>']) := by
  obtain ⟨hname, hquoted⟩ := Scan.covers_escape false name
  obtain ⟨haddress, hboxed⟩ := @Scan.covers_calm ⟨false, true, false⟩ address h rfl
  have hopen : Scan.init.run ['"'] = ⟨true, false, false⟩ := rfl
  have hbracket : Scan.run ⟨true, false, false⟩ "\" <".toList = ⟨false, true, false⟩ := rfl
  refine ⟨by simp, ?_, ?_, ?_⟩
  · refine Text.trim_eq_self ?_ ?_
    · rintro c ⟨⟩
      decide
    · intro c hc
      rw [List.getLast?_concat] at hc
      cases hc
      decide
  · simp only [Scan.covers_append, Scan.run_append, hopen, hquoted, hbracket, hboxed]
    exact ⟨⟨⟨⟨by simp [Scan.Covers, Entries.isSeparator], hname⟩,
      by simp [Scan.Covers, Entries.isSeparator]⟩, haddress⟩,
      by simp [Scan.Covers, Entries.isSeparator]⟩
  · simp only [Scan.run_append, hopen, hquoted, hbracket, hboxed]
    rfl

theorem closed_display {r : Recipient} (hvalid : r.Valid)
    (h : ∀ c ∈ r.address, Scan.isCalm c) : Closed r.display := by
  cases hn : r.name with
  | none =>
      obtain ⟨hcovers, hrun⟩ := @Scan.covers_calm Scan.init r.address h rfl
      simp only [display, hn]
      refine ⟨hvalid.address_ne, hvalid.address_trimmed, hcovers, ?_⟩
      rw [hrun]
      rfl
  | some name =>
      simp only [display, hn]
      exact closed_named name h

end Recipient
end Epistle
