import Epistle.Proofs.Transfer.WireLines

/-!
Expanding line endings, described by what stood there before. A carriage return comes in front of
every line feed that has none, and all other octets stay as they are and in their order. A CRLF is
therefore kept, a second expansion finds nothing to do, and a reader that takes CRLF for a line feed
finds the lines that were there before.
-/
namespace Epistle
namespace LineEnding

variable {before bytes : Octets} {b : UInt8}

/-- A line feed behind the octets `before`, of which the last is no carriage return. -/
def IsBare (before : Octets) (b : UInt8) : Prop := b = lf ∧ before.getLast? ≠ some cr

instance : Decidable (IsBare before b) := inferInstanceAs (Decidable (_ ∧ _))

/-- What is written for `b` behind the octets `before`: the octet, and no more than a carriage
return in front of it. -/
def written (before : Octets) (b : UInt8) : Octets := if IsBare before b then [cr, b] else [b]

/-- Expanding takes a zero for the octet in front of the first one, and a zero is no carriage
return. -/
theorem getLastD_eq_cr : before.getLastD 0 = cr ↔ before.getLast? = some cr := by
  rw [List.getLastD_eq_getLast?]
  cases before.getLast? with
  | none => exact iff_of_false (by decide) (by decide)
  | some b => exact Option.some_inj.symm

theorem expandFrom_cons (before : Octets) (b : UInt8) (rest : Octets) :
    expandFrom (before.getLastD 0) (b :: rest) = written before b ++ expandFrom b rest := by
  have hbare : b = lf ∧ before.getLastD 0 ≠ cr ↔ IsBare before b :=
    and_congr_right fun _ => not_congr getLastD_eq_cr
  rw [expandFrom, written]
  simp only [hbare]
  split <;> rfl

/-- Each octet is written once, and a bare line feed with a carriage return in front of it. -/
theorem expandFrom_eq_flatten (before bytes : Octets) :
    expandFrom (before.getLastD 0) bytes =
      (bytes.mapIdx fun i => written (before ++ bytes.take i)).flatten := by
  induction bytes generalizing before with
  | nil => rfl
  | cons b rest ih =>
      have hrest := ih (before ++ [b])
      simp only [List.getLastD_concat, List.append_assoc, List.singleton_append] at hrest
      rw [expandFrom_cons, List.mapIdx_cons, List.flatten_cons]
      simp only [List.take_zero, List.append_nil, List.take_succ_cons, hrest]

theorem expandFrom_eq_self (h : Trails cr lf (before ++ bytes)) :
    expandFrom (before.getLastD 0) bytes = bytes := by
  induction bytes generalizing before with
  | nil => rfl
  | cons b rest ih =>
      have hbare : ¬ IsBare before b := by
        rintro ⟨rfl, hlast⟩
        exact hlast (h before rest rfl)
      have hrest : Trails cr lf (before ++ [b] ++ rest) := by
        rwa [List.append_assoc, List.singleton_append]
      have htail := ih hrest
      rw [List.getLastD_concat] at htail
      rw [expandFrom_cons, written, if_neg hbare, htail]
      rfl

theorem expand_eq_self_iff : expand bytes = bytes ↔ Trails cr lf bytes := by
  constructor
  · intro h
    rw [← h]
    exact trails_expand bytes
  · exact @expandFrom_eq_self [] bytes

/-- Behind a line feed everything is as it would be at the front. -/
theorem expandFrom_lf_eq (bytes : Octets) : expandFrom lf bytes = expand bytes := by
  have hlf : lf ≠ cr := by decide
  have hzero : (0 : UInt8) ≠ cr := by decide
  cases bytes with
  | nil => rfl
  | cons b rest =>
      rw [expand, expandFrom, expandFrom]
      simp only [ne_eq, hlf, hzero]

/-- A CRLF stays where it is, and neither what stands in front of it nor what stands behind it
depends on it. -/
theorem expand_crlf (before after : Octets) :
    expand (before ++ crlf ++ after) = expand before ++ crlf ++ expand after := by
  have hpair : crlf ++ after = cr :: lf :: after := rfl
  rw [expand, List.append_assoc, expandFrom_append, hpair, expandFrom_cons_of_ne (by decide),
    expandFrom_cr_lf, expandFrom_lf_eq, List.append_assoc]
  rfl

/-- Behind the expansion every line feed follows a carriage return, and expanding again changes
nothing. Each CRLF is kept, and whoever reads CRLF as a line feed, in octets or in the text that
they stand for, reads what stood there before: nothing was added but a carriage return in front of
each bare line feed. -/
theorem expand_normalizes (bytes : Octets) :
    Trails cr lf (expand bytes) ∧ expand (expand bytes) = expand bytes ∧
    (∀ before after, bytes = before ++ crlf ++ after →
      expand bytes = expand before ++ crlf ++ expand after) ∧
    collapseWith cr lf (expand bytes) = collapseWith cr lf bytes ∧
    (∀ t, bytes = Utf8.encode t →
      ∃ sent, expand bytes = Utf8.encode sent ∧ collapse sent = collapse t) ∧
    expand bytes = (bytes.mapIdx fun i => written (bytes.take i)).flatten := by
  refine ⟨trails_expand bytes, expand_eq_self_iff.2 (trails_expand bytes), ?_, ?_, ?_, ?_⟩
  · rintro before after rfl
    exact expand_crlf before after
  · exact collapseWith_expandFrom fun hl => absurd hl (by decide)
  · rintro t rfl
    exact exists_expand_encode t
  · exact expandFrom_eq_flatten [] bytes

/-- Two bare line feeds at the front, a CRLF behind one more carriage return, another CRLF, and a
carriage return at the end. -/
def ragged : Text := "\n\nä\r\r\nb\r\nc\r".toList

def mended : Text := "\r\n\r\nä\r\r\nb\r\nc\r".toList

theorem expand_normalizes_ragged :
    expand (Utf8.encode ragged) = Utf8.encode mended ∧ Trails cr lf (Utf8.encode mended) ∧
    expand (Utf8.encode mended) = Utf8.encode mended ∧
    Utf8.encode mended = expand (Utf8.encode "\n\nä\r".toList) ++ crlf ++
      expand (Utf8.encode "b\r\nc\r".toList) ∧
    collapseWith cr lf (Utf8.encode mended) = Utf8.encode "\n\nä\r\nb\nc\r".toList ∧
    (∃ sent, Utf8.encode mended = Utf8.encode sent ∧
      collapse sent = "\n\nä\r\nb\nc\r".toList) ∧
    Utf8.encode mended =
      ((Utf8.encode ragged).mapIdx fun i => written ((Utf8.encode ragged).take i)).flatten := by
  have hmended : expand (Utf8.encode ragged) = Utf8.encode mended := by decide
  have hcollapsed : collapse ragged = "\n\nä\r\nb\nc\r".toList := by decide
  obtain ⟨htrails, hagain, hkept, hoctets, htext, hwritten⟩ :=
    expand_normalizes (Utf8.encode ragged)
  rw [hmended] at htrails hagain hkept hoctets htext hwritten
  obtain ⟨sent, hsent, hlines⟩ := htext ragged rfl
  exact ⟨hmended, htrails, hagain, hkept _ _ (by decide), hoctets.trans (by decide),
    ⟨sent, hsent, hlines.trans hcollapsed⟩, hwritten⟩

end LineEnding
end Epistle
