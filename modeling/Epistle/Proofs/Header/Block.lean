import Epistle.Header.Field
import Epistle.Header.Name
import Epistle.Proofs.Text.Utf8

/-!
A block of fields is read back as it was written, whatever stands below it, as long as no field
holds a line break. Only the spaces in front of a value are lost.
-/
namespace Epistle
namespace Field

open LineEnding (cr lf crlf)

def isNameOctet (b : UInt8) : Bool := 33 ≤ b.toNat && b.toNat ≤ 126 && b != colon

/-- A field that stands on one line and cannot be taken for two. -/
structure Clean (f : Field) : Prop where
  name_ne : f.name ≠ []
  name_octets : ∀ b ∈ f.name, isNameOctet b
  value_octets : ∀ b ∈ f.value, isBreak b = false

/-- The field as it is read back. -/
def stripped (f : Field) : Field := { f with value := f.value.dropWhile (· == space) }

/-- What may follow a field: nothing that would continue its value. -/
def Follows (rest : Octets) : Prop := ∀ b, rest.head? = some b → b ≠ space ∧ b ≠ tab

theorem isNameOctet_inName {b : UInt8} (h : isNameOctet b) : inName b := by
  simp only [isNameOctet, Bool.and_eq_true, decide_eq_true_eq, bne_iff_ne] at h
  simp only [inName, Bool.and_eq_true, bne_iff_ne]
  refine ⟨h.2, ?_⟩
  rintro rfl
  exact absurd h.1.1 (by decide)

theorem isNameOctet_ne {b c : UInt8} (h : isNameOctet b) (hc : isNameOctet c = false) : b ≠ c := by
  rintro rfl
  rw [h] at hc
  cases hc

theorem takeValue_line {v rest : Octets} (hv : ∀ b ∈ v, b ≠ lf) (hrest : Follows rest) :
    takeValue (v ++ lf :: rest) = (v, rest) := by
  induction v with
  | nil =>
      cases rest with
      | nil => rfl
      | cons c rest =>
          have hc := hrest c rfl
          simp [takeValue, hc]
  | cons b v ih =>
      have hb : b ≠ lf := hv b (by simp)
      have ih := ih fun c hc => hv c (by simp [hc])
      cases v with
      | nil => simp_all [takeValue]
      | cons c v => simp_all [takeValue]

theorem dropWhile_space_append (v rest : Octets) :
    (v ++ cr :: rest).dropWhile (· == space) = v.dropWhile (· == space) ++ cr :: rest := by
  induction v with
  | nil => rfl
  | cons b v ih =>
      simp only [List.cons_append, List.dropWhile_cons]
      split
      · exact ih
      · rfl

theorem trimBreaks_append_cr {v : Octets} (hv : ∀ b ∈ v, isBreak b = false) :
    trimBreaks (v ++ [cr]) = v := by
  have hr : v.reverse.dropWhile isBreak = v.reverse := by
    cases h : v.reverse with
    | nil => rfl
    | cons b w =>
        have hb : b ∈ v := List.mem_reverse.1 (h ▸ List.mem_cons_self)
        rw [List.dropWhile_cons_of_neg (by simp [hv b hb])]
  have hcr : isBreak cr = true := by decide
  rw [trimBreaks, List.reverse_append, List.reverse_singleton, List.singleton_append,
    List.dropWhile_cons_of_pos hcr, hr, List.reverse_reverse]

theorem write_append (f : Field) (rest : Octets) :
    write f ++ rest = f.name ++ colon :: space :: (f.value ++ cr :: lf :: rest) := by
  simp [write, crlf]

theorem Clean.mem_value {f : Field} (h : f.Clean) {b : UInt8}
    (hb : b ∈ f.value.dropWhile (· == space)) : isBreak b = false :=
  h.value_octets b ((List.dropWhile_sublist _).subset hb)

theorem read_write {f : Field} (h : f.Clean) {rest : Octets} (hrest : Follows rest) :
    read (write f ++ rest) = .ok (f.stripped, rest) := by
  have hhead : (write f ++ rest).head? ≠ some space := by
    obtain ⟨b, name, hn⟩ := List.exists_cons_of_ne_nil h.name_ne
    have hb := h.name_octets b (by simp [hn])
    simpa [write_append, hn] using isNameOctet_ne hb (by decide)
  have hin : ∀ b ∈ f.name, inName b := fun b hb => isNameOctet_inName (h.name_octets b hb)
  have hcolon : inName colon = false := by decide
  have hvalue : takeValue (f.value.dropWhile (· == space) ++ cr :: lf :: rest) =
      (f.value.dropWhile (· == space) ++ [cr], rest) := by
    have hv : ∀ b ∈ f.value.dropWhile (· == space) ++ [cr], b ≠ lf := by
      intro b hb
      rcases List.mem_append.1 hb with hb | hb
      · have := h.mem_value hb
        rintro rfl
        exact absurd this (by decide)
      · rw [List.mem_singleton.1 hb]
        decide
    simpa using takeValue_line hv hrest
  rw [read, if_neg hhead, write_append, List.takeWhile_append_of_pos hin,
    List.dropWhile_append_of_pos hin, List.takeWhile_cons_of_neg (by simp [hcolon]),
    List.dropWhile_cons_of_neg (by simp [hcolon])]
  have hne : colon ≠ lf := by decide
  simp only [hne, if_false, List.append_nil]
  rw [List.dropWhile_cons_of_pos (by rfl), dropWhile_space_append, hvalue]
  simp only [trimBreaks_append_cr fun b hb => h.mem_value hb]
  rfl

theorem readBlock_write {f : Field} (h : f.Clean) {rest body : Octets} {fs : List Field}
    (hrest : Follows rest) (hb : readBlock rest = .ok (fs, body)) :
    readBlock (write f ++ rest) = .ok (f.stripped :: fs, body) := by
  have hread := read_write h hrest
  obtain ⟨b, name, hn⟩ := List.exists_cons_of_ne_nil h.name_ne
  have hname := h.name_octets b (by simp [hn])
  have hcons : ∃ tail, write f ++ rest = b :: tail := by
    rw [write_append, hn]
    exact ⟨_, rfl⟩
  obtain ⟨tail, ht⟩ := hcons
  rw [ht] at hread ⊢
  have hlf : b ≠ lf := isNameOctet_ne hname (by decide)
  have hcr : b ≠ cr := isNameOctet_ne hname (by decide)
  rw [readBlock.eq_def]
  simp only [hlf, hcr, if_false]
  split
  · rename_i e he
    rw [hread] at he
    cases he
  · rename_i f' after he
    rw [hread] at he
    cases he
    rw [hb]

theorem readBlock_crlf (body : Octets) : readBlock (crlf ++ body) = .ok ([], body) := by
  rw [readBlock.eq_def]
  rfl

theorem follows_crlf (body : Octets) : Follows (crlf ++ body) := by
  intro b hb
  simp only [crlf, List.cons_append, List.head?_cons, Option.some.injEq] at hb
  subst hb
  decide

theorem follows_write {f : Field} (h : f.Clean) (rest : Octets) : Follows (write f ++ rest) := by
  intro b hb
  obtain ⟨c, name, hn⟩ := List.exists_cons_of_ne_nil h.name_ne
  have hc := h.name_octets c (by simp [hn])
  simp only [write_append, hn, List.cons_append, List.head?_cons, Option.some.injEq] at hb
  subst hb
  exact ⟨isNameOctet_ne hc (by decide), isNameOctet_ne hc (by decide)⟩

theorem follows_writeAll {fs : List Field} (h : ∀ f ∈ fs, f.Clean) (body : Octets) :
    Follows (writeAll fs ++ crlf ++ body) := by
  cases fs with
  | nil => exact follows_crlf body
  | cons f fs =>
      simp only [writeAll, List.flatMap_cons, List.append_assoc]
      exact follows_write (h f (by simp)) _

theorem readBlock_writeAll {fs : List Field} (h : ∀ f ∈ fs, f.Clean) (body : Octets) :
    readBlock (writeAll fs ++ crlf ++ body) = .ok (fs.map stripped, body) := by
  induction fs with
  | nil => exact readBlock_crlf body
  | cons f fs ih =>
      have hfs : ∀ g ∈ fs, g.Clean := fun g hg => h g (by simp [hg])
      have hrest := follows_writeAll hfs body
      have hblock := readBlock_write (h f (by simp)) hrest (ih hfs)
      simpa [writeAll] using hblock

end Field
end Epistle
