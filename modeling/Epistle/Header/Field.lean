import Epistle.Error
import Epistle.Text.Charset
import Epistle.Transfer.LineEnding

/-!
Header fields and the block that they form at the top of a message. A field is a name, a colon and
a value; a line that begins with a blank continues the value. The block ends with an empty line or
with the input.
-/

namespace Epistle

/-- A field as it stands on the wire; line breaks inside the value are kept. -/
structure Field where
  name : Octets
  value : Octets
  deriving DecidableEq, Repr

namespace Field

open LineEnding (cr lf crlf)

def colon : UInt8 := 0x3A
def space : UInt8 := 0x20
def tab : UInt8 := 0x09

/-- The value that begins `bytes`, up to the line feed that no blank follows, and what comes
after that line feed. -/
def takeValue : Octets → Octets × Octets
  | [] => ([], [])
  | [b] => if b = lf then ([], []) else ([b], [])
  | b :: c :: rest =>
    if b = lf ∧ c ≠ space ∧ c ≠ tab then ([], c :: rest)
    else
      let (value, after) := takeValue (c :: rest)
      (b :: value, after)

theorem takeValue_length (bytes : Octets) : (takeValue bytes).2.length ≤ bytes.length := by
  fun_induction takeValue bytes with
  | case1 | case2 | case3 | case4 => simp
  | case5 => simp_all only [List.length_cons]; omega

def isBreak (b : UInt8) : Bool := b == cr || b == lf

/-- The value without the line breaks at its end. -/
def trimBreaks (bytes : Octets) : Octets := (bytes.reverse.dropWhile isBreak).reverse

def inName (b : UInt8) : Bool := b != colon && b != lf

/-- The field that begins `bytes`, and the octets after it. A name that a line feed or the end of
the input cuts short has an empty value. -/
def read (bytes : Octets) : Except ParseError (Field × Octets) :=
  if bytes.head? = some space then .error .leadingSpace
  else
    let name := bytes.takeWhile inName
    match bytes.dropWhile inName with
    | [] => .ok (⟨name, []⟩, [])
    | mark :: rest =>
      if mark = lf then .ok (⟨name, []⟩, rest)
      else
        let (value, after) := takeValue (rest.dropWhile (· == space))
        .ok (⟨name, trimBreaks value⟩, after)

theorem read_length {bytes after : Octets} {f : Field} (hne : bytes ≠ [])
    (h : read bytes = .ok (f, after)) : after.length < bytes.length := by
  unfold read at h
  split at h
  · simp at h
  · have hd := (List.dropWhile_suffix inName (l := bytes)).length_le
    split at h
    · simp only [Except.ok.injEq, Prod.mk.injEq] at h
      rw [← h.2]
      exact List.length_pos_iff.2 hne
    · rename_i mark rest heq
      rw [heq] at hd
      split at h
      · simp only [Except.ok.injEq, Prod.mk.injEq] at h
        simp only [List.length_cons] at hd
        rw [← h.2]; omega
      · simp only [Except.ok.injEq, Prod.mk.injEq] at h
        have ht := takeValue_length (rest.dropWhile (· == space))
        have hs := (List.dropWhile_suffix (· == space) (l := rest)).length_le
        simp only [List.length_cons] at hd
        rw [← h.2]; omega

/-- The fields at the top of `bytes` and the body below them. -/
def readBlock (bytes : Octets) : Except ParseError (List Field × Octets) :=
  match bytes with
  | [] => .ok ([], [])
  | b :: rest =>
    if b = lf then .ok ([], rest)
    else if b = cr then
      match rest with
      | c :: more => if c = lf then .ok ([], more) else .error .loneReturn
      | [] => .error .loneReturn
    else
      match _h : read (b :: rest) with
      | .error e => .error e
      | .ok (f, after) =>
        match readBlock after with
        | .error e => .error e
        | .ok (fs, body) => .ok (f :: fs, body)
termination_by bytes.length
decreasing_by exact read_length (by simp) (by assumption)

theorem readBlock_length {bytes body : Octets} {fs : List Field}
    (h : readBlock bytes = .ok (fs, body)) : body.length ≤ bytes.length := by
  fun_induction readBlock bytes generalizing fs body with
  | case1 | case2 | case4 | case5 | case6 | case7 => simp_all
  | case3 =>
      simp only [Except.ok.injEq, Prod.mk.injEq] at h
      rw [← h.2]; simp only [List.length_cons]; omega
  | case8 b rest hlf hcr f after hread fs' body' hrec ih =>
      have := read_length (by simp) hread
      have := ih hrec
      simp only [Except.ok.injEq, Prod.mk.injEq] at h
      rw [← h.2]; omega

def write (f : Field) : Octets := f.name ++ colon :: space :: f.value ++ crlf

def writeAll (fs : List Field) : Octets := fs.flatMap write

def ofText (name value : Text) : Field := ⟨Utf8.encode name, Utf8.encode value⟩

/-- The name, one character for each octet. -/
def key (f : Field) : Text := f.name.map Charset.ofLatin1

/-- The value as UTF-8 if it is that, else one character for each octet. -/
def raw (f : Field) : Text := (Utf8.decode? f.value).getD (f.value.map Charset.ofLatin1)

def find? (fs : List Field) (name : Text) : Option Field :=
  List.find? (fun f => Text.sameName f.key name) fs

end Field
end Epistle
