import Epistle.Header.Parameter
import Epistle.Header.Token

/-!
MIME entities: a header block, and below it either a body or, for a multipart type, the entities
that its boundary delimits. The leaves of an entity are its bodies in document order.
-/

namespace Epistle

structure MediaType where
  name : Text
  params : Parameters
  deriving DecidableEq, Repr

namespace MediaType

def ofValue [Charsets] (value : Text) : MediaType :=
  let p := Parameterized.read value
  ⟨Case.lower p.value, p.params⟩

/-- The type of an entity that does not state one; inside a digest it is a message. -/
def unstated (inDigest : Bool) : MediaType :=
  ⟨if inDigest then "message/rfc822" else "text/plain", []⟩

def ofFields [Charsets] (inDigest : Bool) (fs : List Field) : MediaType :=
  ((Field.textOf? fs "Content-Type").map ofValue).getD (unstated inDigest)

def isMultipart (t : MediaType) : Bool := "multipart/".toList.isPrefixOf t.name

def charset (t : MediaType) : Text := (t.params.get? "charset").getD "us-ascii"

end MediaType

namespace Delimiter

open LineEnding (cr lf)

/-- What stands before and after the first occurrence of `mark` at the beginning of a line;
`atStart` says whether `bytes` begins one. -/
def cutFrom (mark : Octets) (atStart : Bool) : Octets → Option (Octets × Octets)
  | [] => if atStart ∧ mark = [] then some ([], []) else none
  | b :: rest =>
    if atStart ∧ mark.isPrefixOf (b :: rest) then some ([], (b :: rest).drop mark.length)
    else (cutFrom mark (b == lf) rest).map fun (before, after) => (b :: before, after)

def cut? (mark bytes : Octets) : Option (Octets × Octets) := cutFrom mark true bytes

theorem cutFrom_eq {mark bytes before after : Octets} {atStart : Bool}
    (h : cutFrom mark atStart bytes = some (before, after)) : bytes = before ++ mark ++ after := by
  induction bytes generalizing before atStart with
  | nil =>
      simp only [cutFrom] at h
      split at h
      · simp_all
      · simp at h
  | cons b rest ih =>
      simp only [cutFrom] at h
      split at h
      · rename_i hp
        obtain ⟨tail, ht⟩ := List.isPrefixOf_iff_prefix.1 hp.2
        simp only [Option.some.injEq, Prod.mk.injEq] at h
        obtain ⟨rfl, rfl⟩ := h
        simp [← ht]
      · obtain ⟨⟨x, y⟩, hx, he⟩ := Option.map_eq_some_iff.1 h
        simp only [Prod.mk.injEq] at he
        obtain ⟨rfl, rfl⟩ := he
        simpa using ih hx

/-- The line break in front of a delimiter belongs to the delimiter. -/
def trimBreak (bytes : Octets) : Octets :=
  match bytes.reverse with
  | b :: c :: rest => if b = lf then (if c = cr then rest else c :: rest).reverse else bytes
  | [b] => if b = lf then [] else bytes
  | [] => []

theorem trimBreak_length (bytes : Octets) : (trimBreak bytes).length ≤ bytes.length := by
  have hr : bytes.reverse.length = bytes.length := List.length_reverse
  unfold trimBreak
  split
  · rename_i b c rest heq
    rw [heq] at hr
    simp only [List.length_cons] at hr
    split
    · split <;> simp <;> omega
    · omega
  · split <;> simp
  · simp

def afterLine? (bytes : Octets) : Option Octets :=
  match bytes.dropWhile (· != lf) with
  | [] => none
  | _ :: rest => some rest

theorem afterLine?_length {bytes rest : Octets} (h : afterLine? bytes = some rest) :
    rest.length < bytes.length := by
  unfold afterLine? at h
  have hd := (List.dropWhile_suffix (· != lf) (l := bytes)).length_le
  split at h
  · simp at h
  · rename_i heq
    rw [heq] at hd
    simp only [Option.some.injEq] at h
    simp only [List.length_cons] at hd
    rw [← h]; omega

/-- Two dashes behind a delimiter close the last section; so does the end of the input. -/
def closes (bytes : Octets) : Bool :=
  match bytes with
  | a :: b :: _ => a == 0x2D && b == 0x2D
  | _ => true

/-- The sections after a delimiter, of which `bytes` is the rest of its line and what follows. -/
def sectionsFrom (mark bytes : Octets) : List Octets :=
  match _h : afterLine? bytes with
  | none => []
  | some body =>
    match _c : cut? mark body with
    | none => [body]
    | some (before, after) =>
      trimBreak before :: if closes after then [] else sectionsFrom mark after
termination_by bytes.length
decreasing_by
  have := afterLine?_length _h
  have := congrArg List.length (cutFrom_eq _c)
  simp at this
  omega

/-- The sections of a multipart body; what stands before the first delimiter is none. -/
def sections (mark body : Octets) : List Octets :=
  match cut? mark body with
  | none => []
  | some (_, after) => sectionsFrom mark after

theorem sectionsFrom_length {mark bytes s : Octets} (h : s ∈ sectionsFrom mark bytes) :
    s.length < bytes.length := by
  fun_induction sectionsFrom mark bytes with
  | case1 => simp at h
  | case2 bytes body hl hc =>
      have := afterLine?_length hl
      simp only [List.mem_singleton] at h
      rw [h]; exact this
  | case3 bytes body hl before after hc ih =>
      have h1 := afterLine?_length hl
      have h2 := congrArg List.length (cutFrom_eq hc)
      have h3 := trimBreak_length before
      simp only [List.length_append] at h2
      rcases List.mem_cons.1 h with rfl | h
      · omega
      · split at h
        · simp at h
        · have := ih h
          omega

theorem sections_length {mark body s : Octets} (h : s ∈ sections mark body) :
    s.length < body.length := by
  unfold sections at h
  split at h
  · simp at h
  · rename_i heq
    have h1 := congrArg List.length (cutFrom_eq heq)
    have h2 := sectionsFrom_length h
    simp only [List.length_append] at h1
    omega

end Delimiter

/-- An entity without parts. -/
structure Leaf where
  fields : List Field
  type : MediaType
  body : Octets
  deriving DecidableEq, Repr

inductive Entity where
  | leaf (leaf : Leaf)
  | multipart (fields : List Field) (type : MediaType) (parts : List Entity)
  deriving Repr

namespace Entity

/-- Two dashes and the boundary begin every delimiter line. -/
def mark (boundary : Text) : Octets := Utf8.encode ("--".toList ++ boundary)

/-- The octets of the parts of a multipart entity; without a boundary it has none. -/
def partsOf (type : MediaType) (body : Octets) : List Octets :=
  match type.params.get? "boundary" with
  | none => []
  | some boundary => if body = [] then [] else Delimiter.sections (mark boundary) body

theorem partsOf_length {type : MediaType} {body s : Octets} (h : s ∈ partsOf type body) :
    s.length < body.length := by
  unfold partsOf at h
  split at h
  · simp at h
  · split at h
    · simp at h
    · exact Delimiter.sections_length h

def isDigest (type : MediaType) : Bool := type.name == "multipart/digest".toList

def read [Charsets] (inDigest : Bool) (bytes : Octets) : Except ParseError Entity :=
  match _h : Field.readBlock bytes with
  | .error e => .error e
  | .ok (fields, body) =>
    let type := MediaType.ofFields inDigest fields
    if type.isMultipart then do
      let parts ← (partsOf type body).attach.mapM fun ⟨part, _⟩ => read (isDigest type) part
      return .multipart fields type parts
    else .ok (.leaf ⟨fields, type, body⟩)
termination_by bytes.length
decreasing_by
  have h1 := Field.readBlock_length _h
  have h2 := partsOf_length (by assumption : part ∈ partsOf _ _)
  omega

def fields : Entity → List Field
  | leaf l => l.fields
  | multipart fs _ _ => fs

def type : Entity → MediaType
  | leaf l => l.type
  | multipart _ t _ => t

def parts : Entity → List Entity
  | leaf _ => []
  | multipart _ _ ps => ps

mutual

def leaves : Entity → List Leaf
  | leaf l => [l]
  | multipart _ _ ps => leavesAll ps

def leavesAll : List Entity → List Leaf
  | [] => []
  | p :: ps => leaves p ++ leavesAll ps

end

end Entity
end Epistle
