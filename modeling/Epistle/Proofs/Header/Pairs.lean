import Epistle.Proofs.Header.Field

/-!
Fields written from pairs of a name and a value that may be missing. When the names are valid and
differ, the fields stand on one line each, their names are those of the values that are there, and
each name finds its own value again.
-/
namespace Epistle

/-- Valid names, no two of which are the same. -/
structure FieldName.Apart (names : List Text) : Prop where
  valid : ∀ name ∈ names, isValid name
  different : names.Pairwise fun a b => Text.sameName a b = false

instance (names : List Text) : Decidable (FieldName.Apart names) :=
  decidable_of_iff
    ((∀ name ∈ names, FieldName.isValid name) ∧
      names.Pairwise fun a b => Text.sameName a b = false)
    ⟨fun ⟨hv, hd⟩ => ⟨hv, hd⟩, fun h => ⟨h.valid, h.different⟩⟩

namespace Field

open FieldName (shown)

variable {pairs : List (Text × Option Text)} {target : Text}

/-- One field for each name that has a value. -/
def ofPairs (pairs : List (Text × Option Text)) : List Field :=
  pairs.flatMap fun (name, value) => (value.map (ofText name)).toList

/-- The first pair of that name that has a value. -/
def lookup (target : Text) : List (Text × Option Text) → Option Field
  | [] => none
  | (name, value) :: rest =>
    if Text.sameName name target then (value.map (ofText name)).or (lookup target rest)
    else lookup target rest

theorem mem_ofPairs {f : Field} (hf : f ∈ ofPairs pairs) :
    ∃ name value, (name, some value) ∈ pairs ∧ f = ofText name value := by
  obtain ⟨⟨name, value⟩, hp, hf⟩ := List.mem_flatMap.1 hf
  obtain ⟨v, rfl, rfl⟩ := Option.map_eq_some_iff.1 (Option.mem_toList.1 hf)
  exact ⟨name, v, hp, rfl⟩

theorem ofPairs_clean (hnames : ∀ name ∈ pairs.map (·.1), FieldName.isValid name)
    (hvalues : ∀ p ∈ pairs, ∀ v, p.2 = some v → Text.OneLine v) :
    ∀ f ∈ ofPairs pairs, f.Clean := by
  intro f hf
  obtain ⟨name, value, hp, rfl⟩ := mem_ofPairs hf
  exact ofText_clean (hnames name (List.mem_map_of_mem hp)) (hvalues _ hp value rfl)

theorem key_ofPairs (hnames : ∀ name ∈ pairs.map (·.1), FieldName.isValid name) {f : Field}
    (hf : f ∈ ofPairs pairs) : f.key ∈ pairs.map (·.1) := by
  obtain ⟨name, value, hp, rfl⟩ := mem_ofPairs hf
  have hmem : name ∈ pairs.map (·.1) := List.mem_map_of_mem hp
  rwa [key_ofText (hnames name hmem)]

theorem keys_ofPairs (hnames : ∀ name ∈ pairs.map (·.1), FieldName.isValid name) :
    (ofPairs pairs).map key = pairs.flatMap fun p => shown p.1 p.2.isSome := by
  induction pairs with
  | nil => rfl
  | cons p pairs ih =>
      obtain ⟨name, value⟩ := p
      obtain ⟨hname, hnames⟩ := List.forall_mem_cons.1 hnames
      have hfirst : (value.map (ofText name)).toList.map key = shown name value.isSome := by
        cases value with
        | none => rfl
        | some v => exact congrArg (fun key => [key]) (key_ofText hname v)
      have hcons : ofPairs ((name, value) :: pairs) =
          (value.map (ofText name)).toList ++ ofPairs pairs := rfl
      rw [hcons, List.map_append, hfirst, ih hnames, List.flatMap_cons]

theorem find?_ofPairs (hnames : ∀ name ∈ pairs.map (·.1), FieldName.isValid name)
    (target : Text) : find? (ofPairs pairs) target = lookup target pairs := by
  induction pairs with
  | nil => rfl
  | cons p pairs ih =>
      obtain ⟨name, value⟩ := p
      obtain ⟨hname, hnames⟩ := List.forall_mem_cons.1 hnames
      have hcons : ofPairs ((name, value) :: pairs) =
          (value.map (ofText name)).toList ++ ofPairs pairs := rfl
      rw [hcons, find?_append, ih hnames, lookup]
      cases value with
      | none => simp [find?]
      | some v =>
          have hkey := key_ofText hname v
          split
          · rename_i hs
            have hfind : find? [ofText name v] target = some (ofText name v) :=
              find?_cons (by rwa [hkey]) []
            exact congrArg (Option.or · _) hfind
          · rename_i hs
            have hnone : find? [ofText name v] target = none := by
              apply find?_eq_none
              intro key hmem
              rw [List.mem_singleton.1 hmem, hkey]
              simpa using hs
            exact congrArg (Option.or · _) hnone

theorem lookup_eq_none (h : ∀ name ∈ pairs.map (·.1), Text.sameName name target = false) :
    lookup target pairs = none := by
  induction pairs with
  | nil => rfl
  | cons p pairs ih =>
      obtain ⟨hfirst, hrest⟩ := List.forall_mem_cons.1 h
      rw [lookup, hfirst, ih hrest]
      rfl

/-- Where no two names are the same, each finds its own value. -/
theorem lookup_of_mem (h : FieldName.Apart (pairs.map (·.1))) {value : Option Text}
    (hm : (target, value) ∈ pairs) : lookup target pairs = value.map (ofText target) := by
  obtain ⟨-, h⟩ := h
  induction pairs with
  | nil => cases hm
  | cons p pairs ih =>
      obtain ⟨hp, hpairs⟩ := List.pairwise_cons.1 h
      rcases List.mem_cons.1 hm with rfl | hm
      · have hself : Text.sameName target target = true := by simp [Text.sameName]
        have hrest : lookup target pairs = none := by
          apply lookup_eq_none
          intro name hmem
          have hother := hp name hmem
          simp only [Text.sameName, beq_eq_false_iff_ne] at hother ⊢
          exact hother.symm
        rw [lookup, hself, hrest]
        exact Option.or_none
      · have hother : Text.sameName p.1 target = false := hp target (List.mem_map_of_mem hm)
        rw [lookup, hother]
        exact ih hm hpairs

/-- A value that begins visibly is read as what it decodes to. -/
theorem textOf?_ofPairs [Charsets] (h : FieldName.Apart (pairs.map (·.1))) {value : Option Text}
    (hm : (target, value) ∈ pairs)
    (hstart : ∀ v, value = some v → ∀ c, v.head? = some c → Text.isBlank c = false) :
    textOf? ((ofPairs pairs).map stripped) target = value.map Token.decodeValue := by
  rw [textOf?, find?_stripped, find?_ofPairs h.valid, lookup_of_mem h hm]
  cases value with
  | none => rfl
  | some v =>
      simp only [Option.map_some, Option.some.injEq]
      rw [stripped_eq_self target (hstart v rfl), text_ofText]

/-- The same for a value of plain text. -/
theorem textOf?_plain [Charsets] (h : FieldName.Apart (pairs.map (·.1))) {v : Text}
    (hm : (target, some v) ∈ pairs) (hplain : Token.Spelling.Plain v) (hline : Text.OneLine v)
    (hstart : ∀ c, v.head? = some c → Text.isBlank c = false) :
    textOf? ((ofPairs pairs).map stripped) target = some v := by
  have hvalue : ∀ u, some v = some u → ∀ c, u.head? = some c → Text.isBlank c = false := by
    rintro u ⟨⟩
    exact hstart
  rw [textOf?_ofPairs h hm hvalue, Option.map_some, Token.decodeValue_plain hplain hline hstart]

theorem textOf?_missing [Charsets] (hnames : ∀ name ∈ pairs.map (·.1), FieldName.isValid name)
    (h : ∀ name ∈ pairs.map (·.1), Text.sameName name target = false) :
    textOf? ((ofPairs pairs).map stripped) target = none := by
  rw [textOf?, find?_stripped, find?_ofPairs hnames, lookup_eq_none h]
  rfl

end Field
end Epistle
