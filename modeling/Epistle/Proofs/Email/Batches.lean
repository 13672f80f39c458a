import Epistle.Proofs.Address.Entries
import Epistle.Proofs.Checked
import Epistle.Proofs.Email.Session
import Epistle.Proofs.Text.Dictionary

/-!
Steps that add several things at once. Such a step checks each entry by itself and then puts in all
of them, so it does what a step for each entry would do one after another, or it fails as the first
of these that fails and leaves the letter as it was.
-/
namespace Epistle
namespace Email

open Checked

theorem foldl_extendRecipients (rs : List Recipient) (e : Email) :
    rs.foldl (fun e r => e.extendRecipients [r]) e = e.extendRecipients rs := by
  induction rs generalizing e with
  | nil => rfl
  | cons r rs ih => exact ih _

theorem foldl_setHeader (headers : List (Text × Text)) (e : Email) :
    headers.foldl (fun e h => { e with headers := e.headers.set h.1 h.2 }) e =
      { e with headers := e.headers.setAll headers } := by
  induction headers generalizing e with
  | nil => rfl
  | cons h headers ih => exact ih _

theorem foldl_pushImage (images : List Resource) (e : Email) :
    images.foldl (fun e r => e.pushImage r) e = { e with images := e.images ++ images } := by
  induction images generalizing e with
  | nil => rw [List.append_nil]; rfl
  | cons r images ih =>
      rw [List.foldl_cons, ih]
      simp [pushImage]

theorem addAddresses_of_ne_nil {role : Role} {name : Option Text} {addresses : List Text}
    (h : addresses ≠ []) (e : Email) : e.addAddresses role name addresses =
      (addresses.mapM fun a => Recipient.make name a (some role)).map e.extendRecipients := by
  rw [addAddresses_eq]
  cases hrs : addresses.mapM fun a => Recipient.make name a (some role) with
  | error err => rfl
  | ok rs =>
      have hne : rs ≠ [] := by
        rintro rfl
        exact h (List.map_eq_nil_iff.1 (mapM_ok hrs))
      exact if_neg hne

/-- An image can be embedded if it has a name. -/
def checkImage (r : Resource) : Except Rejection Resource :=
  if r.name.isNone then .error .unnamedImage else .ok r

theorem mapM_checkImage (images : List Resource) : images.mapM checkImage =
    if images.any (·.name.isNone) then .error .unnamedImage else .ok images := by
  induction images with
  | nil => rfl
  | cons r images ih =>
      rw [List.mapM_cons, ih, checkImage]
      cases hname : r.name.isNone with
      | true => simp [hname, bind, Except.bind]
      | false =>
          simp only [List.any_cons, hname, Bool.false_or]
          cases images.any (·.name.isNone) <;> rfl

namespace Step

/-- The step puts in what every entry is checked into, once each has been checked, and a single step
does so for one entry. -/
structure Entrywise [Charsets] {α β : Type} (check : α → Except Rejection β)
    (put : Email → β → Email) (s : Step) (single : α → Step) (entries : List α) : Prop where
  batch : ∀ e mint, s.apply e mint =
    (((entries.mapM check).map (·.foldl put e)).mapError .rejected, mint)
  single : ∀ a ∈ entries, ∀ e mint, (single a).apply e mint =
    (((check a).map (put e)).mapError .rejected, mint)

/-- The step succeeds if the single steps do, whatever letter these are tried on, and then does what
they do in their order. Otherwise it fails as the first of them that fails and changes nothing. -/
structure AllOrNothing [Charsets] (s : Step) (singles : List Step) : Prop where
  ok_iff : ∀ e e₀ mint, (∃ e', (s.apply e mint).1 = .ok e') ↔
    ∀ t ∈ singles, ∃ e', (t.apply e₀ mint).1 = .ok e'
  of_ok : ∀ e e' mint, (s.apply e mint).1 = .ok e' →
    s.perform e mint = (e', mint) ∧ e.performAll singles mint = (e', mint)
  of_error : ∀ e err mint, (s.apply e mint).1 = .error err → s.perform e mint = (e, mint) ∧
    ∃ front t back, singles = front ++ t :: back ∧ ∀ e₀,
      (∀ u ∈ front, ∃ e', (u.apply e₀ mint).1 = .ok e') ∧ (t.apply e₀ mint).1 = .error err

section

variable {α β : Type} {check : α → Except Rejection β} {put : Email → β → Email} {s : Step}
  {single : α → Step} {entries : List α} {e : Email} {mint : Mint}

theorem Entrywise.single_ok [Charsets] (h : Entrywise check put s single entries) {a : α}
    (ha : a ∈ entries) : (∃ e', ((single a).apply e mint).1 = .ok e') ↔ ∃ b, check a = .ok b := by
  rw [h.single a ha]
  exact exists_ok_iff

theorem Entrywise.batch_ok [Charsets] (h : Entrywise check put s single entries) :
    (∃ e', (s.apply e mint).1 = .ok e') ↔ ∃ bs, entries.mapM check = .ok bs := by
  rw [h.batch]
  exact exists_ok_iff

/-- The single steps put in one after another what their entries are checked into. -/
theorem performAll_singles [Charsets] {bs : List β}
    (h : ∀ a ∈ entries, ∀ e mint, (single a).apply e mint =
      (((check a).map (put e)).mapError .rejected, mint))
    (hbs : entries.mapM check = .ok bs) (e : Email) :
    e.performAll (entries.map single) mint = (bs.foldl put e, mint) := by
  induction entries generalizing bs e with
  | nil =>
      cases hbs
      rfl
  | cons a entries ih =>
      rw [List.mapM_cons] at hbs
      obtain ⟨b, hb, hbs⟩ := bind_ok hbs
      obtain ⟨bs', hbs', hbs⟩ := bind_ok hbs
      cases hbs
      have hfirst : (single a).perform e mint = (put e b, mint) := by
        rw [perform_eq, h a (by simp), hb]
        rfl
      rw [List.map_cons, performAll_cons, hfirst]
      exact ih (fun a' ha' => h a' (by simp [ha'])) hbs' (put e b)

theorem Entrywise.allOrNothing [Charsets] (h : Entrywise check put s single entries) :
    s.AllOrNothing (entries.map single) where
  ok_iff e e₀ mint := by
    rw [h.batch_ok, exists_mapM_iff, List.forall_mem_map]
    exact forall₂_congr fun a ha => (h.single_ok ha).symm
  of_ok e e' mint hok := by
    rw [perform_eq, hok]
    rw [h.batch] at hok
    obtain ⟨bs, hbs, rfl⟩ := map_ok (mapError_ok hok)
    rw [h.batch]
    exact ⟨rfl, performAll_singles h.single hbs e⟩
  of_error e err mint herror := by
    rw [perform_eq, herror, h.batch]
    refine ⟨rfl, ?_⟩
    rw [h.batch] at herror
    cases hbs : entries.mapM check with
    | ok bs =>
        rw [hbs] at herror
        cases herror
    | error cause =>
        rw [hbs] at herror
        cases herror
        obtain ⟨front, a, back, rfl, hfront, ha⟩ := mapM_error hbs
        refine ⟨front.map single, single a, back.map single, by simp, ?_⟩
        intro e₀
        constructor
        · rw [List.forall_mem_map]
          exact fun a' ha' => (h.single_ok (by simp [ha'])).2 (hfront a' ha')
        · rw [h.single a (by simp), ha]
          rfl

end

theorem apply_toPriming {s : Setter} {e : Email} {x : Except Rejection Email} (h : s.attempt e = x)
    (mint : Mint) : s.toPriming.attempt e mint = (x.mapError .rejected, mint) := by
  rw [Setter.attempt_toPriming, h]

variable {role : Role} {name : Option Text}

/-- An entry of the list is split into itself, so adding it by itself adds the same recipient. -/
theorem entrywise_addList [Charsets] {list : Text} (hne : Entries.split list ≠ []) :
    Entrywise (fun entry => Entries.interpret name entry (some role))
      (fun e r => e.extendRecipients [r]) (.addList role name list) (.addList role name)
      (Entries.split list) where
  batch e mint := by
    refine apply_toPriming ((addList_eq _ _ _ e).trans ?_) mint
    rw [Entries.parse_of_split_ne_nil hne]
    simp only [foldl_extendRecipients]
  single entry hentry e mint := by
    refine apply_toPriming ((addList_eq _ _ _ e).trans ?_) mint
    have hself := Entries.split_of_mem_split hentry
    rw [Entries.parse_of_split_ne_nil (by simp [hself]), hself, mapM_singleton]
    cases Entries.interpret name entry (some role) <;> rfl

theorem entrywise_addAddresses [Charsets] {addresses : List Text} (hne : addresses ≠ []) :
    Entrywise (fun a => Recipient.make name a (some role)) (fun e r => e.extendRecipients [r])
      (.addAddresses role name addresses) (fun a => .addAddresses role name [a]) addresses where
  batch e mint := by
    refine apply_toPriming ((addAddresses_of_ne_nil hne e).trans ?_) mint
    simp only [foldl_extendRecipients]
  single a _ e mint := by
    refine apply_toPriming ((addAddresses_of_ne_nil (by simp) e).trans ?_) mint
    rw [mapM_singleton]
    cases Recipient.make name a (some role) <;> rfl

theorem entrywise_addRecipients [Charsets] {recipients : List Recipient} (hne : recipients ≠ []) :
    Entrywise (fun r => .ok (r.withRole (some role))) (fun e r => e.extendRecipients [r])
      (.addRecipients role recipients) (fun r => .addRecipients role [r]) recipients where
  batch e mint := by
    refine apply_toPriming ((addRecipients_eq _ _ e).trans ?_) mint
    rw [mapM_of_ok fun r _ => rfl, if_neg hne]
    simp only [foldl_extendRecipients]
    rfl
  single r _ e mint := by
    refine apply_toPriming ((addRecipients_eq role [r] e).trans ?_) mint
    rw [if_neg (by simp)]
    rfl

theorem entrywise_embedAll [Charsets] {images : List Resource} :
    Entrywise checkImage (fun e r => e.pushImage r) (.embedAll images) (fun r => .embedAll [r])
      images where
  batch e mint := by
    refine apply_toPriming ((embedAll_eq _ e).trans ?_) mint
    rw [mapM_checkImage]
    simp only [foldl_pushImage]
    split <;> rfl
  single r _ e mint := by
    refine apply_toPriming ((embedAll_eq _ e).trans ?_) mint
    rw [checkImage, List.any_cons, List.any_nil, Bool.or_false]
    split <;> rfl

theorem entrywise_addHeaders [Charsets] {headers : List (Text × Text)} :
    Entrywise (fun h => checkHeader h.1 h.2)
      (fun e h => { e with headers := e.headers.set h.1 h.2 }) (.addHeaders headers)
      (fun h => .addHeader h.1 h.2) headers where
  batch e mint := by
    refine apply_toPriming ((addHeaders_eq _ e).trans ?_) mint
    simp only [foldl_setHeader]
  single h _ e mint := apply_toPriming (addHeader_eq _ _ e) mint

/-- A step that adds several things, and the steps that add them one by one. -/
inductive Batch : Step → List Step → Prop where
  | list {role : Role} {name : Option Text} {list : Text} : Entries.split list ≠ [] →
      Batch (.addList role name list) ((Entries.split list).map (.addList role name))
  | addresses {role : Role} {name : Option Text} {addresses : List Text} : addresses ≠ [] →
      Batch (.addAddresses role name addresses) (addresses.map fun a => .addAddresses role name [a])
  | recipients {role : Role} {recipients : List Recipient} : recipients ≠ [] →
      Batch (.addRecipients role recipients) (recipients.map fun r => .addRecipients role [r])
  | images {images : List Resource} : Batch (.embedAll images) (images.map fun r => .embedAll [r])
  | headers {headers : List (Text × Text)} :
      Batch (.addHeaders headers) (headers.map fun h => .addHeader h.1 h.2)

/-- Adding several things is adding all of them one by one, or none. -/
theorem batch_allOrNothing [Charsets] {s : Step} {singles : List Step} (h : Batch s singles) :
    s.AllOrNothing singles := by
  cases h with
  | list hne => exact (entrywise_addList hne).allOrNothing
  | addresses hne => exact (entrywise_addAddresses hne).allOrNothing
  | recipients hne => exact (entrywise_addRecipients hne).allOrNothing
  | images => exact entrywise_embedAll.allOrNothing
  | headers => exact entrywise_addHeaders.allOrNothing

/-- A list that names an address twice and has a comma inside a name. -/
def crew : Text := " Ann <ann@x.com>; \"B, C\" <bob@x.com>,, ann@x.com ;".toList

/-- Headers of which the second has no name and the third no value. -/
def halfNamed : List (Text × Text) :=
  [("X-A".toList, "1".toList), ([], "2".toList), ("X-B".toList, [])]

theorem batch_allOrNothing_crew :
    (addList .copy none crew).AllOrNothing [.addList .copy none "Ann <ann@x.com>".toList,
      .addList .copy none "\"B, C\" <bob@x.com>".toList, .addList .copy none "ann@x.com".toList] ∧
    (addHeaders halfNamed).AllOrNothing [.addHeader "X-A".toList "1".toList,
      .addHeader [] "2".toList, .addHeader "X-B".toList []] ∧
    (performAll ∅ [.addList .copy none "Ann <ann@x.com>".toList,
      .addList .copy none "\"B, C\" <bob@x.com>".toList, .addList .copy none "ann@x.com".toList]
      ⟨0, fun _ => 0⟩).1.recipients.entries =
      [⟨some "Ann".toList, "ann@x.com".toList, some .copy⟩,
        ⟨some "B, C".toList, "bob@x.com".toList, some .copy⟩] ∧
    (perform ∅ (addHeaders halfNamed) ⟨0, fun _ => 0⟩).1 = ∅ := by
  have hlist := batch_allOrNothing (@Batch.list .copy none crew (by decide))
  have hheaders := batch_allOrNothing (@Batch.headers halfNamed)
  have hadded : (apply ∅ (addList .copy none crew) ⟨0, fun _ => 0⟩).1 = .ok { (∅ : Email) with
      recipients := ⟨[⟨some "Ann".toList, "ann@x.com".toList, some .copy⟩,
        ⟨some "B, C".toList, "bob@x.com".toList, some .copy⟩]⟩ } := by rfl
  have hrefused : (apply ∅ (addHeaders halfNamed) ⟨0, fun _ => 0⟩).1 =
      .error (.rejected (.missing .headerName)) := rfl
  refine ⟨hlist, hheaders, ?_, ?_⟩
  · have hall := (hlist.of_ok _ _ _ hadded).2
    exact congrArg (fun x => x.1.recipients.entries) hall
  · exact congrArg Prod.fst (hheaders.of_error _ _ _ hrefused).1

end Step
end Email
end Epistle
