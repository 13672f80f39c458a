import Epistle.Proofs.Email.Replies

/-!
Chains of replies. A reply refers to the letter that it answers, behind all that this one referred
to, and says that it is a reply once. So a thread grows by one identifier with each reply, in order,
and its subject stays what the first reply made of it.
-/
namespace Epistle

open Token.Spelling (Plain)

namespace Skeleton

/-- Replying to a reply does not change the subject. -/
theorem subject_subject (s : Text) : subject (subject s) = subject s := by
  by_cases h : Text.lowerAscii (s.take 4) = "re: ".toList
  · have hself : subject s = s := if_pos h
    rw [hself, hself]
  · have hfront : subject s = "Re: ".toList ++ s := if_neg h
    have hre : Text.lowerAscii (("Re: ".toList ++ s).take 4) = "re: ".toList := by
      rw [List.take_left' (by decide)]
      decide
    rw [hfront]
    exact if_pos hre

end Skeleton

namespace Email

/-- Visible ASCII that no reader takes for an encoded word. -/
structure IsIdentifier (id : Text) : Prop where
  ne_nil : id ≠ []
  visible : ∀ c ∈ id, Text.isPrintable c = true ∧ c ≠ ' '
  plain : Plain id

/-- `last` is the last of a chain of replies that begins with `first`. Each reply is written under
the next of the identifiers `ids` to the letter before it, from nothing else. -/
inductive Answers [Charsets] (first : Email) : List Text → Email → Prop
  | first : Answers first [] first
  | next {ids : List Text} {id : Text} {parent blank last : Email} {toAll : Bool} {template : Text}
      {mint : Mint} : Answers first ids parent → setId (some id) ∅ = .ok blank →
      (blank.primeReply (.email parent) toAll template mint).1 = .ok last →
      Answers first (ids ++ [id]) last

variable {e e' parent : Email} {s t id : Text} {ids refs : List Text} {fs : List Field}

theorem IsIdentifier.isBlank (h : IsIdentifier id) {c : Char} (hc : c ∈ id) :
    Text.isBlank c = false :=
  Text.isBlank_of_isPrintable (h.visible c hc).1 (h.visible c hc).2

theorem IsIdentifier.legible (h : IsIdentifier id) : LegibleText id where
  trimmed := Text.trim_eq_self (fun _ hc => h.isBlank (List.mem_of_head? hc))
    fun _ hc => h.isBlank (List.mem_of_getLast? hc)
  plain := fun _ => h.plain

theorem IsIdentifier.hasControl (h : IsIdentifier id) : Text.hasControl id = false :=
  Text.hasControl_of_isPrintable fun c hc => (h.visible c hc).1

theorem isPrintable_joinWith (h : ∀ id ∈ ids, IsIdentifier id) :
    ∀ c ∈ Text.joinWith [' '] ids, Text.isPrintable c = true := by
  intro c hc
  rcases Text.mem_joinWith hc with hc | ⟨id, hid, hc⟩
  · rw [List.mem_singleton.1 hc]
    decide
  · exact ((h id hid).visible c hc).1

theorem legible_joinWith (h : ∀ id ∈ ids, IsIdentifier id) (hne : ids ≠ []) :
    LegibleText (Text.joinWith [' '] ids) ∧ Text.joinWith [' '] ids ≠ [] := by
  induction ids with
  | nil => exact absurd rfl hne
  | cons id ids ih =>
      obtain ⟨hid, hids⟩ := List.forall_mem_cons.1 h
      cases ids with
      | nil => exact ⟨hid.legible, hid.ne_nil⟩
      | cons next rest =>
          obtain ⟨hlegible, hrest⟩ := ih hids (by simp)
          rw [Text.joinWith_cons _ _ _ (by simp)]
          exact ⟨hid.legible.join hlegible hid.ne_nil hrest, by simp⟩

theorem words_references (h : ∀ id ∈ ids, IsIdentifier id) :
    Text.words (Text.joinWith [' '] ids) = ids :=
  Text.words_joinWith fun id hid => ⟨(h id hid).ne_nil, fun _ hc => (h id hid).isBlank hc⟩

theorem legible_subject (h : LegibleText s) (hne : s ≠ []) :
    LegibleText (Skeleton.subject s) ∧ Skeleton.subject s ≠ [] := by
  have hre : LegibleText "Re:".toList := ⟨by decide, fun _ => by decide⟩
  rw [Skeleton.subject]
  split
  · exact ⟨h, hne⟩
  · exact ⟨hre.join h (by decide) hne, by simp⟩

/-- The headers of an answer to `id`, which itself referred to `refs`. -/
def threadHeaders (refs : List Text) (id : Text) : Dictionary :=
  [("In-Reply-To", id), ("References", Text.joinWith [' '] (refs ++ [id]))]

theorem customHeaders_structural [Charsets] {name : Text} (hvalid : FieldName.isValid name)
    (hs : FieldName.isStructural name = true) (value : Option Text)
    (pairs : List (Text × Option Text)) :
    ((Field.ofPairs ((name, value) :: pairs)).map Field.stripped).filterMap customHeader? =
      ((Field.ofPairs pairs).map Field.stripped).filterMap customHeader? := by
  have hcons : Field.ofPairs ((name, value) :: pairs) =
      (value.map (Field.ofText name)).toList ++ Field.ofPairs pairs := rfl
  have hnone : ∀ f ∈ (value.map (Field.ofText name)).toList,
      FieldName.isStructural f.key = true := by
    intro f hf
    obtain ⟨v, -, rfl⟩ := Option.map_eq_some_iff.1 (Option.mem_toList.1 hf)
    rwa [Field.key_ofText hvalid]
  rw [hcons, List.map_append, List.filterMap_append, customHeaders_of_structural hnone,
    List.nil_append]

theorem customHeaders_visible [Charsets] {name value : Text} (hvalid : FieldName.isValid name)
    (hs : FieldName.isStructural name = false)
    (hprintable : ∀ c ∈ value, Text.isPrintable c = true) (hlegible : LegibleText value)
    (hne : value ≠ []) (pairs : List (Text × Option Text)) :
    ((Field.ofPairs ((name, some value) :: pairs)).map Field.stripped).filterMap customHeader? =
      (name, value) :: ((Field.ofPairs pairs).map Field.stripped).filterMap customHeader? := by
  have hentry : FieldName.ValidEntry (name, value) :=
    ⟨hvalid, hne, Text.oneLine_of_isPrintable hprintable⟩
  have hshown := customHeader?_shown hentry hs (Text.hasControl_of_isPrintable hprintable) hlegible
  rw [EncodedWord.encode_of_isPrintable hprintable] at hshown
  exact List.filterMap_cons_some hshown

/-- Of a skeleton only what makes it part of a thread becomes a custom header. -/
theorem customHeaders_skeleton [Charsets] (hid : Skeleton.messageId? fs = some id)
    (hall : ∀ i ∈ Skeleton.thread fs ++ [id], IsIdentifier i) (toAll : Bool) :
    (Skeleton.readBack fs toAll).filterMap customHeader? =
      threadHeaders (Skeleton.thread fs) id := by
  have hown : IsIdentifier id := hall id (by simp)
  obtain ⟨hlegible, hne⟩ := legible_joinWith hall (by simp)
  rw [Skeleton.readBack, Skeleton.fields_eq, Skeleton.pairs, hid, Option.map_some,
    customHeaders_structural (by decide : FieldName.isValid "From".toList = true) (by decide),
    customHeaders_structural (by decide : FieldName.isValid "To".toList = true) (by decide),
    customHeaders_structural (by decide : FieldName.isValid "Cc".toList = true) (by decide),
    customHeaders_structural (by decide : FieldName.isValid "Subject".toList = true) (by decide),
    customHeaders_visible (by decide) (by decide) (fun c hc => (hown.visible c hc).1)
      hown.legible hown.ne_nil,
    customHeaders_visible (by decide) (by decide) (isPrintable_joinWith hall) hlegible hne,
    customHeaders_structural (by decide : FieldName.isValid "MIME-Version".toList = true)
      (by decide),
    customHeaders_structural (by decide : FieldName.isValid "Content-Type".toList = true)
      (by decide)]
  rfl

/-- A name outside the structure is found only among the custom fields. -/
theorem find?_readBack_custom (e : Email) (mint : Mint) {target : Text}
    (ht : FieldName.isStructural target = false) : Field.find? (e.readBack mint) target =
      (Field.find? (customFields e) target).map Field.stripped := by
  have hnone : ∀ gs : List Field, (∀ f ∈ gs, FieldName.isStructural f.key = true) →
      Field.find? gs target = none := by
    intro gs hgs
    apply Field.find?_eq_none
    intro key hkey
    obtain ⟨f, hf, rfl⟩ := List.mem_map.1 hkey
    cases hsame : Text.sameName f.key target with
    | false => rfl
    | true =>
        have hstructural := hgs f hf
        rw [FieldName.isStructural_congr hsame, ht] at hstructural
        cases hstructural
  have hversion : ∀ f ∈ [Field.ofText "MIME-Version" "1.0"],
      FieldName.isStructural f.key = true := by
    intro f hf
    rw [List.mem_singleton.1 hf, Field.key_ofText version_valid]
    decide
  rw [readBack, Field.find?_stripped, topFields_eq, Field.find?_append, Field.find?_append,
    Field.find?_append, hnone _ (structural_pairs e mint), hnone _ hversion,
    hnone _ (e.structural_content mint), Option.none_or, Option.or_none, Option.or_none]

theorem Sound.thread_none [Charsets] (h : e.Sound) (mint : Mint)
    (hheaders : ∀ p ∈ e.headers, Text.sameName p.1 "References" = false ∧
      Text.sameName p.1 "In-Reply-To" = false) : Skeleton.thread (e.readBack mint) = [] := by
  have hnone : ∀ target : Text, FieldName.isStructural target = false →
      (∀ p ∈ e.headers, Text.sameName p.1 target = false) →
      Field.textOf? (e.readBack mint) target = none := by
    intro target ht hother
    have hfind : Field.find? (customFields e) target = none := by
      apply Field.find?_eq_none
      intro key hkey
      rw [h.keys_customFields] at hkey
      obtain ⟨p, hp, rfl⟩ := List.mem_map.1 (List.mem_filter.1 hkey).1
      exact hother p hp
    rw [Field.textOf?, find?_readBack_custom e mint ht, hfind]
    rfl
  rw [Skeleton.thread, hnone "References" (by decide) fun p hp => (hheaders p hp).1,
    hnone "In-Reply-To" (by decide) fun p hp => (hheaders p hp).2]
  rfl

/-- A letter that belongs to a thread refers to the identifiers of the thread. -/
theorem Sound.thread_of_headers [Charsets] (h : e.Sound) (mint : Mint)
    (hheaders : e.headers = threadHeaders refs id)
    (hall : ∀ i ∈ refs ++ [id], IsIdentifier i) :
    Skeleton.thread (e.readBack mint) = refs ++ [id] := by
  obtain ⟨hlegible, -⟩ := legible_joinWith hall (by simp)
  have hshown : e.shownHeaders = threadHeaders refs id := by
    rw [h.shownHeaders, hheaders]
    rfl
  have hfields : customFields e = [Field.ofText "In-Reply-To" (EncodedWord.encode id),
      Field.ofText "References" (EncodedWord.encode (Text.joinWith [' '] (refs ++ [id])))] := by
    rw [customFields, hshown]
    rfl
  have hfind : Field.find? (customFields e) "References" =
      some (Field.ofText "References"
        (EncodedWord.encode (Text.joinWith [' '] (refs ++ [id])))) := by
    have hother : Text.sameName "In-Reply-To" "References" = false := by decide
    rw [hfields, Field.find?, List.find?_cons, Field.key_ofText (by decide), hother]
    exact Field.find?_cons (by rw [Field.key_ofText (by decide)]; decide) []
  have htext : Field.textOf? (e.readBack mint) "References" =
      some (Text.joinWith [' '] (refs ++ [id])) := by
    rw [Field.textOf?, find?_readBack_custom e mint (by decide), hfind, Option.map_some,
      Option.map_some, Field.text_encode _ hlegible.trimmed hlegible.plain]
  rw [Skeleton.thread, htext]
  change (Text.words (Text.joinWith [' '] (refs ++ [id]))).filter _ = _
  rw [words_references hall, List.filter_eq_self]
  intro i hi
  simp [(hall i hi).hasControl]

theorem Sound.messageId?_readBack [Charsets] (h : e.Sound) (mint : Mint) (hid : e.id = some id)
    (hown : IsIdentifier id) : Skeleton.messageId? (e.readBack mint) = some id := by
  have hmem : ("Message-ID".toList, some (e.messageId mint).1) ∈ e.pairs mint := by simp [pairs]
  have hprintable := EncodedWord.encode_of_isPrintable fun c hc => (hown.visible c hc).1
  have htext := Field.text_encode "Message-ID" hown.legible.trimmed hown.legible.plain
  rw [hprintable] at htext
  rw [Skeleton.messageId?, Field.textOf?, h.find?_shown mint (by decide) hmem,
    h.messageId_own hid, Option.map_some, Option.map_some, Option.map_some, htext,
    Option.map_some, hown.legible.trimmed, Option.filter_some,
    if_pos (by simp [hown.ne_nil, hown.hasControl])]

/-- The letter has the identifier `id`, belongs to a thread behind the letters `refs`, and its
subject is `s`, which a reader makes out. -/
structure InThread [Charsets] (refs : List Text) (id s : Text) (e : Email) : Prop where
  sound : e.Sound
  own : e.id = some id
  subject : e.subject = some s
  legible : LegibleText s
  thread : ∀ mint, Skeleton.thread (e.readBack mint) = refs
  known : ∀ i ∈ refs ++ [id], IsIdentifier i

/-- What the skeleton of a reply says of the thread. -/
theorem InThread.skeletonOf [Charsets] (h : InThread refs id s e) {skeleton : Email} {mint : Mint}
    {toAll : Bool} (hs : Email.skeletonOf (e.render mint).1 toAll = .ok skeleton) :
    skeleton.subject = some (Skeleton.subject s) ∧ skeleton.headers = threadHeaders refs id := by
  have hne : s ≠ [] := fun he => h.sound.subject (by rw [h.subject, he])
  obtain ⟨hlegible, hnonempty⟩ := legible_subject h.legible hne
  have hid := h.sound.messageId?_readBack mint h.own (h.known id (by simp))
  have hall : ∀ i ∈ Skeleton.thread (e.readBack mint) ++ [id], IsIdentifier i := by
    rw [h.thread]
    exact h.known
  rw [skeletonOf_eq (h.sound.readBlock_octets mint) (h.sound.readBack_ne_nil mint)] at hs
  have hback : Field.readBlock (Field.writeAll (Skeleton.fields (e.readBack mint) toAll) ++
      LineEnding.crlf ++ Utf8.encode Skeleton.placeholderBody) =
        .ok (Skeleton.readBack (e.readBack mint) toAll, Utf8.encode Skeleton.placeholderBody) :=
    Field.readBlock_writeAll (Skeleton.fields_clean (e.readBack mint) toAll) _
  obtain ⟨images, attachments, slots, rfl⟩ := head_of_ofMessage hback hs
  have hsubject : Field.textOf? (Skeleton.readBack (e.readBack mint) toAll) "Subject" =
      some (Skeleton.subject s) := by
    have hmem : ("Subject".toList, (Field.textOf? (e.readBack mint) "Subject").map fun s =>
        EncodedWord.encode (Skeleton.subject s)) ∈ Skeleton.pairs (e.readBack mint) toAll := by
      simp [Skeleton.pairs]
    rw [h.sound.subject_readBack mint h.subject h.legible] at hmem
    have hstart := Text.isBlank_head_of_trim hlegible.trimmed
    rw [Skeleton.readBack, Skeleton.fields_eq,
      Field.textOf?_ofPairs (Skeleton.apart_pairs _ _) hmem, Option.map_some, Option.map_some,
      Token.decodeValue_encode hlegible.plain hstart]
    rintro v ⟨⟩
    exact EncodedWord.isBlank_head_encode hstart
  have hheaders := customHeaders_skeleton hid hall toAll
  rw [h.thread] at hheaders
  rw [withFields_empty]
  constructor
  · simp only [fill, shownSubject?, hsubject]
    rw [Option.filter_some, if_pos (by simp [Text.allBlank_of_trim hlegible.trimmed hnonempty])]
  · simp only [fill, hheaders]
    rfl

theorem setId_empty {blank : Email} (h : setId (some id) ∅ = .ok blank) :
    blank = { empty with id := some id } := by
  rw [setId_eq] at h
  split at h
  · cases h
  · exact (Except.ok.inj h).symm

/-- A reply refers to the letter that it answers, behind the letters that this one refers to. -/
theorem InThread.reply [Charsets] (h : InThread refs id s parent) {next : Text} {blank : Email}
    {toAll : Bool} {template : Text} {mint : Mint} (hblank : setId (some next) ∅ = .ok blank)
    (hreply : (blank.primeReply (.email parent) toAll template mint).1 = .ok e') :
    e'.headers = threadHeaders refs id ∧ e'.subject = some (Skeleton.subject s) ∧
      (IsIdentifier next → InThread (refs ++ [id]) next (Skeleton.subject s) e') := by
  obtain ⟨skeleton, repliedTo, hskeleton, -, he'⟩ := primeReply_ok hreply
  obtain ⟨hsubject, hheaders⟩ := h.skeletonOf hskeleton
  rw [adoptReply_eq, setId_empty hblank, hsubject, hheaders] at he'
  have hid : e'.id = some next := by rw [he']
  have hsubject' : e'.subject = some (Skeleton.subject s) := by rw [he']; rfl
  have hheaders' : e'.headers = threadHeaders refs id := by rw [he']; rfl
  have hsound : e'.Sound := by
    refine (Sound.empty.setId hblank).primeReply ?_ hreply
    rintro p ⟨⟩
    exact h.sound
  have hne : s ≠ [] := fun he => h.sound.subject (by rw [h.subject, he])
  refine ⟨hheaders', hsubject', fun hnext => ?_⟩
  exact {
    sound := hsound
    own := hid
    subject := hsubject'
    legible := (legible_subject h.legible hne).1
    thread := fun mint => hsound.thread_of_headers mint hheaders' h.known
    known := List.forall_mem_append.2 ⟨h.known, List.forall_mem_singleton.2 hnext⟩ }

/-- The last of a chain of replies refers to all letters before it. -/
theorem Answers.inThread [Charsets] {first last : Email} (hchain : Answers first ids last)
    (hfirst : InThread [] id s first) (hids : ∀ i ∈ ids, IsIdentifier i) :
    ∃ refs own subject, id :: ids = refs ++ [own] ∧
      Skeleton.subject subject = Skeleton.subject s ∧ InThread refs own subject last := by
  induction hchain with
  | first => exact ⟨[], id, s, rfl, rfl, hfirst⟩
  | @next ids next parent blank last toAll template mint hparent hblank hreply ih =>
      -- The letter that is answered has referred to all identifiers but its own.
      obtain ⟨hids, hnext⟩ := List.forall_mem_append.1 hids
      obtain ⟨refs, own, subject, hall, hsubject, hthread⟩ := ih hids
      obtain ⟨-, -, hlast⟩ := hthread.reply hblank hreply
      refine ⟨refs ++ [own], next, Skeleton.subject subject, ?_, ?_, hlast (hnext next (by simp))⟩
      · rw [← hall]
        rfl
      · rw [Skeleton.subject_subject, hsubject]

theorem Answers.last [Charsets] {first last : Email} (h : Answers first (ids ++ [id]) last) :
    ∃ parent blank toAll template mint, Answers first ids parent ∧
      setId (some id) ∅ = .ok blank ∧
      (blank.primeReply (.email parent) toAll template mint).1 = .ok last := by
  generalize hall : ids ++ [id] = all at h
  cases h with
  | first => simp at hall
  | next hparent hblank hreply =>
      obtain ⟨rfl, hid⟩ := List.append_inj' hall rfl
      cases hid
      exact ⟨_, _, _, _, _, hparent, hblank, hreply⟩

/-- However long a chain of replies is, its last letter refers to all the letters before it in their
order, in reply to the last of them, and its subject says once that it is a reply. -/
theorem answers_thread [Charsets] {first last : Email} {id₀ : Text} {earlier : List Text}
    (h : Reachable first) (hid : first.id = some id₀) (hs : first.subject = some s)
    (hlegible : LegibleText s)
    (hheaders : ∀ p ∈ first.headers, Text.sameName p.1 "References" = false ∧
      Text.sameName p.1 "In-Reply-To" = false)
    (hids : ∀ i ∈ id₀ :: earlier, IsIdentifier i) (hchain : Answers first (earlier ++ [id]) last) :
    last.headers = [("In-Reply-To".toList, (id₀ :: earlier).getLast (List.cons_ne_nil _ _)),
        ("References".toList, Text.joinWith [' '] (id₀ :: earlier))] ∧
      last.subject = some (if Text.sameName (s.take 4) "Re: " then s else "Re: ".toList ++ s) := by
  obtain ⟨hfirst, hearlier⟩ := List.forall_mem_cons.1 hids
  have hstart : InThread [] id₀ s first := {
    sound := h.sound
    own := hid
    subject := hs
    legible := hlegible
    thread := fun mint => h.sound.thread_none mint hheaders
    known := List.forall_mem_singleton.2 hfirst }
  obtain ⟨parent, blank, toAll, template, mint, hparent, hblank, hreply⟩ := hchain.last
  obtain ⟨refs, own, subject, hall, hsame, hthread⟩ := hparent.inThread hstart hearlier
  obtain ⟨hheaders', hsubject, -⟩ := hthread.reply hblank hreply
  have hspelled : Skeleton.subject s =
      if Text.sameName (s.take 4) "Re: " then s else "Re: ".toList ++ s := by
    have hlower : Text.lowerAscii "Re: ".toList = "re: ".toList := by decide
    simp only [Skeleton.subject, Text.sameName, hlower, beq_iff_eq]
  have hlast : (id₀ :: earlier).getLast (List.cons_ne_nil _ _) = own := by simp [hall]
  rw [hlast, hall, ← hspelled, ← hsame]
  exact ⟨hheaders', hsubject⟩

def opening : Email :=
  { empty with id := some "<a@x.com>".toList, subject := some "Grüße".toList }

theorem opening_reachable [Charsets] : Reachable opening := by
  have hfirst := Reachable.empty.write (.setId (some "<a@x.com>".toList)) trivial rfl rfl
  exact hfirst.write (.setSubject "Grüße".toList) trivial rfl rfl

/-- A reply to the opening and a reply to that one. -/
theorem answers_thread_opening : ∃ last,
    Answers opening ["<b@x.com>".toList, "<c@x.com>".toList] last ∧
    last.headers = [("In-Reply-To".toList, "<b@x.com>".toList),
      ("References".toList, "<a@x.com> <b@x.com>".toList)] ∧
    last.subject = some "Re: Grüße".toList := by
  have hquote : Quotation.countPlaceholders Quotation.standardTemplate = 1 := by decide
  have hsecond : ∃ second, Answers opening ["<b@x.com>".toList] second ∧ second.Sound := by
    obtain ⟨second, hsecond⟩ := opening_reachable.sound.primeReply_email
      { empty with id := some "<b@x.com>".toList } false hquote ⟨0, fun _ => 0⟩
    have hblank : setId (some "<b@x.com>".toList) ∅ =
      .ok { empty with id := some "<b@x.com>".toList } := rfl
    refine ⟨second, Answers.first.next hblank hsecond, ?_⟩
    refine (Sound.empty.setId hblank).primeReply ?_ hsecond
    rintro p ⟨⟩
    exact opening_reachable.sound
  obtain ⟨second, hchain, hsound⟩ := hsecond
  obtain ⟨last, hlast⟩ := hsound.primeReply_email { empty with id := some "<c@x.com>".toList } true
    hquote ⟨1, fun _ => 0⟩
  have hchain' : Answers opening (["<b@x.com>".toList] ++ ["<c@x.com>".toList]) last :=
    hchain.next rfl hlast
  have hids : ∀ i ∈ ["<a@x.com>".toList, "<b@x.com>".toList], IsIdentifier i := by
    intro i hi
    have hall : ∀ i ∈ ["<a@x.com>".toList, "<b@x.com>".toList], i ≠ [] ∧
      (∀ c ∈ i, Text.isPrintable c = true ∧ c ≠ ' ') ∧ Plain i := by decide
    exact ⟨(hall i hi).1, (hall i hi).2.1, (hall i hi).2.2⟩
  have hnone : ∀ p ∈ opening.headers, Text.sameName p.1 "References" = false ∧
      Text.sameName p.1 "In-Reply-To" = false := by
    intro p hp
    cases hp
  obtain ⟨hheaders, hsubject⟩ := answers_thread opening_reachable rfl rfl
    ⟨by decide, by decide⟩ hnone hids hchain'
  exact ⟨last, hchain', hheaders, hsubject⟩

end Email
end Epistle
