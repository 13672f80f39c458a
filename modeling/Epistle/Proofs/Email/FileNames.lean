import Epistle.Proofs.Email.Resources

/-!
What the names of attached files are read as. A name is written in its header form inside quotes,
escaped; a reader takes the words out and the quotes off, but leaves the backslashes of the escaping
where they are, and takes a semicolon in the name for the end of it.
-/
namespace Epistle

open Epistle.Part (Shows Piece ShowsAll Reads placement withParameter)
open Token.Spelling (Plain)

/-- A file name without control characters and without marks that could begin an encoded word. -/
structure IsFileName (n : Text) : Prop where
  ne_nil : n ≠ []
  control : Text.hasControl n = false
  plain : Plain n

/-- The name that a reader finds between the quotes: what goes in words is not escaped. -/
def shownFile (n : Text) : Text := if n.all Text.isPrintable then Quoted.escape n else n

/-- No semicolon cuts the name, and it is written without escaping. -/
def KeepsName (n : Text) : Prop :=
  ';' ∉ n ∧ (n.all Text.isPrintable → ∀ c ∈ n, c ≠ '\\' ∧ c ≠ '"')

variable {n : Text}

theorem IsFileName.control_shown (h : IsFileName n) : Text.hasControl (shownFile n) = false := by
  rw [shownFile]
  split
  · exact Quoted.hasControl_escape h.control
  · exact h.control

theorem IsFileName.plain_shown (h : IsFileName n) : Plain (shownFile n) := by
  rw [shownFile]
  split
  · exact Token.Spelling.plain_escape h.plain
  · exact h.plain

theorem IsFileName.reads [Charsets] (h : IsFileName n) :
    Reads (some (Part.parameter (EncodedWord.encode n))) (some (shownFile n)) := by
  have hcontrol : Text.withoutControls (EncodedWord.encode n) = EncodedWord.encode n :=
    Text.withoutControls_eq_self
      (Text.hasControl_of_isPrintable fun c hc => EncodedWord.isPrintable_encode hc)
  rw [Part.parameter, hcontrol]
  have hplain := h.plain_shown
  have hline := Text.oneLine_of_hasControl h.control_shown
  rw [shownFile] at hplain hline ⊢
  split
  · rename_i hp
    rw [if_pos hp] at hplain hline
    rw [EncodedWord.encode, if_pos hp]
    exact Part.reads_plain hplain hline
  · rename_i hp
    rw [Quoted.escape_eq_self fun c hc => EncodedWord.ne_of_mem_words hp hc]
    exact .some fun front hf => Part.decodeValue_words hf hp

theorem shownFile_eq_self_iff : shownFile n = n ↔
    (n.all Text.isPrintable → ∀ c ∈ n, c ≠ '\\' ∧ c ≠ '"') := by
  rw [shownFile]
  split
  · rename_i hp
    rw [Quoted.escape_eq_self_iff]
    exact ⟨fun h _ => h, fun h => h hp⟩
  · rename_i hp
    exact ⟨fun _ h => absurd h hp, fun _ => rfl⟩

theorem semicolon_shownFile (h : ';' ∉ n) : ';' ∉ shownFile n := by
  rw [shownFile]
  split
  · exact fun hc => (Quoted.mem_escape hc).elim h (by decide)
  · exact h

/-- The disposition of an attached file as it is read. -/
def fileDisposition (n : Text) : Text :=
  withParameter (placement false) "filename" (some (shownFile n))

/-- Nothing in the disposition is a control character or could begin an encoded word. -/
theorem IsFileName.disposition (h : IsFileName n) :
    Text.hasControl (fileDisposition n) = false ∧ Plain (fileDisposition n) := by
  have hkey : "filename".toList ∈ Part.parameterNames := by decide
  have hfront := (Part.isValue_placement false).front (Part.isPlainName_of_mem hkey)
    (Part.oneLine_of_mem hkey)
  have hopen : Text.hasControl (placement false ++ "; ".toList ++ "filename".toList ++
      "=\"".toList) = false := by decide
  have hclose : Text.hasControl ['"'] = false := by decide
  rw [fileDisposition, withParameter]
  constructor
  · rw [Text.hasControl, List.any_append, List.any_append]
    exact Bool.or_eq_false_iff.2 ⟨Bool.or_eq_false_iff.2 ⟨hopen, h.control_shown⟩, hclose⟩
  · rw [List.append_assoc _ (shownFile n)]
    exact hfront.plain_append (Part.plain_quote h.plain_shown)

/-- The attachment that a source makes under a file name. -/
def fileOf (n : Text) (source : DataSource) : Resource :=
  .make (some (EncodedWord.encode n)) source

theorem name_fileOf (h : n ≠ []) (source : DataSource) :
    (fileOf n source).name = some (EncodedWord.encode n) := by
  have hne := Resource.encode_ne_nil h
  simp [fileOf, Resource.name, Resource.make, hne]

namespace Leaf

variable {l : Leaf} {source : DataSource}

/-- Some name is found that a file may have; it is the name as shown, unless a semicolon cuts it. -/
theorem fileName?_fileOf [Charsets] (h : Shows l (.resource (fileOf n source) false))
    (hn : IsFileName n)
    (hs : MediaType.IsSimple source.contentType) : ∃ found, l.fileName? = some found ∧
      Text.hasControl found = false ∧ Plain found ∧
      (';' ∉ n → found = shownFile n) ∧ (';' ∈ n → ';' ∉ found) := by
  have hkey : "filename".toList ∈ Part.parameterNames := by decide
  have hreads : Reads ((fileOf n source).name.map Part.parameter) (some (shownFile n)) := by
    rw [name_fileOf hn.ne_nil]
    exact hn.reads
  by_cases hc : ';' ∈ n
  · obtain ⟨found, hfound, hnot, hpart⟩ := Parameterized.get?_read
      (Part.isValue_placement false).semicolon (Part.isPlainName_of_mem hkey) (by decide)
      (shownFile n)
    have hname : l.fileName? = some found := by
      rw [fileName?, disposition, h.fields.disposition_resource hreads, Option.map_some,
        Option.getD_some, withParameter, hfound, Option.some_or]
    obtain ⟨hcontrol, hplain⟩ := hn.disposition
    exact ⟨found, hname, Text.hasControl_of_subset hpart.subset hcontrol,
      hplain.of_isInfix hpart, fun h => absurd hc h, fun _ => hnot⟩
  · have hname : l.fileName? = some (shownFile n) := by
      refine h.fileName?_resource hreads hs.isValue ?_
      rintro m ⟨⟩
      exact semicolon_shownFile hc
    exact ⟨_, hname, hn.control_shown, hn.plain_shown, fun _ => rfl, fun h => absurd h hc⟩

theorem fileName?_fileOf_iff [Charsets] (h : Shows l (.resource (fileOf n source) false))
    (hn : IsFileName n)
    (hs : MediaType.IsSimple source.contentType) : ∃ found, l.fileName? = some found ∧
      (EncodedWord.encode found = EncodedWord.encode n ↔ KeepsName n) := by
  obtain ⟨found, hname, hcontrol, hplain, hwhole, hcut⟩ := fileName?_fileOf h hn hs
  refine ⟨found, hname, (Part.encode_inj ⟨hcontrol, hplain⟩ ⟨hn.control, hn.plain⟩).trans ?_⟩
  rw [KeepsName, ← shownFile_eq_self_iff]
  by_cases hc : ';' ∈ n
  · refine ⟨fun he => absurd hc (he ▸ hcut hc), fun hk => absurd hc hk.1⟩
  · rw [hwhole hc]
    exact ⟨fun he => ⟨hc, he⟩, And.right⟩

end Leaf

namespace Email

variable {e : Email} {leaves : List Leaf} {data : Octets} {contentType : Text}

/-- The attachment is the file, read again. -/
structure Refiled (f : Text × DataSource) (a : Resource) : Prop where
  type : a.source.contentType = f.2.contentType
  data : a.source.data = f.2.data
  name : a.name = (fileOf f.1 f.2).name ↔ KeepsName f.1

theorem name_make_iff {t u : Text} (hu : u ≠ []) {source : DataSource} (hs : source.name = none) :
    (Resource.make (some t) source).name = some u ↔ t = u := by
  rw [Resource.name, Resource.make, hs, Option.or_none, Option.filter_eq_some_iff]
  simp only [Option.some.injEq, decide_eq_true_eq]
  exact ⟨And.left, fun h => ⟨h, hu⟩⟩

theorem attachment_refiled [Charsets] {l : Leaf} {f : Text × DataSource}
    (h : Shows l (.resource (fileOf f.1 f.2) false)) (hn : IsFileName f.1)
    (hs : (fileOf f.1 f.2).Simple) (hv : (fileOf f.1 f.2).Valid) : Refiled f l.attachment := by
  obtain ⟨found, hfound, hname⟩ := Leaf.fileName?_fileOf_iff h hn hs.type
  rw [Leaf.attachment_filed h hs hv, hfound]
  refine ⟨rfl, rfl, ?_⟩
  rw [name_fileOf hn.ne_nil, ← hname]
  exact name_make_iff (Resource.encode_ne_nil hn.ne_nil) rfl

theorem attachments_refiled [Charsets] {files : List (Text × DataSource)}
    (hl : ShowsAll leaves ((files.map fun f => fileOf f.1 f.2).map (Piece.resource · false)))
    (hf : ∀ f ∈ files, IsFileName f.1 ∧ (fileOf f.1 f.2).Simple ∧ (fileOf f.1 f.2).Valid) :
    List.Forall₂ Refiled files (leaves.map Leaf.attachment) := by
  induction files generalizing leaves with
  | nil =>
      cases hl
      exact .nil
  | cons f files ih =>
      obtain _ | ⟨hshows, hrest⟩ := hl
      obtain ⟨⟨hn, hs, hv⟩, hothers⟩ := List.forall_mem_cons.1 hf
      exact .cons (attachment_refiled hshows hn hs hv) (ih hrest hothers)

/-- Attached files come back in their order. -/
theorem Sound.read_files [Charsets] (h : e.Sound) (hs : e.Separable) {mint : Mint}
    (hq : e.Quiet mint)
    {files : List (Text × DataSource)} (hfiles : e.attachments = files.map fun f => fileOf f.1 f.2)
    (hn : ∀ f ∈ files, IsFileName f.1) : ∃ e', ofMessage (e.render mint).1 = .ok e' ∧
      List.Forall₂ Refiled files e'.attachments := by
  obtain ⟨e', -, attachments, hread, -, -, hshows, hattachments⟩ := h.read_resources hs hq
  rw [hfiles] at hshows
  refine ⟨e', hread, ?_⟩
  rw [hattachments]
  refine attachments_refiled hshows fun f hf => ?_
  have hmem : fileOf f.1 f.2 ∈ e.attachments := by
    rw [hfiles]
    exact List.mem_map_of_mem hf
  exact ⟨hn f hf, hs.attachments _ hmem, h.attachments _ hmem⟩

/-- A source of a simple type is made as it is given. -/
theorem make_simple (hd : data ≠ []) (ht : MediaType.IsSimple contentType) :
    DataSource.make data contentType = .ok ⟨none, contentType, data⟩ := by
  have htrim := ht.isValue.trim
  have hblank := Text.allBlank_of_trim htrim ht.isValue.ne_nil
  have hcontrol : Text.hasControl contentType = false :=
    Text.hasControl_of_isPrintable fun c hc =>
      (MediaType.isValueChar_cases (ht.isValue.chars c hc)).1
  simp [DataSource.make, hd, hblank, hcontrol, htrim]

theorem Sound.read_file [Charsets] (h : e.Sound) (hs : e.Separable) {mint : Mint}
    (hq : e.Quiet mint)
    {source : DataSource} (hone : e.attachments = [fileOf n source]) (hn : IsFileName n) :
    ∃ e' a, ofMessage (e.render mint).1 = .ok e' ∧ e'.attachments = [a] ∧
      a.source.contentType = source.contentType ∧ a.source.data = source.data ∧
      (e'.attachments.map Resource.name = e.attachments.map Resource.name ↔ KeepsName n) := by
  have hfiles : e.attachments = [(n, source)].map fun f => fileOf f.1 f.2 := hone
  obtain ⟨e', hread, hrefiled⟩ := h.read_files hs hq hfiles (List.forall_mem_singleton.2 hn)
  generalize hread' : e'.attachments = attachments at hrefiled
  obtain _ | ⟨hfirst, ⟨⟩⟩ := hrefiled
  refine ⟨e', _, hread, hread', hfirst.type, hfirst.data, ?_⟩
  rw [hread', hone, ← hfirst.name]
  exact List.singleton_inj

/-- A file that is attached to a letter comes back as its only attachment, with its type and its
data; under its name exactly if no semicolon is in it and, where it is printable ASCII, no quote and
no backslash. -/
theorem ofMessage_render_attach [Charsets] (h : Reachable e) (hs : e.Separable)
    (hnone : e.attachments = [])
    (hn : IsFileName n) (hd : data ≠ []) (ht : MediaType.IsSimple contentType)
    (hm : "multipart/".toList.isPrefixOf contentType = false) :
    ∃ e₁, e.attach (some n) data contentType = .ok e₁ ∧ ∀ mint, e₁.Quiet mint →
      ∃ e' a, ofMessage (e₁.render mint).1 = .ok e' ∧ e'.attachments = [a] ∧
        a.source.contentType = contentType ∧ a.source.data = data ∧
        (e'.attachments.map Resource.name = e₁.attachments.map Resource.name ↔ KeepsName n) := by
  have hattach : e.attach (some n) data contentType =
      .ok (e.attachSource (some n) ⟨none, contentType, data⟩) := by
    rw [attach_eq, make_simple hd ht]
    rfl
  have hone : (e.attachSource (some n) ⟨none, contentType, data⟩).attachments =
      [fileOf n ⟨none, contentType, data⟩] := by
    rw [attachSource, hnone]
    rfl
  have hseparable : (e.attachSource (some n) ⟨none, contentType, data⟩).Separable := by
    refine ⟨hs.images, ?_⟩
    rw [hone]
    exact List.forall_mem_singleton.2 ⟨ht, hm⟩
  exact ⟨_, hattach, fun mint hq => (h.sound.attach hattach).read_file hseparable hq hone hn⟩

def cover : Email := { empty with text := some "Attached.".toList }

theorem cover_reachable [Charsets] : Reachable cover :=
  Reachable.empty.write (.setText (some "Attached.".toList)) trivial rfl rfl

theorem cover_separable : cover.Separable :=
  ⟨fun _ hr => absurd hr List.not_mem_nil, fun _ hr => absurd hr List.not_mem_nil⟩

/-- Content of the type of the attached files. -/
def pdf : Octets := [0x25, 0x50, 0x44, 0x46]

theorem isSimple_pdf : MediaType.IsSimple "application/pdf".toList :=
  ⟨"application".toList, "pdf".toList, rfl, by decide⟩

theorem single_pdf : "multipart/".toList.isPrefixOf "application/pdf".toList = false := by decide

/-- The letter with a file. -/
def covered (n : Text) : Email := cover.attachSource (some n) ⟨none, "application/pdf", pdf⟩

theorem attach_cover (n : Text) : cover.attach (some n) pdf "application/pdf" = .ok (covered n) :=
  rfl

theorem covered_quiet (n : Text) (mint : Mint) : (covered n).Quiet mint := by
  refine quiet_of_no_dash ?_ (fun t ht => nomatch ht) fun m hm => nomatch hm
  rintro t ⟨⟩
  decide

/-- Quotes in a name that goes in words are read back. -/
theorem ofMessage_render_attach_covered : ∃ e',
    cover.attach (some "Zoë: \"24\".pdf") pdf "application/pdf" =
      .ok (covered "Zoë: \"24\".pdf") ∧
    ofMessage ((covered "Zoë: \"24\".pdf").render ⟨0, fun _ => 0⟩).1 = .ok e' ∧
    e'.attachments.map Resource.name =
      (covered "Zoë: \"24\".pdf").attachments.map Resource.name := by
  have hn : IsFileName "Zoë: \"24\".pdf" := ⟨by decide, by decide, by decide⟩
  have hpdf : pdf ≠ [] := by decide
  obtain ⟨e₁, hattach, hread⟩ := ofMessage_render_attach cover_reachable cover_separable rfl hn hpdf
    isSimple_pdf single_pdf
  rw [attach_cover] at hattach
  cases hattach
  obtain ⟨e', a, hmessage, -, -, -, hname⟩ := hread _ (covered_quiet _ ⟨0, fun _ => 0⟩)
  exact ⟨e', attach_cover _, hmessage, hname.2 ⟨by decide, by decide⟩⟩

/-- The letter is read with a file of another name. -/
def Renames [Charsets] (n : Text) : Prop :=
  ∃ e', ofMessage ((covered n).render ⟨0, fun _ => 0⟩).1 = .ok e' ∧
  e'.attachments.map Resource.name ≠ (covered n).attachments.map Resource.name

theorem renames_of_not_keepsName [Charsets] (hn : IsFileName n) (h : ¬ KeepsName n) :
    Renames n := by
  have hsound := cover_reachable.sound.attach (attach_cover n)
  have hseparable : (covered n).Separable :=
    ⟨cover_separable.images, List.forall_mem_singleton.2 ⟨isSimple_pdf, single_pdf⟩⟩
  obtain ⟨e', a, hmessage, -, -, -, hname⟩ :=
    hsound.read_file hseparable (covered_quiet n ⟨0, fun _ => 0⟩) rfl hn
  exact ⟨e', hmessage, fun hsame => h (hname.1 hsame)⟩

/-- A semicolon cuts the name, and a quote is read with the backslash in front of it. -/
theorem file_renamed : Renames "a;b.pdf" ∧ Renames "a\"b.pdf" := by
  refine ⟨renames_of_not_keepsName ⟨by decide, by decide, by decide⟩ ?_,
    renames_of_not_keepsName ⟨by decide, by decide, by decide⟩ ?_⟩
  · exact fun h => h.1 (by decide)
  · exact fun h => absurd (h.2 (by decide)) (by decide)

end Email
end Epistle
