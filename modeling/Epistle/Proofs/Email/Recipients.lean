import Epistle.Proofs.Email.HeaderRoundTrip

/-!
One recipient in, one recipient out. Addresses are written as they are, so punctuation in an address
can end it early or run it into its neighbour; an address that is contained stands for one recipient
in any company, whatever the names are.
-/
namespace Epistle

namespace Email

variable {e e' : Email}

/-- What recipients are read as in the field of a role. -/
def readAs (role : Role) (rs : List Recipient) : List Recipient :=
  (rs.map Recipient.received).map (·.withRole (some role))

theorem role_tagged {role : Role} {rs : List Recipient} :
    ∀ r ∈ rs.map (·.withRole (some role)), r.role = some role := by
  intro r hr
  obtain ⟨q, -, rfl⟩ := List.mem_map.1 hr
  rfl

theorem address_readAs (role : Role) (rs : List Recipient) :
    (readAs role rs).map (·.address) = rs.map (·.address) := by
  rw [readAs, List.map_map, List.map_map]
  exact List.map_congr_left fun _ _ => rfl

/-- Recipients of one role that differ are told apart by their addresses, which are kept. -/
theorem distinct_readAs {role : Role} {rs : List Recipient} (h : RecipientList.Distinct ⟨rs⟩)
    (hrole : ∀ r ∈ rs, r.role = some role) : RecipientList.Distinct ⟨readAs role rs⟩ := by
  have hboth : (readAs role rs).Pairwise fun a b => a.same b = false := by
    rw [readAs, List.pairwise_map, List.pairwise_map]
    refine List.Pairwise.imp_of_mem ?_ h
    intro a b ha hb hab
    simpa [Recipient.same, Recipient.received, Recipient.withRole, hrole a ha, hrole b hb] using hab
  exact hboth

/-- The recipients of a rendered letter that was read are those of its fields. -/
theorem Sound.recipients_ofMessage [Charsets] (h : e.Sound) {mint : Mint}
    (hread : ofMessage (e.render mint).1 = .ok e') :
    e'.recipients =
      ((RecipientList.empty.extend (Email.roleRecipients (e.readBack mint) .direct)).extend
        (Email.roleRecipients (e.readBack mint) .copy)).extend [] := by
  obtain ⟨images, attachments, slots, rfl⟩ := head_of_ofMessage (h.readBlock_octets mint) hread
  simp only [fill, withFields_empty, h.roleRecipients_blind mint]

theorem Sound.recipients_contained [Charsets] (h : e.Sound)
    (hl : ∀ role, role ≠ .blind → ∀ r ∈ e.recipients.ofRole role, r.Contained) {mint : Mint}
    (hread : ofMessage (e.render mint).1 = .ok e') :
    e'.recipients = ⟨readAs .direct (e.recipients.ofRole .direct) ++
      readAs .copy (e.recipients.ofRole .copy)⟩ := by
  have hrole : ∀ role, role ≠ .blind →
      Email.roleRecipients (e.readBack mint) role = readAs role (e.recipients.ofRole role) :=
    fun role hne => roleRecipients_contained (h.find?_role mint hne)
      fun r hr => ⟨h.ofRole role r hr, hl role hne r hr⟩
  have hdistinct : ∀ role, RecipientList.Distinct ⟨readAs role (e.recipients.ofRole role)⟩ :=
    fun role => distinct_readAs (h.distinct_ofRole role) fun _ => ofRole_role
  rw [h.recipients_ofMessage hread, hrole .direct (by decide), hrole .copy (by decide)]
  exact extend_roles (hdistinct _) (hdistinct _) role_tagged role_tagged

/-- Whenever a rendered letter can be read, each recipient that it shows is read as one recipient
under the same address: none brings in another, and none is swallowed by its neighbours. -/
theorem ofMessage_render_recipients [Charsets] (h : Reachable e)
    (hl : ∀ role, role ≠ .blind → ∀ r ∈ e.recipients.ofRole role, r.Contained) (mint : Mint) :
    ∀ e', ofMessage (e.render mint).1 = .ok e' → ∀ role, role ≠ .blind →
      (e'.recipients.ofRole role).length = (e.recipients.ofRole role).length ∧
        (e'.recipients.ofRole role).map (·.address) =
          (e.recipients.ofRole role).map (·.address) := by
  intro e' hread role hrole
  have haddress : (e'.recipients.ofRole role).map (·.address) =
      (e.recipients.ofRole role).map (·.address) := by
    obtain ⟨hdirect, hcopy, -⟩ :=
      @ofRole_roles (readAs .direct (e.recipients.ofRole .direct))
        (readAs .copy (e.recipients.ofRole .copy)) role_tagged role_tagged
    rw [h.sound.recipients_contained hl hread]
    cases role with
    | direct => rw [hdirect, address_readAs]
    | copy => rw [hcopy, address_readAs]
    | blind => exact absurd rfl hrole
  have hlength := congrArg List.length haddress
  rw [List.length_map, List.length_map] at hlength
  exact ⟨hlength, haddress⟩

/-- A letter whose recipients hold all the punctuation that contained ones may. -/
def company : Email :=
  { empty with
    recipients := ⟨[
      ⟨some "Doe, Jane; (x) <y@z>".toList, "a,b;c:d(e<f\"g@x.com".toList, some .direct⟩,
      ⟨none, ">h \"i)\\j@x.com".toList, some .direct⟩,
      ⟨some "Ünal, \"Bo\" ".toList, "<k@x.com".toList, some .copy⟩,
      ⟨some "\"".toList, "l@x.com".toList, some .copy⟩]⟩ }

theorem made_all {rs : List Recipient}
    (h : ∀ r ∈ rs, Recipient.make r.name r.address r.role = .ok r) : ∀ r ∈ rs, r.Made :=
  fun r hr => ⟨_, _, _, h r hr⟩

theorem company_reachable [Charsets] : Reachable company := by
  have hdirect := @made_all [
    ⟨some "Doe, Jane; (x) <y@z>".toList, "a,b;c:d(e<f\"g@x.com".toList, none⟩,
    ⟨none, ">h \"i)\\j@x.com".toList, none⟩] (by decide)
  have hcopy := @made_all [⟨some "Ünal, \"Bo\" ".toList, "<k@x.com".toList, none⟩,
    ⟨some "\"".toList, "l@x.com".toList, none⟩] (by decide)
  exact (Reachable.empty.write (.addRecipients .direct _) hdirect rfl rfl).write
    (.addRecipients .copy _) hcopy rfl rfl

theorem ofMessage_render_recipients_company : ∃ e',
    ofMessage (company.render ⟨0, fun _ => 0⟩).1 = .ok e' ∧
      (e'.recipients.ofRole .direct).length = 2 ∧ (e'.recipients.ofRole .copy).length = 2 ∧
      (e'.recipients.ofRole .copy).map (·.address) = ["<k@x.com".toList, "l@x.com".toList] := by
  have hcontained : ∀ role, role ≠ .blind →
      ∀ r ∈ company.recipients.ofRole role, r.Contained := by
    intro role hrole
    cases role with
    | direct => decide
    | copy => decide
    | blind => exact absurd rfl hrole
  obtain ⟨e', hread⟩ := company_reachable.sound.ofMessage_single ⟨0, fun _ => 0⟩
    (by decide : "plain".toList ∈ Part.textTypes) rfl
  have hsame := ofMessage_render_recipients company_reachable hcontained ⟨0, fun _ => 0⟩ e' hread
  exact ⟨e', hread, (hsame .direct (by decide)).1, (hsame .copy (by decide)).1,
    (hsame .copy (by decide)).2⟩

/-- A letter to these recipients that says nothing. -/
def letterTo (rs : List Recipient) : Email :=
  { empty with recipients := RecipientList.empty.extend (rs.map (·.withRole (some .direct))) }

theorem letterTo_reachable [Charsets] {rs : List Recipient} (hne : rs ≠ [])
    (h : ∀ r ∈ rs, Recipient.make r.name r.address r.role = .ok r) : Reachable (letterTo rs) := by
  refine Reachable.empty.write (.addRecipients .direct rs) (made_all h) rfl ?_
  cases rs with
  | nil => exact absurd rfl hne
  | cons r rest => rfl

/-- The recipients that a value of these tokens holds. -/
def recipientsOf (tokens : List Token) : List Recipient :=
  match AddressList.ofItems? (tokens.flatMap AddressList.Item.ofToken) with
  | some entries =>
    (entries.flatMap AddressEntry.mailboxes).filterMap fun box =>
      Recipient.ofMailbox? box.name box.address
  | none =>
    (Entries.split (tokens.flatMap Token.content)).filterMap fun entry =>
      match Entries.interpret none entry none with
      | .ok r => Recipient.ofMailbox? r.name r.address
      | .error _ => none

/-- Recipients of a role are read from the tokens of what they are written as. -/
theorem Sound.roleRecipients_tokens [Charsets] (h : e.Sound) (mint : Mint) {role : Role}
    (hrole : role ≠ .blind) (hne : e.recipients.ofRole role ≠ []) :
    Email.roleRecipients (e.readBack mint) role =
      (recipientsOf (Token.ofValue (Recipient.formatAll (e.recipients.ofRole role)))).map
        (·.withRole (some role)) := by
  have hfirst := Recipient.head_formatAll (h.ofRole role)
  rw [Email.roleRecipients, Recipient.ofFields, h.find?_role mint hrole, if_neg hne,
    Field.stripped_eq_self _ hfirst]
  simp only [Option.map_some, Option.getD_some, Recipient.ofField, AddressList.ofField?,
    Field.tokens, Field.text, Field.raw_ofText]
  rfl

/-- The letter can be read, and is read as one to another number of direct recipients. -/
def Misread [Charsets] (e : Email) : Prop := ∃ e', ofMessage (e.render ⟨0, fun _ => 0⟩).1 = .ok e' ∧
  (e'.recipients.ofRole .direct).length ≠ (e.recipients.ofRole .direct).length

theorem misread_of_tokens [Charsets] {rs : List Recipient} {tokens : List Token} (hne : rs ≠ [])
    (hmade : ∀ r ∈ rs, Recipient.make r.name r.address r.role = .ok r)
    (hlist : (letterTo rs).recipients = ⟨rs.map (·.withRole (some .direct))⟩)
    (hvalue : Token.ofValue (Recipient.formatAll rs) = tokens)
    (hcount : ((RecipientList.empty.extend
      ((recipientsOf tokens).map (·.withRole (some .direct)))).ofRole .direct).length ≠ rs.length) :
    Misread (letterTo rs) := by
  have hsound := (letterTo_reachable hne hmade).sound
  obtain ⟨e', hread⟩ := hsound.ofMessage_single ⟨0, fun _ => 0⟩ (by decide : "plain".toList ∈ _) rfl
  have hdirect : (letterTo rs).recipients.ofRole .direct = rs.map (·.withRole (some .direct)) := by
    rw [hlist, ofRole_tagged role_tagged, if_pos rfl]
  have hcopy : (letterTo rs).recipients.ofRole .copy = [] := by
    rw [hlist, ofRole_tagged role_tagged, if_neg (by decide)]
  have hformat : Recipient.formatAll (rs.map (·.withRole (some .direct))) =
      Recipient.formatAll rs := by
    rw [Recipient.formatAll, Recipient.formatAll, List.map_map]
    rfl
  have hno : Email.roleRecipients ((letterTo rs).readBack ⟨0, fun _ => 0⟩) .copy = [] := by
    rw [Email.roleRecipients, Recipient.ofFields, hsound.find?_role _ (by decide), if_pos hcopy]
    rfl
  refine ⟨e', hread, ?_⟩
  rw [hsound.recipients_ofMessage hread, hno,
    hsound.roleRecipients_tokens _ (by decide) (by rw [hdirect]; simpa using hne), hdirect,
    hformat, hvalue, List.length_map]
  exact hcount

/-- Recipients whose addresses hold punctuation, each list of another kind. -/
def punctuated : List (List Recipient) :=
  [[⟨none, "a@x.com,b@y.com".toList, none⟩],
    [⟨none, "a@x.com;b@y.com".toList, none⟩],
    [⟨none, "a:b@x.com".toList, none⟩, ⟨none, "c\"d@x.com".toList, none⟩,
      ⟨none, "e\"f@x.com".toList, none⟩],
    [⟨none, "a<b@x.com".toList, none⟩, ⟨none, "c@y.com".toList, none⟩],
    [⟨none, "a(b@x.com".toList, none⟩, ⟨none, "c)d@y.com".toList, none⟩],
    [⟨none, "\"a@x.com".toList, none⟩, ⟨none, "b\"@y.com".toList, none⟩],
    [⟨some "N".toList, "a@x.com>,b@y.com".toList, none⟩]]

/-- An address that looks like an encoded word. -/
def encodedAddress : List Recipient := [⟨none, "=?UTF-8?Q?a@x.com=2Cb@y.com?=".toList, none⟩]

/-- Two names that make an encoded word of what stands between them. -/
def encodedNames : List Recipient :=
  [⟨some "=?UTF-8?Q?a".toList, "c@x.com".toList, none⟩,
    ⟨some "b?=".toList, "d@x.com".toList, none⟩]

/-- Lists of recipients that a field cannot keep apart. -/
def ambiguous : List (List Recipient) := encodedNames :: encodedAddress :: punctuated

theorem ambiguous_made : ∀ rs ∈ ambiguous, rs ≠ [] ∧
    ∀ r ∈ rs, Recipient.make r.name r.address r.role = .ok r := by decide

theorem head_made {rs : List Recipient}
    (h : ∀ r ∈ rs, Recipient.make r.name r.address r.role = .ok r) :
    ∀ c, (Recipient.formatAll rs).head? = some c → Text.isBlank c = false :=
  Recipient.head_formatAll fun r hr => (made_all h r hr).valid

theorem misread_punctuated [Charsets] : ∀ rs ∈ punctuated, Misread (letterTo rs) := by
  have hall : ∀ rs ∈ punctuated,
      (letterTo rs).recipients = ⟨rs.map (·.withRole (some .direct))⟩ ∧
      Token.Spelling.Plain (Recipient.formatAll rs) ∧ Text.OneLine (Recipient.formatAll rs) ∧
      Recipient.formatAll rs ≠ [] ∧
      ((RecipientList.empty.extend
        ((recipientsOf [Token.blankOrText (Recipient.formatAll rs)]).map
          (·.withRole (some .direct)))).ofRole .direct).length ≠ rs.length := by decide
  intro rs hrs
  obtain ⟨hlist, hplain, hline, htext, hcount⟩ := hall rs hrs
  obtain ⟨hne, hmade⟩ := ambiguous_made rs (List.mem_cons_of_mem _ (List.mem_cons_of_mem _ hrs))
  have htokens := Token.ofValue_plain hplain hline htext (head_made hmade)
  exact misread_of_tokens hne hmade hlist htokens hcount

theorem misread_encodedAddress [Charsets] : Misread (letterTo encodedAddress) := by
  obtain ⟨hne, hmade⟩ := ambiguous_made encodedAddress (by simp [ambiguous])
  have htokens := @Token.ofValue_found _ (Recipient.formatAll encodedAddress)
    [] "UTF-8?Q?a@x.com=2Cb@y.com?=".toList "UTF-8?Q?a@x.com=2Cb@y.com".toList []
    "a@x.com,b@y.com".toList (by decide) (by decide) (head_made hmade) (by decide) (by decide)
    (by decide) (by decide) rfl (by decide)
  exact misread_of_tokens hne hmade (by decide) htokens (by decide)

theorem misread_encodedNames [Charsets] : Misread (letterTo encodedNames) := by
  obtain ⟨hne, hmade⟩ := ambiguous_made encodedNames (by simp [ambiguous])
  have htokens := @Token.ofValue_found _ (Recipient.formatAll encodedNames)
    ['"'] "UTF-8?Q?a\" <c@x.com>, \"b?=\" <d@x.com>".toList
    "UTF-8?Q?a\" <c@x.com>, \"b".toList "\" <d@x.com>".toList
    "a\" <c@x.com>, \"b".toList (by decide) (by decide) (head_made hmade) (by decide) (by decide)
    (by decide) (by decide) rfl (by decide)
  exact misread_of_tokens hne hmade (by decide) htokens (by decide)

/-- Addresses are taken as they are, and each way of not being contained is open to them: letters to
such recipients are read as letters to more or to fewer. -/
theorem recipients_misread :
    (∀ rs ∈ ambiguous, Reachable (letterTo rs) ∧ ∀ r ∈ (letterTo rs).recipients.entries,
      '@' ∈ r.address ∧ ∀ c ∈ r.address, Text.isPrintable c) ∧
    ∀ rs ∈ ambiguous, ∃ e', ofMessage ((letterTo rs).render ⟨0, fun _ => 0⟩).1 = .ok e' ∧
      (e'.recipients.ofRole .direct).length ≠
        ((letterTo rs).recipients.ofRole .direct).length := by
  have hprint : ∀ rs ∈ ambiguous, ∀ r ∈ (letterTo rs).recipients.entries,
      '@' ∈ r.address ∧ ∀ c ∈ r.address, Text.isPrintable c := by decide
  have hmisread : ∀ rs ∈ ambiguous, Misread (letterTo rs) :=
    List.forall_mem_cons.2 ⟨misread_encodedNames,
      List.forall_mem_cons.2 ⟨misread_encodedAddress, misread_punctuated⟩⟩
  refine ⟨?_, hmisread⟩
  intro rs hrs
  obtain ⟨hne, hmade⟩ := ambiguous_made rs hrs
  exact ⟨letterTo_reachable hne hmade, hprint rs hrs⟩

end Email
end Epistle
