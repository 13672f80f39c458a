import Mathlib.Data.List.Nodup
import Epistle.Proofs.Email.Recipients
import Epistle.Proofs.Email.Replies

/-!
Whom a reply goes to. The addressees of a skeleton are the first occurrences, ASCII case aside, of
those that the message names, direct ones first, and nobody of them is lost when the skeleton is
written and read. A letter that becomes the reply keeps its recipients and adds the addressees that
it does not have yet.
-/
namespace Epistle

namespace Recipient

/-- A recipient whose address holds no punctuation, and whose name no encoded word. -/
structure Addressable (r : Recipient) : Prop where
  at_sign : '@' ∈ r.address
  address_chars : ∀ c ∈ r.address, isAddressChar c
  address_plain : Token.Spelling.Plain r.address
  name_plain : ∀ n, r.name = some n → Token.Spelling.Plain n

instance (r : Recipient) : Decidable r.Addressable :=
  decidable_of_iff ('@' ∈ r.address ∧ (∀ c ∈ r.address, isAddressChar c) ∧
      Token.Spelling.Plain r.address ∧ ∀ n ∈ r.name, Token.Spelling.Plain n)
    ⟨fun ⟨ha, hc, hp, hn⟩ => ⟨ha, hc, hp, hn⟩, fun ⟨ha, hc, hp, hn⟩ => ⟨ha, hc, hp, hn⟩⟩

theorem Addressable.contained {r : Recipient} (h : r.Addressable) : r.Contained :=
  contained_of_chars h.at_sign h.address_chars h.address_plain fun n hn _ => h.name_plain n hn

def addresses (rs : List Recipient) : List Text := rs.map (·.address)

/-- The address as it is compared when a reply looks for repetitions. -/
def key (r : Recipient) : Text := Text.lowerAscii r.address

end Recipient

namespace RecipientList

variable {l : RecipientList} {rs : List Recipient}

theorem contains_insert {r q : Recipient} (h : q.same r = false) :
    (l.insert r).1.contains q = l.contains q := by
  rw [contains, insert_entries]
  by_cases hc : l.contains r
  · rw [if_pos hc, contains]
  · rw [if_neg hc, List.any_append, List.any_cons, List.any_nil, h, Bool.or_false, Bool.or_false,
      contains]

/-- Of recipients that differ from each other those are added that the list does not have. -/
theorem extend_distinct (h : Distinct ⟨rs⟩) :
    (l.extend rs).entries = l.entries ++ rs.filter fun r => !l.contains r := by
  induction rs generalizing l with
  | nil => simp [extend]
  | cons r rs ih =>
      obtain ⟨hr, hrs⟩ := List.pairwise_cons.1 h
      have hrest : rs.filter (fun q => !(l.insert r).1.contains q) =
          rs.filter fun q => !l.contains q := by
        apply List.filter_congr
        intro q hq
        have hother : q.same r = false := by
          have hsame := hr q hq
          simp only [Recipient.same, Bool.and_eq_false_iff, beq_eq_false_iff_ne] at hsame ⊢
          exact hsame.imp Ne.symm Ne.symm
        rw [contains_insert hother]
      rw [extend_cons, ih hrs, hrest, insert_entries]
      cases hc : l.contains r with
      | true => simp [hc]
      | false => simp [hc]

/-- A direct recipient is in the list if its address is there as that of a direct recipient. -/
theorem contains_direct {r : Recipient} (h : r.role = some .direct) :
    l.contains r = (Recipient.addresses (l.ofRole .direct)).contains r.address := by
  rw [Bool.eq_iff_iff]
  simp only [contains, List.any_eq_true, Recipient.same, h, Bool.and_eq_true, beq_iff_eq,
    List.contains_iff_mem, Recipient.addresses, List.mem_map, ofRole, List.mem_filter]
  constructor
  · rintro ⟨q, hq, haddress, hrole⟩
    exact ⟨q, ⟨hq, hrole.symm⟩, haddress.symm⟩
  · rintro ⟨q, ⟨hq, hrole⟩, haddress⟩
    exact ⟨q, hq, haddress.symm, hrole.symm⟩

end RecipientList

namespace Skeleton

open Recipient (addresses key)

variable {fs : List Field} {toAll : Bool} {seen : List Text} {rs : List Recipient}

/-- Those whom a reply goes to in any case: where replies are asked for, or else the senders. -/
def answered [Charsets] (fs : List Field) : List Recipient :=
  if Recipient.ofFields fs "Reply-To" = [] then Recipient.ofFields fs "From"
  else Recipient.ofFields fs "Reply-To"

/-- Those of a field whom a reply to all includes. -/
def included [Charsets] (fs : List Field) (toAll : Bool) (name : Text) : List Recipient :=
  if toAll then Recipient.ofFields fs name else []

/-- The first occurrences of addresses, ASCII case aside. -/
def firsts (as : List Text) : List Text := as.eraseDupsBy Text.sameName

theorem keepNew_append (seen : List Text) (rs qs : List Recipient) :
    (keepNew seen (rs ++ qs)).1 = (keepNew seen rs).1 ++ (keepNew (keepNew seen rs).2 qs).1 ∧
      (keepNew seen (rs ++ qs)).2 = (keepNew (keepNew seen rs).2 qs).2 := by
  induction rs generalizing seen with
  | nil => exact ⟨rfl, rfl⟩
  | cons r rs ih =>
      rw [List.cons_append, keepNew, keepNew]
      by_cases h : Text.lowerAscii r.address ∈ seen
      · simpa only [if_pos h] using ih seen
      · simp only [if_neg h, List.cons_append, ih, and_self]

theorem addressees_eq [Charsets] (fs : List Field) (toAll : Bool) : addressees fs toAll =
    ((keepNew [] (answered fs ++ included fs toAll "To")).1,
      (keepNew (keepNew [] (answered fs ++ included fs toAll "To")).2
        (included fs toAll "Cc")).1) := by
  obtain ⟨hkept, hseen⟩ := keepNew_append [] (answered fs) (included fs toAll "To")
  rw [hkept, hseen]
  cases toAll with
  | true => rfl
  | false =>
      change ((keepNew [] (answered fs)).1, []) = ((keepNew [] (answered fs)).1 ++ [], [])
      rw [List.append_nil]

/-- What has been seen is remembered: the keys of those that are kept come behind it. -/
theorem seen_keepNew (seen : List Text) (rs : List Recipient) :
    (keepNew seen rs).2 = seen ++ (keepNew seen rs).1.map key := by
  induction rs generalizing seen with
  | nil => simp [keepNew]
  | cons r rs ih =>
      rw [keepNew]
      by_cases h : Text.lowerAscii r.address ∈ seen
      · simp only [if_pos h, ih]
      · simp only [if_neg h, ih, List.map_cons, key, List.append_assoc, List.singleton_append]

theorem nodup_keepNew (h : seen.Nodup) (rs : List Recipient) : (keepNew seen rs).2.Nodup := by
  induction rs generalizing seen with
  | nil => exact h
  | cons r rs ih =>
      rw [keepNew]
      by_cases hr : Text.lowerAscii r.address ∈ seen
      · simpa only [if_pos hr] using ih h
      · simp only [if_neg hr]
        have hnew : ∀ a ∈ seen, ∀ b ∈ [Text.lowerAscii r.address], a ≠ b := by
          rintro a ha b hb rfl
          exact hr (List.mem_singleton.1 hb ▸ ha)
        exact ih (List.nodup_append.2 ⟨h, List.pairwise_singleton _ _, hnew⟩)

theorem key_mem_keepNew {r : Recipient} (h : r ∈ rs) (seen : List Text) :
    r.key ∈ (keepNew seen rs).2 := by
  induction rs generalizing seen with
  | nil => cases h
  | cons q rs ih =>
      rw [keepNew]
      by_cases hq : Text.lowerAscii q.address ∈ seen
      · simp only [if_pos hq]
        rcases List.mem_cons.1 h with rfl | h
        · rw [seen_keepNew]
          exact List.mem_append_left _ hq
        · exact ih h seen
      · simp only [if_neg hq]
        rcases List.mem_cons.1 h with rfl | h
        · rw [seen_keepNew]
          exact List.mem_append_left _ (by simp [key])
        · exact ih h _

/-- Those that are kept are the first occurrences of what has not been seen. -/
theorem addresses_keepNew (seen : List Text) (rs : List Recipient) :
    addresses (keepNew seen rs).1 =
      firsts ((addresses rs).filter fun a => Text.lowerAscii a ∉ seen) := by
  induction rs generalizing seen with
  | nil => rfl
  | cons r rs ih =>
      have hcons : addresses (r :: rs) = r.address :: addresses rs := rfl
      rw [keepNew, hcons]
      by_cases h : Text.lowerAscii r.address ∈ seen
      · simp only [if_pos h, ih]
        rw [List.filter_cons_of_neg (by simpa using h)]
      · have hkept : addresses (r :: (keepNew (seen ++ [Text.lowerAscii r.address]) rs).1) =
            r.address :: addresses (keepNew (seen ++ [Text.lowerAscii r.address]) rs).1 := rfl
        simp only [if_neg h]
        rw [hkept, ih, List.filter_cons_of_pos (by simpa using h), firsts, firsts,
          List.eraseDupsBy_cons, List.filter_filter]
        congr 2
        apply List.filter_congr
        intro a _
        simp [Text.sameName, not_or, Bool.and_comm]

/-- The addresses that a reply goes to directly. -/
def directAddresses [Charsets] (fs : List Field) (toAll : Bool) : List Text :=
  firsts (addresses (answered fs ++ included fs toAll "To"))

/-- The addresses that get a copy of a reply and are not written to directly. -/
def copyAddresses [Charsets] (fs : List Field) (toAll : Bool) : List Text :=
  firsts ((addresses (included fs toAll "Cc")).filter fun a =>
    !(directAddresses fs toAll).any (Text.sameName a))

theorem addresses_addressees [Charsets] (fs : List Field) (toAll : Bool) :
    addresses (addressees fs toAll).1 = directAddresses fs toAll ∧
      addresses (addressees fs toAll).2 = copyAddresses fs toAll := by
  have hdirect : addresses (addressees fs toAll).1 = directAddresses fs toAll := by
    rw [addressees_eq, addresses_keepNew, directAddresses]
    simp
  refine ⟨hdirect, ?_⟩
  have hseen : ∀ a, Text.lowerAscii a ∉ (keepNew [] (answered fs ++ included fs toAll "To")).2 ↔
      (directAddresses fs toAll).any (Text.sameName a) = false := by
    intro a
    have hkeys : (keepNew [] (answered fs ++ included fs toAll "To")).2 =
        (directAddresses fs toAll).map Text.lowerAscii := by
      rw [seen_keepNew, List.nil_append, ← hdirect, addressees_eq, addresses, List.map_map]
      rfl
    rw [hkeys]
    simp only [List.mem_map, List.any_eq_false, Text.sameName, beq_iff_eq, not_exists, not_and]
    exact forall₂_congr fun _ _ => ne_comm
  rw [addressees_eq, addresses_keepNew, copyAddresses]
  simp only [hseen, Bool.decide_eq_false]

/-- All those whom a reply may go to, in the order in which they are asked. -/
def named [Charsets] (fs : List Field) (toAll : Bool) : List Recipient :=
  answered fs ++ included fs toAll "To" ++ included fs toAll "Cc"

theorem addressees_named [Charsets] (fs : List Field) (toAll : Bool) :
    (addressees fs toAll).1 ++ (addressees fs toAll).2 = (keepNew [] (named fs toAll)).1 := by
  obtain ⟨hkept, -⟩ :=
    keepNew_append [] (answered fs ++ included fs toAll "To") (included fs toAll "Cc")
  rw [addressees_eq, named, hkept]

theorem keys_addressees [Charsets] (fs : List Field) (toAll : Bool) :
    ((addressees fs toAll).1 ++ (addressees fs toAll).2).map key =
      (keepNew [] (named fs toAll)).2 := by
  rw [addressees_named, seen_keepNew, List.nil_append]

theorem nodup_keys [Charsets] (fs : List Field) (toAll : Bool) :
    (((addressees fs toAll).1 ++ (addressees fs toAll).2).map key).Nodup := by
  rw [keys_addressees]
  exact nodup_keepNew List.nodup_nil _

/-- Everybody who is named is addressed once. -/
theorem countP_addressees [Charsets] {a : Text} (h : a ∈ addresses (named fs toAll)) :
    (directAddresses fs toAll ++ copyAddresses fs toAll).countP (Text.sameName a) = 1 := by
  obtain ⟨r, hr, rfl⟩ := List.mem_map.1 h
  obtain ⟨hdirect, hcopy⟩ := addresses_addressees fs toAll
  have hmem : r.key ∈ ((addressees fs toAll).1 ++ (addressees fs toAll).2).map key := by
    rw [keys_addressees]
    exact key_mem_keepNew hr []
  have hcount := List.count_eq_one_of_mem (nodup_keys fs toAll) hmem
  rw [← hdirect, ← hcopy, addresses, addresses, ← List.map_append, List.countP_map, ← hcount,
    List.count, List.countP_map]
  apply List.countP_congr
  intro q _
  simp only [Function.comp, Text.sameName, key, beq_iff_eq]
  exact eq_comm

/-- The fields of a message that say whom its reply goes to. -/
def addressNames : List Text := ["Reply-To".toList, "From".toList, "To".toList, "Cc".toList]

theorem mem_named [Charsets] {r : Recipient} (h : r ∈ named fs toAll) :
    ∃ name ∈ addressNames, r ∈ Recipient.ofFields fs name := by
  have hincluded : ∀ name ∈ addressNames, r ∈ included fs toAll name →
      ∃ name ∈ addressNames, r ∈ Recipient.ofFields fs name := by
    intro name hname hr
    rw [included] at hr
    split at hr
    · exact ⟨name, hname, hr⟩
    · cases hr
  rcases List.mem_append.1 h with h | h
  · rcases List.mem_append.1 h with h | h
    · rw [answered] at h
      split at h
      · exact ⟨"From".toList, by decide, h⟩
      · exact ⟨"Reply-To".toList, by decide, h⟩
    · exact hincluded "To".toList (by decide) h
  · exact hincluded "Cc".toList (by decide) h

/-- The addressees of a message whose fields hold addressable recipients only. -/
theorem addressees_contained [Charsets]
    (h : ∀ name ∈ addressNames, ∀ r ∈ Recipient.ofFields fs name, r.Addressable) :
    ∀ r ∈ (addressees fs toAll).1 ++ (addressees fs toAll).2, r.Valid ∧ r.Contained := by
  intro r hr
  rw [addressees_named] at hr
  obtain ⟨name, hname, hr⟩ := mem_named (mem_keepNew hr)
  exact ⟨(Recipient.ofFields_valid hr).1, (h name hname r hr).contained⟩

theorem find?_listText [Charsets] {name : Text} {rs : List Recipient}
    (h : (name, listText? rs) ∈ pairs fs toAll) :
    Field.find? (readBack fs toAll) name =
      if rs = [] then none
      else some (Field.ofText name (Recipient.formatAll rs)).stripped := by
  rw [readBack, fields_eq, Field.find?_stripped, Field.find?_ofPairs (apart_pairs fs toAll).valid,
    Field.lookup_of_mem (apart_pairs fs toAll) h, listText?]
  split <;> rfl

end Skeleton

theorem Message.reply_of_fields [Charsets] {m : Message} {fs : List Field} {body : Octets}
    (h : Field.readBlock m.octets = .ok (fs, body)) (hne : fs ≠ []) (toAll : Bool) :
    ∃ s, m.reply toAll = .ok s := by
  cases fs with
  | nil => exact absurd rfl hne
  | cons f fs =>
      rw [reply, h]
      exact ⟨_, rfl⟩

namespace Email

open Recipient (addresses key)
open Skeleton (addressees addressNames directAddresses copyAddresses named)

variable {e e' b : Email} {fs : List Field} {toAll : Bool}

theorem keys_readAs (role : Role) (rs : List Recipient) :
    (readAs role rs).map key = rs.map key := by
  rw [readAs, List.map_map, List.map_map]
  exact List.map_congr_left fun _ _ => rfl

theorem distinct_of_keys {rs : List Recipient} (h : (rs.map key).Nodup) :
    RecipientList.Distinct ⟨rs⟩ := by
  have hpairs : rs.Pairwise fun a b => a.same b = false := by
    refine List.Pairwise.imp ?_ (List.pairwise_map.1 h)
    intro a b hab
    rw [Recipient.same, Bool.and_eq_false_iff, beq_eq_false_iff_ne]
    exact .inl fun heq => hab (congrArg Text.lowerAscii heq)
  exact hpairs

/-- The recipients of a skeleton are the addressees, each in its role. -/
theorem recipients_skeleton [Charsets] {m : Message} {body : Octets}
    (h : Field.readBlock m.octets = .ok (Skeleton.readBack fs toAll, body))
    (hall : ∀ name ∈ addressNames, ∀ r ∈ Recipient.ofFields fs name, r.Addressable)
    (hread : ofMessage m = .ok e) :
    e.recipients = ⟨readAs .direct (addressees fs toAll).1 ++
      readAs .copy (addressees fs toAll).2⟩ := by
  have hcontained := @Skeleton.addressees_contained fs toAll _ hall
  have hkeys := Skeleton.nodup_keys fs toAll
  rw [List.map_append] at hkeys
  obtain ⟨hdirect, hcopy, -⟩ := List.nodup_append.1 hkeys
  have hto : roleRecipients (Skeleton.readBack fs toAll) .direct =
      readAs .direct (addressees fs toAll).1 :=
    roleRecipients_contained (Skeleton.find?_listText (by simp [Skeleton.pairs, Role.fieldName]))
      fun r hr => hcontained r (List.mem_append_left _ hr)
  have hcc : roleRecipients (Skeleton.readBack fs toAll) .copy =
      readAs .copy (addressees fs toAll).2 :=
    roleRecipients_contained (Skeleton.find?_listText (by simp [Skeleton.pairs, Role.fieldName]))
      fun r hr => hcontained r (List.mem_append_right _ hr)
  have hbcc : roleRecipients (Skeleton.readBack fs toAll) .blind = [] := by
    have hnone : Field.find? (Skeleton.readBack fs toAll) "Bcc" = none := by
      rw [Skeleton.readBack, Skeleton.fields_eq, Field.find?_stripped,
        Field.find?_ofPairs (Skeleton.apart_pairs fs toAll).valid]
      rfl
    rw [roleRecipients, Recipient.ofFields, Role.fieldName, hnone]
    rfl
  obtain ⟨images, attachments, slots, rfl⟩ := head_of_ofMessage h hread
  simp only [fill, withFields_empty, hto, hcc, hbcc]
  exact extend_roles (distinct_of_keys (by rwa [keys_readAs]))
    (distinct_of_keys (by rwa [keys_readAs])) role_tagged role_tagged

theorem recipients_primeReply [Charsets] {parent : Parent} {mint : Mint} {m s : Message}
    {body : Octets}
    {template : Text} (hmessage : (parent.asMessage mint).1 = m) (hs : m.reply toAll = .ok s)
    (hback : Field.readBlock s.octets = .ok (Skeleton.readBack fs toAll, body))
    (hall : ∀ name ∈ addressNames, ∀ r ∈ Recipient.ofFields fs name, r.Addressable)
    (h : (b.primeReply parent toAll template mint).1 = .ok e') :
    ∃ added, e'.recipients.entries = b.recipients.entries ++ added ∧
      (∀ r ∈ added, r.role = some .direct) ∧
      addresses added = (directAddresses fs toAll ++ copyAddresses fs toAll).filter
        fun a => a ∉ addresses (b.recipients.ofRole .direct) := by
  obtain ⟨skeleton, repliedTo, hskeleton, -, rfl⟩ := primeReply_ok h
  have hread : ofMessage s = .ok skeleton := by
    simpa only [skeletonOf, hmessage, hs] using hskeleton
  obtain ⟨hto, hcc⟩ := Skeleton.addresses_addressees fs toAll
  have hkeys := Skeleton.nodup_keys fs toAll
  rw [adoptReply_eq, recipients_skeleton hback hall hread]
  generalize hrs : (readAs .direct (addressees fs toAll).1 ++
    readAs .copy (addressees fs toAll).2).map (·.withRole (some .direct)) = rs
  have hrole : ∀ r ∈ rs, r.role = some .direct := hrs ▸ role_tagged
  have hsame : rs.map key =
      ((addressees fs toAll).1 ++ (addressees fs toAll).2).map key := by
    rw [← hrs, List.map_map, List.map_append, List.map_append,
      ← keys_readAs .direct (addressees fs toAll).1, ← keys_readAs .copy (addressees fs toAll).2]
    rfl
  have haddress : addresses rs = directAddresses fs toAll ++ copyAddresses fs toAll := by
    rw [← hto, ← hcc, ← hrs, addresses, addresses, addresses,
      ← address_readAs .direct (addressees fs toAll).1,
      ← address_readAs .copy (addressees fs toAll).2, List.map_map, List.map_append]
    rfl
  refine ⟨_, RecipientList.extend_distinct (distinct_of_keys (hsame ▸ hkeys)), ?_, ?_⟩
  · exact fun r hr => hrole r (List.mem_filter.1 hr).1
  -- All that is added is direct, so only the direct recipients can have it already.
  · have hnew : ∀ r ∈ rs, (!b.recipients.contains r) =
        decide (r.address ∉ addresses (b.recipients.ofRole .direct)) := by
      intro r hr
      rw [RecipientList.contains_direct (hrole r hr)]
      simp
    have hmap : addresses rs = rs.map (·.address) := rfl
    rw [List.filter_congr hnew, ← haddress, hmap, List.filter_map]
    rfl

/-- A reply loses nobody and repeats nobody. The skeleton goes to the first occurrences of those
whom the message names, and to everyone of them once; a letter that becomes the reply keeps its
recipients and adds those that are not among its direct ones. -/
theorem reply_addressees [Charsets] {m s : Message} {body : Octets}
    (hread : Field.readBlock m.octets = .ok (fs, body)) (hs : m.reply toAll = .ok s)
    (hall : ∀ name ∈ addressNames, ∀ r ∈ Recipient.ofFields fs name, r.Addressable) :
    (∃ e, ofMessage s = .ok e ∧
      addresses (e.recipients.ofRole .direct) = directAddresses fs toAll ∧
      addresses (e.recipients.ofRole .copy) = copyAddresses fs toAll) ∧
    (∀ a ∈ addresses (named fs toAll),
      (directAddresses fs toAll ++ copyAddresses fs toAll).countP (Text.sameName a) = 1) ∧
    ∀ parent mint, (parent.asMessage mint).1 = m → ∀ b : Email,
      ((∃ e', (b.primeReply parent toAll Quotation.standardTemplate mint).1 = .ok e') ↔
        ∃ e, parent.asEmail = .ok e) ∧
      ∀ template e', (b.primeReply parent toAll template mint).1 = .ok e' →
        ∃ added, e'.recipients.entries = b.recipients.entries ++ added ∧
          (∀ r ∈ added, r.role = some .direct) ∧
          addresses added = (directAddresses fs toAll ++ copyAddresses fs toAll).filter
            fun a => a ∉ addresses (b.recipients.ofRole .direct) := by
  obtain ⟨gs, rest, hblock, hback⟩ := Message.readBlock_reply hs
  rw [hread] at hblock
  cases hblock
  obtain ⟨e, he⟩ := Skeleton.ofMessage_skeleton fs toAll hback
  refine ⟨⟨e, he, ?_⟩, fun a ha => Skeleton.countP_addressees ha, ?_⟩
  · obtain ⟨hdirect, hcopy, -⟩ := @ofRole_roles (readAs .direct (addressees fs toAll).1)
      (readAs .copy (addressees fs toAll).2) role_tagged role_tagged
    obtain ⟨hto, hcc⟩ := Skeleton.addresses_addressees fs toAll
    rw [recipients_skeleton hback hall he, hdirect, hcopy, addresses, addresses, address_readAs,
      address_readAs]
    exact ⟨hto, hcc⟩
  · intro parent mint hmessage b
    refine ⟨⟨?_, ?_⟩, fun template e' h => recipients_primeReply hmessage hs hback hall h⟩
    · rintro ⟨e', h⟩
      obtain ⟨-, repliedTo, -, hparent, -⟩ := primeReply_ok h
      exact ⟨repliedTo, hparent⟩
    · rintro ⟨repliedTo, hparent⟩
      have hskeleton : skeletonOf (parent.asMessage mint).1 toAll = .ok e := by
        simp only [skeletonOf, hmessage, hs, he]
      exact ⟨_, primeReply_eq (by decide) hskeleton hparent⟩

/-- A letter from Alice to Bob and Carol, with copies to Alice under another spelling and to
Dave. -/
def circular : Email :=
  { empty with
    sender := some ⟨some "Alice".toList, "alice@x.com".toList, none⟩
    recipients := ⟨[
      ⟨some "Böb".toList, "bob@x.com".toList, some .direct⟩,
      ⟨none, "carol@x.com".toList, some .direct⟩,
      ⟨none, "ALICE@x.com".toList, some .copy⟩,
      ⟨some "Dave, \"D\"".toList, "dave@x.com".toList, some .copy⟩]⟩ }

theorem circular_sound [Charsets] : circular.Sound := by
  have halice : Recipient.Made ⟨some "Alice".toList, "alice@x.com".toList, none⟩ :=
    ⟨some "Alice".toList, "alice@x.com".toList, none, by decide⟩
  have hdirect := @made_all [⟨some "Böb".toList, "bob@x.com".toList, none⟩,
    ⟨none, "carol@x.com".toList, none⟩] (by decide)
  have hcopies := @made_all [⟨none, "ALICE@x.com".toList, none⟩,
    ⟨some "Dave, \"D\"".toList, "dave@x.com".toList, none⟩] (by decide)
  have hfirst := Reachable.empty.write (.setRecipient .sender _) halice rfl rfl
  have hsecond := hfirst.write (.addRecipients .direct _) hdirect rfl rfl
  exact (hsecond.write (.addRecipients .copy _) hcopies rfl rfl).sound

theorem ofFields_circular [Charsets] (mint : Mint) :
    Recipient.ofFields (circular.readBack mint) "Reply-To" = [] ∧
    Recipient.ofFields (circular.readBack mint) "From" = circular.sender.toList ∧
    Recipient.ofFields (circular.readBack mint) "To" =
      (circular.recipients.ofRole .direct).map Recipient.received ∧
    Recipient.ofFields (circular.readBack mint) "Cc" =
      (circular.recipients.ofRole .copy).map Recipient.received := by
  have hsender : Recipient.ofFields (circular.readBack mint) "From" = circular.sender.toList := by
    refine ofFields_one (circular_sound.find?_shown mint (by decide) (by simp [pairs])) ?_
    rintro r ⟨⟩
    refine ⟨circular_sound.sender _ rfl, by decide, by decide, by decide, ?_, ?_⟩
    · rintro n ⟨⟩
      decide
    · rintro n ⟨⟩
      decide
  have hrole : ∀ role, role ≠ .blind → circular.recipients.ofRole role ≠ [] →
      (∀ r ∈ circular.recipients.ofRole role, r.Contained) →
      Recipient.ofFields (circular.readBack mint) role.fieldName =
        (circular.recipients.ofRole role).map Recipient.received := by
    intro role hblind hne hcontained
    have hfind := circular_sound.find?_role mint hblind
    rw [if_neg hne] at hfind
    exact ofFields_contained hne hfind
      fun r hr => ⟨circular_sound.ofRole role r hr, hcontained r hr⟩
  have hpair : ("Reply-To".toList, none) ∈ circular.pairs mint := by simp [pairs, circular, empty]
  have hnobody : Field.find? (circular.readBack mint) "Reply-To" = none :=
    circular_sound.find?_shown mint (by decide) hpair
  refine ⟨?_, hsender, hrole .direct (by decide) (by decide) (by decide),
    hrole .copy (by decide) (by decide) (by decide)⟩
  rw [Recipient.ofFields, hnobody]
  rfl

theorem reply_addressees_circular : ∃ s e e',
    (circular.render ⟨0, fun _ => 0⟩).1.reply true = .ok s ∧ ofMessage s = .ok e ∧
    addresses (e.recipients.ofRole .direct) =
      ["alice@x.com".toList, "bob@x.com".toList, "carol@x.com".toList] ∧
    addresses (e.recipients.ofRole .copy) = ["dave@x.com".toList] ∧
    ((letterTo [⟨none, "bob@x.com".toList, none⟩]).primeReply (.email circular) true
      Quotation.standardTemplate ⟨0, fun _ => 0⟩).1 = .ok e' ∧
    addresses e'.recipients.entries = ["bob@x.com".toList, "alice@x.com".toList,
      "carol@x.com".toList, "dave@x.com".toList] := by
  obtain ⟨hnobody, hsender, hdirect, hcopy⟩ := ofFields_circular ⟨0, fun _ => 0⟩
  have hread := circular_sound.readBlock_octets ⟨0, fun _ => 0⟩
  have hall : ∀ name ∈ addressNames,
      ∀ r ∈ Recipient.ofFields (circular.readBack ⟨0, fun _ => 0⟩) name, r.Addressable := by
    simp only [addressNames, List.forall_mem_cons, hnobody, hsender, hdirect, hcopy]
    decide
  have hto : directAddresses (circular.readBack ⟨0, fun _ => 0⟩) true =
      ["alice@x.com".toList, "bob@x.com".toList, "carol@x.com".toList] := by
    simp only [directAddresses, Skeleton.answered, Skeleton.included, hnobody, hsender, hdirect]
    decide
  have hcc : copyAddresses (circular.readBack ⟨0, fun _ => 0⟩) true = ["dave@x.com".toList] := by
    simp only [copyAddresses, hto, Skeleton.included, hcopy]
    decide
  obtain ⟨s, hs⟩ : ∃ s, (circular.render ⟨0, fun _ => 0⟩).1.reply true = .ok s :=
    Message.reply_of_fields hread (circular_sound.readBack_ne_nil _) true
  obtain ⟨⟨e, he, hdirect', hcopy'⟩, -, hprime⟩ := reply_addressees hread hs hall
  obtain ⟨hsucceeds, hadds⟩ := hprime (.email circular) ⟨0, fun _ => 0⟩ rfl
    (letterTo [⟨none, "bob@x.com".toList, none⟩])
  obtain ⟨e', he'⟩ := hsucceeds.2 ⟨circular, rfl⟩
  obtain ⟨added, hentries, -, hadded⟩ := hadds _ e' he'
  refine ⟨s, e, e', hs, he, hdirect'.trans hto, hcopy'.trans hcc, he', ?_⟩
  have happend : addresses e'.recipients.entries = addresses (letterTo
      [⟨none, "bob@x.com".toList, none⟩]).recipients.entries ++ addresses added := by
    rw [hentries, addresses, List.map_append]
    rfl
  rw [happend, hadded, hto, hcc]
  decide

end Email
end Epistle
