/-
Tokens, and the changesets that are uploaded with them.

A token that `verify_access_token` accepts is one whose signature a
configured key verifies (`verifyAccessToken_verified`), in tenant mode a
key of the app the token itself names: the app is read off the unverified
text, but both readings give one token.

A changeset moves from the blocked list to the unit in progress and into
the history, and none of the operations of a server file makes one of its
own (`UploadFile.All`).
-/
import BarqSync.Server.Sessions
import BarqSync.Server.Proofs.Uploads

namespace BarqSync.Server

-- ===== tokens

section

variable {Key : Type} {format : TokenFormat Key} {key : Key}
  {token : AccessToken} {signedToken signatureBase64 : Bytes}

/-- The text of a token that is signed, and its signature. In the old
format the decoded payload is signed, in a JWT all before the second
dot. -/
def signedParts (format : TokenFormat Key) (signedToken : Bytes) :
    Option (Bytes × Bytes) :=
  match splitAtFirst colon signedToken with
  | some (tokenBase64, signatureBase64) =>
    (format.base64Decode tokenBase64).map (·, signatureBase64)
  | none =>
    if dot ∈ signedToken then
      (splitAtFirst dot signedToken).bind fun (header, rest) =>
        (splitAtFirst dot rest).map fun (payloadBase64, signatureBase64) =>
          (header ++ dot :: payloadBase64, signatureBase64)
    else (format.base64Decode signedToken).map (·, [])

/-- The key verifies a signature of a text. -/
def Signed (format : TokenFormat Key) (key : Key)
    (parts : Bytes × Bytes) : Prop :=
  ∃ signature, format.base64Decode parts.2 = some signature
    ∧ format.verify key parts.1 signature = true

/-- The token's own signature of its own text was verified under the
key. -/
def SignatureVerified (format : TokenFormat Key) (key : Key)
    (signedToken : Bytes) : Prop :=
  ∃ parts, signedParts format signedToken = some parts
    ∧ Signed format key parts

/-- The check succeeds on a signature of the text. -/
theorem checkSignature_some {signed : Bytes} {u : Unit}
    (h : checkSignature format (some key) signed signatureBase64 = .ok u) :
    Signed format key (signed, signatureBase64) := by
  simp only [checkSignature] at h
  split at h
  · cases h
  next signature hsignature =>
    split at h
    next hverify => exact ⟨signature, hsignature, hverify⟩
    · cases h

/-- A token of the old form is parsed with a key as without, once its
payload's signature was verified. -/
theorem parseOld_some {tokenBase64 : Bytes}
    (h : parseOld format (some key) tokenBase64 signatureBase64
      = .ok token) :
    (∃ payload, format.base64Decode tokenBase64 = some payload
        ∧ Signed format key (payload, signatureBase64))
      ∧ parseOld format none tokenBase64 signatureBase64 = .ok token := by
  unfold parseOld at h ⊢
  split at h
  · cases h
  next payload hpayload =>
    cases hcheck : checkSignature format (some key) payload
        signatureBase64 with
    | error e =>
      rw [hcheck] at h
      cases h
    | ok u =>
      rw [hcheck] at h
      exact ⟨⟨payload, hpayload, checkSignature_some hcheck⟩, h⟩

/-- A JWT likewise; what is signed is the header and the payload. -/
theorem parseJwt_some
    (h : parseJwt format (some key) signedToken = .ok token) :
    (∃ header rest payloadBase64 signatureBase64,
        splitAtFirst dot signedToken = some (header, rest)
          ∧ splitAtFirst dot rest = some (payloadBase64, signatureBase64)
          ∧ Signed format key
            (header ++ dot :: payloadBase64, signatureBase64))
      ∧ parseJwt format none signedToken = .ok token := by
  unfold parseJwt at h ⊢
  split at h
  · cases h
  next header rest hheader =>
  split at h
  · cases h
  next payloadBase64 signatureBase64 hpayload =>
    cases hcheck : checkSignature format (some key)
        (header ++ dot :: payloadBase64) signatureBase64 with
    | error e =>
      rw [hcheck] at h
      cases h
    | ok u =>
      rw [hcheck] at h
      exact ⟨⟨header, rest, payloadBase64, signatureBase64, hheader,
        hpayload, checkSignature_some hcheck⟩, h⟩

/-- A token that can be parsed under a key is signed with it, and is the
token that is read without a key. -/
theorem parseToken_some
    (h : parseToken format (some key) signedToken = .ok token) :
    SignatureVerified format key signedToken
      ∧ parseToken format none signedToken = .ok token := by
  unfold parseToken at h ⊢
  split at h
  next tokenBase64 signatureBase64 hsplit =>
    obtain ⟨⟨payload, hpayload, hsigned⟩, hnone⟩ := parseOld_some h
    refine ⟨⟨_, ?_, hsigned⟩, hnone⟩
    simp only [signedParts, hsplit, hpayload, Option.map_some]
  next hsplit =>
    by_cases hdot : dot ∈ signedToken
    · rw [if_pos hdot] at h ⊢
      obtain ⟨⟨_, _, _, _, hheader, hpayload, hsigned⟩, hnone⟩ :=
        parseJwt_some h
      refine ⟨⟨_, ?_, hsigned⟩, hnone⟩
      simp only [signedParts, hsplit, if_pos hdot, hheader, hpayload,
        Option.bind_some, Option.map_some]
    · rw [if_neg hdot] at h ⊢
      obtain ⟨⟨payload, hpayload, hsigned⟩, hnone⟩ := parseOld_some h
      refine ⟨⟨_, ?_, hsigned⟩, hnone⟩
      simp only [signedParts, hsplit, if_neg hdot, hpayload,
        Option.map_some]

/-- One of the keys has verified the token. -/
theorem parseWithKeys_ok {keys : List Key}
    (h : parseWithKeys format signedToken keys = .ok token) :
    ∃ key ∈ keys, parseToken format (some key) signedToken
      = .ok token := by
  induction keys with
  | nil => cases h
  | cons key rest ih =>
    simp only [parseWithKeys] at h
    split at h
    next token' htoken =>
      cases h
      exact ⟨key, List.mem_cons_self, htoken⟩
    next =>
      obtain ⟨key', hmem, hkey'⟩ := ih h
      exact ⟨key', List.mem_cons_of_mem key hmem, hkey'⟩

/-- The keys that count for a token. -/
def AccessControl.keysFor (control : AccessControl Key)
    (token : AccessToken) : List Key :=
  match control.tenantPublicKeys with
  | some keys => keys token.appId
  | none => control.publicKey.toList

/-- There is a key to verify tokens with. -/
def AccessControl.IsConfigured (control : AccessControl Key) : Prop :=
  control.publicKey.isSome ∨ control.tenantPublicKeys.isSome

/-- A token that is accepted was verified under a configured key, in
tenant mode a key of its own app. -/
theorem verifyAccessToken_verified {control : AccessControl Key}
    (hconf : control.IsConfigured)
    (h : control.verifyAccessToken format signedToken = .ok token) :
    ∃ key ∈ control.keysFor token, SignatureVerified format key signedToken
      ∧ parseToken format (some key) signedToken = .ok token := by
  unfold AccessControl.verifyAccessToken at h
  unfold AccessControl.keysFor
  cases htenant : control.tenantPublicKeys with
  | some keys =>
    rw [htenant] at h
    cases hunverified : parseToken format none signedToken with
    | error e =>
      simp [hunverified, Except.bind] at h
    | ok unverified =>
      simp only [hunverified, Except.bind] at h
      split at h
      · cases h
      split at h
      · cases h
      obtain ⟨key, hmem, hkey⟩ := parseWithKeys_ok h
      obtain ⟨hsigned, hnone⟩ := parseToken_some hkey
      -- both readings are of the same text
      have heq : unverified = token := by
        rw [hunverified] at hnone
        injection hnone
      rw [heq] at hmem
      exact ⟨key, hmem, hsigned, hkey⟩
  | none =>
    rw [htenant] at h
    unfold AccessControl.IsConfigured at hconf
    rw [htenant] at hconf
    cases hkey : control.publicKey with
    | none => simp [hkey] at hconf
    | some key =>
      rw [hkey] at h
      exact ⟨key, by simp, (parseToken_some h).1, h⟩

end

-- ===== maps

section

variable {α β : Type} [DecidableEq α] {P : β → Prop}
  {map : AList fun _ : α => β} {a : α} {b : β}

theorem forall_lookup_empty :
    ∀ k, ∀ v ∈ (∅ : AList fun _ : α => β).lookup k, P v := by
  intro k v hv
  rw [AList.lookup_empty] at hv
  cases hv

/-- A property of all values of a map, after an insertion. -/
theorem forall_lookup_insert (h : ∀ k, ∀ v ∈ map.lookup k, P v)
    (hb : P b) : ∀ k, ∀ v ∈ (map.insert a b).lookup k, P v := by
  intro k v hv
  by_cases hk : k = a
  · subst hk
    rw [AList.lookup_insert] at hv
    cases hv
    exact hb
  · rw [AList.lookup_insert_ne hk] at hv
    exact h k v hv

theorem forall_lookup_erase (h : ∀ k, ∀ v ∈ map.lookup k, P v) :
    ∀ k, ∀ v ∈ (map.erase a).lookup k, P v := by
  intro k v hv
  by_cases hk : k = a
  · subst hk
    rw [AList.lookup_erase] at hv
    cases hv
  · rw [AList.lookup_erase_ne hk] at hv
    exact h k v hv

end

-- ===== changesets of a file

section

variable {C : Type} {P : C → Prop} {f : UploadFile C}

/-- Every changeset of the lists has a property. -/
def ListsAll (P : C → Prop) (lists : IntegratableChangesets C) : Prop :=
  ∀ ident, ∀ list ∈ lists.lookup ident,
    ∀ uc ∈ list.changesets, P uc.changeset

/-- Every changeset that the file holds anywhere has a property. -/
structure UploadFile.All (P : C → Prop) (f : UploadFile C) : Prop where
  blocked : ListsAll P f.blocked
  work : ListsAll P f.work
  integrated : ∀ ident, ∀ uc ∈ (f.rows ident).integrated, P uc.changeset

theorem listsAll_empty : ListsAll P (∅ : IntegratableChangesets C) :=
  forall_lookup_empty

namespace UploadFile.All

theorem start : (UploadFile.start : UploadFile C).All P :=
  ⟨listsAll_empty, listsAll_empty, fun _ _ huc => nomatch huc⟩

section

variable (h : f.All P)

include h

theorem restart : f.restart.All P :=
  ⟨listsAll_empty, listsAll_empty, h.integrated⟩

theorem setSession (ident : Nat)
    (sess : Option UploadSession) : (f.setSession ident sess).All P :=
  ⟨h.blocked, h.work, h.integrated⟩

theorem abort : f.abort.All P :=
  ⟨h.blocked, h.work, h.integrated⟩

theorem unblockWork : f.unblockWork.All P :=
  ⟨listsAll_empty, h.blocked, h.integrated⟩

theorem onWorkAdded : f.onWorkAdded.All P := by
  unfold UploadFile.onWorkAdded
  split
  · exact h
  · split
    · exact ⟨h.blocked, h.work, h.integrated⟩
    · exact h.unblockWork

theorem requestFileIdent : f.requestFileIdent.All P :=
  onWorkAdded ⟨h.blocked, h.work, h.integrated⟩

theorem receiveIdent (ident : Nat) (isFlx pending : Bool)
    (version : Nat) : (f.receiveIdent ident isFlx pending version).All P := by
  unfold UploadFile.receiveIdent
  split
  · exact h.abort
  · exact h.setSession ident _

/-- Changesets that are added have the property. -/
theorem addChangesetsFromDownstream (ident : Nat)
    (goal : UploadCursor) (locked : Nat) {l : List (UploadChangeset C)}
    (hl : ∀ uc ∈ l, P uc.changeset) :
    (f.addChangesetsFromDownstream ident goal locked l).All P := by
  have hnew : ∀ uc ∈ ((f.blocked.lookup ident).getD {}).changesets ++ l,
      P uc.changeset := by
    refine List.forall_mem_append.2 ⟨fun uc huc => ?_, hl⟩
    cases hlookup : f.blocked.lookup ident with
    | none =>
      rw [hlookup] at huc
      cases huc
    | some list =>
      rw [hlookup] at huc
      exact h.blocked ident list hlookup uc huc
  have hall : ({ f with
      blocked := f.blocked.insert ident
        (((f.blocked.lookup ident).getD {}).add goal locked l) } :
      UploadFile C).All P :=
    ⟨forall_lookup_insert h.blocked hnew, h.work, h.integrated⟩
  unfold UploadFile.addChangesetsFromDownstream
  dsimp only
  split
  · exact h.abort
  · split
    · exact hall.onWorkAdded
    · exact hall

theorem receiveUpload (ident : Nat) (sess : UploadSession)
    {message : UploadMessage C}
    (hmessage : ∀ uc ∈ message.changesets, P uc.changeset) :
    (f.receiveUpload ident sess message).All P := by
  unfold UploadFile.receiveUpload
  split
  · exact h.setSession ident _
  next n _ =>
    dsimp only
    split
    · exact h.abort
    · split
      · exact h.setSession ident _
      · exact (h.setSession ident _).addChangesetsFromDownstream ident _ _
          fun uc huc => hmessage uc (List.mem_of_mem_drop huc)

/-- Integrated changesets come from the work. -/
theorem execute (exclude : Nat → Bool) (compensate : Bool) :
    (f.execute exclude compensate).All P := by
  unfold UploadFile.execute
  split
  · refine ⟨h.blocked, h.work, fun ident uc huc => ?_⟩
    dsimp only at huc
    cases hlist : f.work.lookup ident with
    | none =>
      rw [hlist] at huc
      exact h.integrated ident uc huc
    | some list =>
      rw [hlist, Option.elim_some] at huc
      split at huc
      · exact h.integrated ident uc huc
      · rcases List.mem_append.1 huc with huc | huc
        · exact h.integrated ident uc huc
        · exact h.work ident list hlist uc huc
  · exact h.abort

theorem finalize : f.finalize.All P := by
  have hblocked : ListsAll P
      (dropExcluded f.excluded f.blocked f.work.keys) := by
    intro ident list hlist
    rw [lookup_dropExcluded] at hlist
    split at hlist
    · cases hlist
    · exact h.blocked ident list hlist
  unfold UploadFile.finalize
  dsimp only
  split
  · exact unblockWork ⟨hblocked, h.work, h.integrated⟩
  · exact ⟨hblocked, h.work, h.integrated⟩

/-- An event of the file that is not an upload. -/
theorem step {event : UploadEvent C} {f' : UploadFile C}
    (hupload : ∀ ident message, event ≠ .upload ident message)
    (hstep : f.step event = some f') : f'.All P := by
  unfold UploadFile.step at hstep
  split at hstep
  · cases hstep
  cases event with
  | upload ident message => exact absurd rfl (hupload ident message)
  | ident ident isFlx pending version =>
    dsimp only at hstep
    split at hstep
    · cases hstep
      exact h.receiveIdent ident isFlx pending version
    · cases hstep
  | query ident =>
    obtain ⟨sess, -, rfl⟩ := Option.map_eq_some_iff.1 hstep
    exact h.setSession ident _
  | download ident fromCache version more =>
    obtain ⟨sess, -, hstep⟩ := Option.bind_eq_some_iff.1 hstep
    split at hstep
    · cases hstep
      exact h.setSession ident _
    · cases hstep
  | leave ident =>
    cases hstep
    exact h.setSession ident _
  | requestFileIdent =>
    cases hstep
    exact h.requestFileIdent
  | cancelFileIdent =>
    cases hstep
    exact ⟨h.blocked, h.work, h.integrated⟩
  | execute exclude compensate =>
    dsimp only at hstep
    split at hstep
    · cases hstep
      exact h.execute exclude compensate
    · cases hstep
  | finalize =>
    dsimp only at hstep
    split at hstep
    · cases hstep
      exact h.finalize
    · cases hstep
  | restart =>
    cases hstep
    exact h.restart

end

end UploadFile.All

end

end BarqSync.Server
