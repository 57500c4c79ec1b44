/-
The upload cursors of one client file. The server knows up to three: the
one in the history, the one of the list in the unit in progress and the
one of the blocked list. Each list takes the cursor before it to its own:
its changesets have increasing cursors between the two and leave out no
changeset of the client. The session, if there is one, has received
exactly up to the last of them (`Tracks`).
-/
import BarqSync.Server.Uploads
import Mathlib.Order.Basic

namespace BarqSync

-- ===== the cursors

/-- The order of the cursors of one client file. -/
def UploadCursor.Before (a b : UploadCursor) : Prop :=
  a = b ∨ a.clientVersion < b.clientVersion
    ∧ a.lastIntegratedServerVersion ≤ b.lastIntegratedServerVersion

namespace UploadCursor

variable {a b c : UploadCursor}

theorem Before.refl (a : UploadCursor) : a.Before a := Or.inl rfl

theorem Before.trans (hab : a.Before b) (hbc : b.Before c) :
    a.Before c := by
  rcases hab with rfl | ⟨hv, hs⟩
  · exact hbc
  · rcases hbc with rfl | ⟨hv', hs'⟩
    · exact Or.inr ⟨hv, hs⟩
    · exact Or.inr ⟨hv.trans hv', hs.trans hs'⟩

theorem Before.clientVersion_le (h : a.Before b) :
    a.clientVersion ≤ b.clientVersion := by
  rcases h with rfl | ⟨hv, -⟩
  · exact le_rfl
  · exact hv.le

theorem Before.lastIntegratedServerVersion_le (h : a.Before b) :
    a.lastIntegratedServerVersion ≤ b.lastIntegratedServerVersion := by
  rcases h with rfl | ⟨-, hs⟩
  · exact le_rfl
  · exact hs

/-- The order is what the consistency check tests. -/
theorem before_iff : a.Before b ↔ a.clientVersion ≤ b.clientVersion
      ∧ b.areMutuallyConsistent a = true := by
  obtain ⟨v, s⟩ := a
  obtain ⟨w, t⟩ := b
  simp only [Before, areMutuallyConsistent, UploadCursor.mk.injEq]
  split
  · simp only [decide_eq_true_eq]
    omega
  · split <;> simp only [decide_eq_true_eq] <;> omega

theorem areMutuallyConsistent_comm :
    a.areMutuallyConsistent b = b.areMutuallyConsistent a := by
  simp only [areMutuallyConsistent]
  split <;> split <;> first | rfl | omega | simp only [eq_comm]

/-- Of two cursors that come before a third and one of which is it, the
one with the greater client version is it. -/
theorem Before.eq_of_clientVersion_le (h : a.Before b)
    (hv : b.clientVersion ≤ a.clientVersion) : a = b := by
  rcases h with rfl | ⟨hv', -⟩
  · rfl
  · omega

end UploadCursor

end BarqSync

namespace BarqSync.Server

variable {C : Type} {history : Nat → Prop} {n : Nat}
  {l : List (UploadChangeset C)} {last threshold up goal : UploadCursor}
  {row : ClientFileRow C} {list : IntegratableChangesetList C}
  {sess : UploadSession} {blocked : Option (IntegratableChangesetList C)}

-- ===== spans of lists

/-- The cursors of the changesets increase from one cursor to another. -/
def Ordered : UploadCursor → List (UploadChangeset C) → UploadCursor
    → Prop
  | a, [], b => a.Before b
  | a, uc :: rest, b =>
    (a.clientVersion < uc.version
      ∧ a.lastIntegratedServerVersion
        ≤ uc.uploadCursor.lastIntegratedServerVersion)
    ∧ Ordered uc.uploadCursor rest b

namespace Ordered

variable {a b c : UploadCursor} {l l' : List (UploadChangeset C)}

section

variable (h : Ordered a l b)

include h

theorem before : a.Before b := by
  induction l generalizing a with
  | nil => exact h
  | cons uc rest ih => exact .trans (Or.inr h.1) (ih h.2)

/-- The changesets lie after the first cursor and not after the last. -/
theorem mem {uc : UploadChangeset C} (huc : uc ∈ l) :
    a.clientVersion < uc.version ∧ uc.version ≤ b.clientVersion := by
  induction l generalizing a with
  | nil => exact absurd huc List.not_mem_nil
  | cons uc' rest ih =>
    rcases List.mem_cons.1 huc with rfl | huc
    · exact ⟨h.1.1, (before h.2).clientVersion_le⟩
    · exact ⟨h.1.1.trans (ih h.2 huc).1, (ih h.2 huc).2⟩

theorem append (h' : Ordered b l' c) : Ordered a (l ++ l') c := by
  induction l generalizing a with
  | nil =>
    cases l' with
    | nil => exact UploadCursor.Before.trans h h'
    | cons uc rest =>
      exact ⟨⟨h.clientVersion_le.trans_lt h'.1.1,
        h.lastIntegratedServerVersion_le.trans h'.1.2⟩, h'.2⟩
  | cons uc rest ih => exact ⟨h.1, ih h.2⟩

/-- Each changeset comes once, in increasing client version. -/
theorem pairwise : (l.map UploadChangeset.version).Pairwise (· < ·) := by
  induction l generalizing a with
  | nil => exact List.Pairwise.nil
  | cons uc rest ih =>
    rw [List.map_cons, List.pairwise_cons]
    refine ⟨fun v hv => ?_, ih h.2⟩
    obtain ⟨uc', huc', rfl⟩ := List.mem_map.1 hv
    exact (mem h.2 huc').1

/-- The assertions on the cursors hold. -/
theorem cursorsIncrease : cursorsIncrease a l = true := by
  induction l generalizing a with
  | nil => rfl
  | cons uc rest ih =>
    have hbefore : a.Before uc.uploadCursor := Or.inr h.1
    simp only [Server.cursorsIncrease, Bool.and_eq_true, decide_eq_true_eq]
    exact ⟨⟨h.1.1, (UploadCursor.before_iff.1 hbefore).2⟩, ih h.2⟩

end

end Ordered

/-- The changesets are those of the client's history between two
cursors. -/
structure Span (history : Nat → Prop) (a : UploadCursor)
    (l : List (UploadChangeset C)) (b : UploadCursor) : Prop where
  ordered : Ordered a l b
  complete : ∀ v, history v → a.clientVersion < v → v ≤ b.clientVersion
    → v ∈ l.map UploadChangeset.version

namespace Span

variable {a b c : UploadCursor} {l l' : List (UploadChangeset C)}

theorem nil (a : UploadCursor) :
    Span history a ([] : List (UploadChangeset C)) a where
  ordered := .refl a
  complete := fun _ _ hlt hle => absurd hle (not_le.2 hlt)

theorem append (h : Span history a l b) (h' : Span history b l' c) :
    Span history a (l ++ l') c where
  ordered := h.ordered.append h'.ordered
  complete := by
    intro v hv hlt hle
    rw [List.map_append, List.mem_append]
    by_cases hb : v ≤ b.clientVersion
    · exact Or.inl (h.complete v hv hlt hb)
    · exact Or.inr (h'.complete v hv (not_le.1 hb) hle)

end Span

-- ===== one client file

/-- How far the history has come: the cursor and the locked version. -/
def ClientFileRow.position (row : ClientFileRow C) : UploadCursor × Nat :=
  (row.uploadProgress, row.lockedServerVersion)

/-- How far a list comes. -/
def IntegratableChangesetList.position
    (list : IntegratableChangesetList C) : UploadCursor × Nat :=
  (list.uploadProgress, list.lockedServerVersion)

/-- The position after a list, if there is one. -/
def reached (start : UploadCursor × Nat)
    (list : Option (IntegratableChangesetList C)) : UploadCursor × Nat :=
  (list.map IntegratableChangesetList.position).getD start

/-- A list takes a position to its own. -/
structure Extends (history : Nat → Prop) (start : UploadCursor × Nat)
    (list : IntegratableChangesetList C) : Prop where
  span : Span history start.1 list.changesets list.uploadProgress
  locked : start.2 ≤ list.lockedServerVersion

/-- A session has received exactly up to a position. -/
structure ReceivedTo (sess : UploadSession) (position : UploadCursor × Nat) :
    Prop where
  threshold : sess.uploadThreshold.Before position.1
  progress : sess.uploadProgress.Before position.1
  exact : position.1 = sess.uploadThreshold
    ∨ position.1 = sess.uploadProgress
  locked : sess.lockedServerVersion = position.2

/-- The history, the list of the unit in progress, the blocked list and
the session of one client file fit together. -/
structure Tracks (history : Nat → Prop) (row : ClientFileRow C)
    (pending blocked : Option (IntegratableChangesetList C))
    (sess : Option UploadSession) : Prop where
  committed : Span history ⟨0, 0⟩ row.integrated row.uploadProgress
  pending_extends : ∀ list ∈ pending, Extends history row.position list
  blocked_extends : ∀ list ∈ blocked,
    Extends history (reached row.position pending) list
  received : ∀ s ∈ sess,
    ReceivedTo s (reached (reached row.position pending) blocked)
  prepared : ∀ s ∈ sess, ∀ up ∈ s.incremental,
    up.clientVersion ≤ row.uploadProgress.clientVersion

theorem reached_before {start : UploadCursor × Nat}
    {list : Option (IntegratableChangesetList C)}
    (h : ∀ l ∈ list, Extends history start l) :
    start.1.Before (reached start list).1 := by
  cases list with
  | none => exact .refl _
  | some l => exact (h l rfl).span.ordered.before

/-- `bootstrap_client_session` reads the position off a list that
extends the one it has found. -/
theorem raiseTo_of_extends {start : UploadCursor × Nat}
    {list : Option (IntegratableChangesetList C)}
    (h : ∀ l ∈ list, Extends history start l) :
    raiseTo list start = some (reached start list) := by
  cases list with
  | none => rfl
  | some l =>
    have hbefore := (h l rfl).span.ordered.before.clientVersion_le
    have hlocked := (h l rfl).locked
    simp only [raiseTo]
    rw [if_neg (by omega)]
    rfl

namespace Tracks

variable {row : ClientFileRow C}
  {pending blocked : Option (IntegratableChangesetList C)}
  {sess : Option UploadSession}

section

variable (h : Tracks history row pending blocked sess)

include h

/-- The last position of the chain. -/
theorem row_before : row.uploadProgress.Before
      (reached (reached row.position pending) blocked).1 :=
  (reached_before h.pending_extends).trans
    (reached_before h.blocked_extends)

theorem leave : Tracks history row pending blocked none :=
  { h with
    received := fun _ hs => nomatch hs
    prepared := fun _ hs => nomatch hs }

/-- A session changes that has received as much as before. -/
theorem setSession {s : UploadSession}
    (hr : ReceivedTo s (reached (reached row.position pending) blocked))
    (hp : ∀ up ∈ s.incremental,
      up.clientVersion ≤ row.uploadProgress.clientVersion) :
    Tracks history row pending blocked (some s) where
  committed := h.committed
  pending_extends := h.pending_extends
  blocked_extends := h.blocked_extends
  received := by
    intro s' hs'
    cases hs'
    exact hr
  prepared := by
    intro s' hs'
    cases hs'
    exact hp

end

/-- The blocked list becomes the list of the unit in progress. -/
theorem unblock (h : Tracks history row none blocked sess) :
    Tracks history row blocked none sess where
  committed := h.committed
  pending_extends := h.blocked_extends
  blocked_extends := fun _ hl => nomatch hl
  received := h.received
  prepared := h.prepared

/-- Nothing waits and there is no session. -/
theorem of_committed
    (h : Span history ⟨0, 0⟩ row.integrated row.uploadProgress) :
    Tracks history row none none none where
  committed := h
  pending_extends := fun _ hl => nomatch hl
  blocked_extends := fun _ hl => nomatch hl
  received := fun _ hs => nomatch hs
  prepared := fun _ hs => nomatch hs

end Tracks

/-- What the history records after a list is what the list records. -/
theorem ClientFileRow.integrate_position
    (h : Extends history row.position list) :
    (row.integrate list).position = list.position := by
  have hbefore := h.span.ordered.before
  have hlocked := h.locked
  have hup : (row.integrate list).uploadProgress
      = list.uploadProgress := by
    unfold ClientFileRow.integrate
    by_cases hv : row.uploadProgress.clientVersion
        < list.uploadProgress.clientVersion
    · have hs := hbefore.lastIntegratedServerVersion_le
      rw [if_pos hv]
      simp only [position] at hs
      rw [max_eq_right hs]
    · rw [if_neg hv]
      exact hbefore.eq_of_clientVersion_le (not_lt.1 hv)
  rw [position, hup, IntegratableChangesetList.position]
  rw [show (row.integrate list).lockedServerVersion
    = list.lockedServerVersion from max_eq_right hlocked]

theorem Tracks.integrate {sess : Option UploadSession}
    (h : Tracks history row (some list) blocked sess) :
    Tracks history (row.integrate list) none blocked sess := by
  have hext := h.pending_extends list rfl
  have hpos := ClientFileRow.integrate_position hext
  have hup : (row.integrate list).uploadProgress
      = list.uploadProgress := congrArg Prod.fst hpos
  have hreached : @reached C (row.integrate list).position none
      = reached row.position (some list) := hpos
  constructor
  · rw [hup]
    exact h.committed.append hext.span
  · exact fun _ hl => nomatch hl
  · rw [hreached]
    exact h.blocked_extends
  · rw [hreached]
    exact h.received
  · intro s hs up hmem
    rw [hup]
    exact (h.prepared s hs up hmem).trans
      hext.span.ordered.before.clientVersion_le

/-- The assertions on a list that extends what the history has. -/
theorem integrateAsserts_of_extends
    (h : Extends history row.position list) :
    integrateAsserts row list = true := by
  obtain ⟨hle, hcons⟩ :=
    UploadCursor.before_iff.1 h.span.ordered.before
  have hinc := h.span.ordered.cursorsIncrease
  simp only [integrateAsserts, Bool.and_eq_true, decide_eq_true_eq]
  exact ⟨⟨hinc, hle⟩, hcons⟩

-- ===== an upload

/-- The checks on the first changeset of a message have passed. -/
theorem checkChangesets_cons {uc : UploadChangeset C}
    {rest : List (UploadChangeset C)}
    (h : checkChangesets threshold up (uc :: rest) = .ok (last, n)) :
    ∃ n', up.clientVersion < uc.version ∧ up.Before uc.uploadCursor
      ∧ uc.uploadCursor.areMutuallyConsistent threshold = true
      ∧ checkChangesets threshold uc.uploadCursor rest = .ok (last, n')
      ∧ n = if uc.version ≤ threshold.clientVersion then n' + 1
          else n' := by
  simp only [checkChangesets, Bool.not_eq_true'] at h
  split at h
  · cases h
  next hlt =>
  split at h
  · cases h
  split at h
  · cases h
  next hup =>
  split at h
  · cases h
  next hthreshold =>
  split at h
  · cases h
  next last' n' hrest =>
  cases h
  have hlt := not_le.1 hlt
  exact ⟨n', hlt,
    UploadCursor.before_iff.2 ⟨hlt.le, Bool.of_not_eq_false hup⟩,
    Bool.of_not_eq_false hthreshold, hrest, rfl⟩

section

variable (h : checkChangesets threshold up l = .ok (last, n))

include h

/-- No changeset after the threshold is counted as integrated. -/
theorem checkChangesets_count
    (hup : threshold.clientVersion ≤ up.clientVersion) : n = 0 := by
  induction l generalizing up n with
  | nil =>
    cases h
    rfl
  | cons uc rest ih =>
    obtain ⟨n', hlt, hbefore, -, hrest, rfl⟩ := checkChangesets_cons h
    rw [if_neg (not_le.2 (hup.trans_lt hlt))]
    exact ih hrest (hup.trans hbefore.clientVersion_le)

/-- The changesets of a message have increasing cursors. -/
theorem checkChangesets_ordered : Ordered up l last := by
  induction l generalizing up n with
  | nil =>
    cases h
    exact .refl _
  | cons uc rest ih =>
    obtain ⟨n', hlt, hbefore, -, hrest, -⟩ := checkChangesets_cons h
    exact ⟨⟨hlt, hbefore.lastIntegratedServerVersion_le⟩, ih hrest⟩

/-- What is left of a message when the changesets integrated in earlier
sessions are dropped leads from what has been received on. -/
theorem checkChangesets_drop {received : UploadCursor}
    (hreceived : received = threshold ∨ received = up)
    (hthreshold : threshold.Before received) (hup : up.Before received)
    (hgoal : threshold.Before goal) (hlast : last.Before goal) :
    Ordered received (l.drop n) goal
      ∧ ∀ v ∈ l.map UploadChangeset.version, threshold.clientVersion < v
        → v ∈ (l.drop n).map UploadChangeset.version := by
  induction l generalizing up received n with
  | nil =>
    cases h
    refine ⟨?_, fun v hv _ => hv⟩
    rcases hreceived with rfl | rfl
    · exact hgoal
    · exact hlast
  | cons uc rest ih =>
    have hall := checkChangesets_ordered h
    obtain ⟨n', hlt, hbefore, hcons, hrest, rfl⟩ :=
      checkChangesets_cons h
    by_cases hold : uc.version ≤ threshold.clientVersion
    · -- dropped; then what has been received is the threshold
      have hthr : received = threshold := by
        rcases hreceived with rfl | rfl
        · rfl
        · have := hthreshold.clientVersion_le
          omega
      subst hthr
      rw [if_pos hold, List.drop_succ_cons]
      have huc : uc.uploadCursor.Before received := by
        rw [UploadCursor.areMutuallyConsistent_comm] at hcons
        exact UploadCursor.before_iff.2 ⟨hold, hcons⟩
      obtain ⟨hord, hmem⟩ := ih hrest (Or.inl rfl) (.refl _) huc
      refine ⟨hord, fun v hv hv' => hmem v ?_ hv'⟩
      rcases List.mem_cons.1 hv with rfl | hv
      · omega
      · exact hv
    · have hn' := checkChangesets_count hrest (not_le.1 hold).le
      rw [if_neg hold, hn', List.drop_zero]
      refine ⟨?_, fun v hv _ => hv⟩
      have hfirst : received.clientVersion < uc.version
          ∧ received.lastIntegratedServerVersion
            ≤ uc.uploadCursor.lastIntegratedServerVersion := by
        rcases hreceived with rfl | rfl
        · exact ⟨not_le.1 hold, (UploadCursor.before_iff.2
            ⟨(not_le.1 hold).le, hcons⟩).lastIntegratedServerVersion_le⟩
        · exact ⟨hlt, hbefore.lastIntegratedServerVersion_le⟩
      have htail : Ordered uc.uploadCursor (rest ++ []) goal :=
        Ordered.append hall.2 hlast
      rw [List.append_nil] at htail
      exact ⟨hfirst, htail⟩

end

/-- What `receive_upload_message` has checked of a message it accepts. -/
theorem checkUpload_ok {message : UploadMessage C}
    (h : checkUpload sess message = .ok n) :
    sess.uploadProgress.Before message.progress
      ∧ message.progress.areMutuallyConsistent sess.uploadThreshold = true
      ∧ sess.lockedServerVersion ≤ message.lockedServerVersion
      ∧ ∃ last, last.Before message.progress
        ∧ checkChangesets sess.uploadThreshold sess.uploadProgress
          message.changesets = .ok (last, n) := by
  simp only [checkUpload, Bool.not_eq_true'] at h
  split at h
  · cases h
  next hv =>
  split at h
  · cases h
  split at h
  · cases h
  split at h
  · cases h
  next hthreshold =>
  split at h
  · cases h
  next hprogress =>
  split at h
  · cases h
  next hlocked =>
  have hbefore : sess.uploadProgress.Before message.progress :=
    UploadCursor.before_iff.2 ⟨not_lt.1 hv, Bool.of_not_eq_false hprogress⟩
  refine ⟨hbefore, Bool.of_not_eq_false hthreshold, not_lt.1 hlocked, ?_⟩
  split at h
  · cases h
  split at h
  next hnil =>
    cases h
    rw [hnil]
    exact ⟨_, hbefore, rfl⟩
  split at h
  · cases h
  next up n' hcheck =>
  split at h
  · cases h
  next hlast =>
  split at h
  · cases h
  next hcons =>
  cases h
  refine ⟨up, UploadCursor.before_iff.2 ⟨not_lt.1 hlast, ?_⟩, hcheck⟩
  rw [UploadCursor.areMutuallyConsistent_comm]
  exact Bool.of_not_eq_false hcons

/-- Where a message takes the client file: to its progress, or nowhere
beyond the threshold. -/
def uploadGoal (sess : UploadSession) (message : UploadMessage C) :
    UploadCursor :=
  if sess.uploadThreshold.clientVersion < message.progress.clientVersion
  then message.progress else sess.uploadThreshold

/-- A message leaves out no changeset of the client's history after what
the session and the server's history have. -/
def Covers (history : Nat → Prop) (sess : UploadSession)
    (row : ClientFileRow C) (message : UploadMessage C) : Prop :=
  ∀ v ≤ message.progress.clientVersion, history v
    → sess.uploadProgress.clientVersion < v
    → row.uploadProgress.clientVersion < v
    → v ∈ message.changesets.map UploadChangeset.version

section

variable {sess : UploadSession} {message : UploadMessage C} {n : Nat}
  {received : UploadCursor × Nat} {row : ClientFileRow C}

theorem uploadGoal_spec (h : checkUpload sess message = .ok n) :
    sess.uploadThreshold.Before (uploadGoal sess message)
      ∧ message.progress.Before (uploadGoal sess message)
      ∧ (uploadGoal sess message = sess.uploadThreshold
        ∨ uploadGoal sess message = message.progress) := by
  obtain ⟨-, hcons, -, -⟩ := checkUpload_ok h
  unfold uploadGoal
  by_cases hreal : sess.uploadThreshold.clientVersion
      < message.progress.clientVersion
  · rw [if_pos hreal]
    exact ⟨UploadCursor.before_iff.2 ⟨hreal.le, hcons⟩, .refl _,
      Or.inr rfl⟩
  · rw [if_neg hreal]
    rw [UploadCursor.areMutuallyConsistent_comm] at hcons
    exact ⟨.refl _, UploadCursor.before_iff.2 ⟨not_lt.1 hreal, hcons⟩,
      Or.inl rfl⟩

/-- The session after the message has received exactly up to there. -/
theorem ReceivedTo.upload (h : checkUpload sess message = .ok n)
    (locked : Nat) :
    ReceivedTo { sess with
        uploadProgress := message.progress
        lockedServerVersion := locked }
      (uploadGoal sess message, locked) := by
  obtain ⟨hthreshold, hprogress, hor⟩ := uploadGoal_spec h
  exact ⟨hthreshold, hprogress, hor, rfl⟩

/-- Without progress beyond the threshold, the threshold is what has been
received. -/
theorem ReceivedTo.eq_threshold (hsess : ReceivedTo sess received)
    (h : checkUpload sess message = .ok n)
    (hreal : ¬sess.uploadThreshold.clientVersion
      < message.progress.clientVersion) :
    received.1 = sess.uploadThreshold := by
  obtain ⟨hprogress, -, -, -⟩ := checkUpload_ok h
  rcases hsess.exact with heq | heq
  · exact heq
  · have hthreshold := hsess.threshold
    rw [heq] at hthreshold ⊢
    have := hprogress.clientVersion_le
    exact (hthreshold.eq_of_clientVersion_le (by omega)).symm

section

variable (h : checkUpload sess message = .ok n) (hsess : ReceivedTo sess
  received)

include h hsess

/-- The new changesets of a message lead from what has been received to
the goal of the message. -/
theorem upload_span (hrow : row.uploadProgress.Before received.1)
    (hcovers : Covers history sess row message) :
    Span history received.1 (message.changesets.drop n)
      (uploadGoal sess message) := by
  obtain ⟨hthreshold, hprogress, -⟩ := uploadGoal_spec h
  obtain ⟨-, -, -, last, hlast, hcheck⟩ := checkUpload_ok h
  obtain ⟨hord, hmem⟩ := checkChangesets_drop hcheck hsess.exact
    hsess.threshold hsess.progress hthreshold (hlast.trans hprogress)
  refine ⟨hord, fun v hv hlt hle => ?_⟩
  have h1 := hsess.threshold.clientVersion_le
  have h2 := hsess.progress.clientVersion_le
  have h3 := hrow.clientVersion_le
  -- up to the threshold there is nothing left to receive
  have hgoal : v ≤ message.progress.clientVersion := by
    unfold uploadGoal at hle
    split at hle <;> omega
  exact hmem v (hcovers v hgoal hv (by omega) (by omega)) (by omega)

/-- Without progress beyond the threshold no changeset is new. -/
theorem upload_drop_eq_nil (hreal : ¬sess.uploadThreshold.clientVersion
      < message.progress.clientVersion) :
    message.changesets.drop n = [] := by
  obtain ⟨hthreshold, hprogress, -⟩ := uploadGoal_spec h
  obtain ⟨-, -, -, last, hlast, hcheck⟩ := checkUpload_ok h
  obtain ⟨hord, -⟩ := checkChangesets_drop hcheck hsess.exact
    hsess.threshold hsess.progress hthreshold (hlast.trans hprogress)
  rw [uploadGoal, if_neg hreal, hsess.eq_threshold h hreal] at hord
  refine List.eq_nil_iff_forall_not_mem.2 fun uc huc => ?_
  obtain ⟨hlt, hle⟩ := hord.mem huc
  omega

end

end

/-- A list that is added to takes the chain on to the new position, and
the assertions of `add_changesets_from_downstream` hold. -/
theorem Extends.add {start : UploadCursor × Nat} {locked : Nat}
    (hblocked : ∀ list ∈ blocked, Extends history start list)
    (hzero : (⟨0, 0⟩ : UploadCursor).Before start.1)
    (hspan : Span history (reached start blocked).1 l goal)
    (hlocked : (reached start blocked).2 ≤ locked) :
    (blocked.getD {}).uploadProgress.Before goal
      ∧ (blocked.getD {}).lockedServerVersion ≤ locked
      ∧ ((blocked.getD {}).add goal locked l).position = (goal, locked)
      ∧ Extends history start ((blocked.getD {}).add goal locked l) := by
  have hprogress : (blocked.getD {}).uploadProgress.Before goal := by
    cases blocked with
    | none => exact hzero.trans hspan.ordered.before
    | some list => exact hspan.ordered.before
  have hlocked' : (blocked.getD {}).lockedServerVersion ≤ locked := by
    cases blocked with
    | none => exact Nat.zero_le _
    | some list => exact hlocked
  have hposition :
      ((blocked.getD {}).add goal locked l).position = (goal, locked) := by
    have hgoal : ((blocked.getD {}).add goal locked l).uploadProgress
        = goal := by
      unfold IntegratableChangesetList.add
      split
      · rfl
      next hv => exact hprogress.eq_of_clientVersion_le (not_lt.1 hv)
    rw [IntegratableChangesetList.position, hgoal, Prod.mk.injEq]
    refine ⟨rfl, ?_⟩
    simp only [IntegratableChangesetList.add]
    split <;> omega
  refine ⟨hprogress, hlocked', hposition, ?_⟩
  have hup : ((blocked.getD {}).add goal locked l).uploadProgress = goal :=
    congrArg Prod.fst hposition
  have hlk : ((blocked.getD {}).add goal locked l).lockedServerVersion
      = locked := congrArg Prod.snd hposition
  cases blocked with
  | none =>
    refine ⟨?_, hlocked.trans_eq hlk.symm⟩
    rw [hup]
    exact hspan
  | some list =>
    obtain ⟨hfirst, hstart⟩ := hblocked list rfl
    refine ⟨?_, (hstart.trans hlocked).trans_eq hlk.symm⟩
    rw [hup]
    exact hfirst.append hspan

/-- Exactly the lists of the excluded client files are dropped. -/
theorem lookup_dropExcluded (excluded : Nat → Bool)
    (blocked : IntegratableChangesets C) (idents : List Nat)
    (ident : Nat) :
    (dropExcluded excluded blocked idents).lookup ident
      = if ident ∈ idents ∧ excluded ident then none
        else blocked.lookup ident := by
  induction idents generalizing blocked with
  | nil => simp [dropExcluded]
  | cons first rest ih =>
    rw [dropExcluded, List.foldl_cons, ← dropExcluded, ih]
    by_cases hident : ident = first
    · subst hident
      by_cases hexcluded : excluded ident <;> simp [hexcluded]
    · have hkeep : (if excluded first then blocked.erase first
          else blocked).lookup ident = blocked.lookup ident := by
        split
        · exact AList.lookup_erase_ne hident
        · rfl
      rw [hkeep]
      simp [hident]

end BarqSync.Server
