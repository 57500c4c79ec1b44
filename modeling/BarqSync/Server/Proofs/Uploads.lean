/-
What the history of a server file holds of each client file's uploads,
over every run of sessions, uploads and units of work: every operation
keeps `Tracks` for every client file (`UploadFile.Sound`).

# The list that is left over

The exception is an IDENT message that comes after a unit was finished
that had excluded the client file, and before the next unit resets
`m_work`: the list that was not integrated is then taken for one that
was. `leftOver` names that state.
-/
import BarqSync.Sys.Runs
import BarqSync.Server.Proofs.ClientFile

namespace BarqSync.Server

open IntegratableChangesetList UploadFile

variable {C : Type} {f : UploadFile C} {sess : UploadSession}
  {row : ClientFileRow C}

-- ===== the file

/-- The list of a client file that the unit in progress holds and the
history does not. -/
def UploadFile.pending (f : UploadFile C) (ident : Nat) :
    Option (IntegratableChangesetList C) :=
  if f.workInProgress && (!f.executed || f.excluded ident)
  then f.work.lookup ident else none

/-- The list of a client file that `m_work` holds and the history has
integrated. -/
def UploadFile.done (f : UploadFile C) (ident : Nat) :
    Option (IntegratableChangesetList C) :=
  if (!f.workInProgress || f.executed) && !f.excluded ident
  then f.work.lookup ident else none

/-- The list of a client file is left over in `m_work` from a finished
unit that had excluded it. -/
def UploadFile.leftOver (f : UploadFile C) (ident : Nat) : Bool :=
  !f.workInProgress && f.excluded ident

/-- Nothing of any client file is out of place. -/
structure UploadFile.Sound (history : Nat → Nat → Prop)
    (f : UploadFile C) : Prop where
  alive : f.aborted = false
  tracks : ∀ ident, Tracks (history ident) (f.rows ident)
    (f.pending ident) (f.blocked.lookup ident) (f.sessions ident)
  done : ∀ ident, ∀ list ∈ f.done ident,
    list.position = (f.rows ident).position
  inProgress : f.executed = true → f.workInProgress = true

namespace UploadFile.Sound

variable {history : Nat → Nat → Prop} {f : UploadFile C} {ident : Nat}
  {sess : UploadSession}

theorem start : (UploadFile.start : UploadFile C).Sound history where
  alive := rfl
  tracks := fun _ => .of_committed (.nil _)
  done := fun _ _ hl => nomatch hl
  inProgress := fun h => nomatch h

section

variable (h : f.Sound history)

include h

theorem restart : f.restart.Sound history where
  alive := rfl
  tracks := fun ident => .of_committed (h.tracks ident).committed
  done := fun _ _ hl => nomatch hl
  inProgress := fun h => nomatch h

/-- The session of one client file changes. -/
theorem setSession {sess : Option UploadSession}
    (htracks : Tracks (history ident) (f.rows ident) (f.pending ident)
      (f.blocked.lookup ident) sess) :
    (f.setSession ident sess).Sound history where
  alive := h.alive
  tracks := by
    intro ident'
    show Tracks _ _ _ _ (Function.update f.sessions ident sess ident')
    by_cases hident : ident' = ident
    · subst hident
      rw [Function.update_self]
      exact htracks
    · rw [Function.update_of_ne hident]
      exact h.tracks ident'
  done := h.done
  inProgress := h.inProgress

/-- A session that may change has received as much as before. -/
theorem keepSession {sess' : UploadSession}
    (hsess : f.sessions ident = some sess)
    (hprogress : sess'.uploadProgress = sess.uploadProgress)
    (hthreshold : sess'.uploadThreshold = sess.uploadThreshold)
    (hlocked : sess'.lockedServerVersion = sess.lockedServerVersion)
    (hincremental : ∀ up ∈ sess'.incremental, up.clientVersion
      ≤ (f.rows ident).uploadProgress.clientVersion) :
    (f.setSession ident (some sess')).Sound history := by
  obtain ⟨h1, h2, h3, h4⟩ := (h.tracks ident).received sess hsess
  refine h.setSession ((h.tracks ident).setSession ?_ hincremental)
  constructor
  · rw [hthreshold]
    exact h1
  · rw [hprogress]
    exact h2
  · rw [hthreshold, hprogress]
    exact h3
  · rw [hlocked]
    exact h4

/-- The next unit begins. -/
theorem unblockWork (hidle : f.workInProgress = false) :
    f.unblockWork.Sound history := by
  have hpending : ∀ ident, f.unblockWork.pending ident
      = f.blocked.lookup ident := by
    intro ident
    unfold UploadFile.pending UploadFile.unblockWork
    split
    · rfl
    next hempty =>
      -- without a list there is nothing to look up
      have hnil : f.blocked.entries = [] := by
        by_contra hne
        simp [hne] at hempty
      rw [AList.lookup, hnil]
      rfl
  refine ⟨h.alive, fun ident => ?_, fun ident list hlist => ?_,
    fun hex => nomatch hex⟩
  · have hnone : f.pending ident = none := by
      rw [pending, hidle]
      rfl
    have htracks := h.tracks ident
    rw [hnone] at htracks
    rw [hpending]
    exact htracks.unblock
  · have hdone : f.unblockWork.done ident = none := by
      have hlookup := hpending ident
      unfold pending at hlookup
      unfold UploadFile.done
      split at hlookup
      next hwork =>
        obtain ⟨hbusy, -⟩ := Bool.and_eq_true_iff.1 hwork
        rw [if_neg]
        rw [hbusy]
        exact Bool.false_ne_true
      next =>
        have : f.unblockWork.work.lookup ident = none := hlookup.symm
        rw [this, ite_self]
    rw [hdone] at hlist
    cases hlist

theorem onWorkAdded : f.onWorkAdded.Sound history := by
  unfold UploadFile.onWorkAdded
  split
  · exact h
  · split
    · exact ⟨h.alive, h.tracks, h.done, h.inProgress⟩
    next hidle => exact h.unblockWork (by simpa using hidle)

theorem requestFileIdent : f.requestFileIdent.Sound history := by
  refine onWorkAdded ?_
  exact ⟨h.alive, h.tracks, h.done, h.inProgress⟩

/-- The blocked list of one client file grows, and its session with it. -/
theorem addChangesetsFromDownstream {locked : Nat}
    (hspan : Span (history ident)
      (reached (reached (f.rows ident).position (f.pending ident))
        (f.blocked.lookup ident)).1 l goal)
    (hlocked : (reached (reached (f.rows ident).position
      (f.pending ident)) (f.blocked.lookup ident)).2 ≤ locked)
    (hsess : ReceivedTo sess (goal, locked))
    (hincremental : ∀ up ∈ sess.incremental, up.clientVersion
      ≤ (f.rows ident).uploadProgress.clientVersion) :
    ((f.setSession ident (some sess)).addChangesetsFromDownstream ident
      goal locked l).Sound history := by
  have htracks := h.tracks ident
  obtain ⟨hprogress, hlocked', hposition, hextends⟩ :=
    Extends.add htracks.blocked_extends
      (htracks.committed.ordered.before.trans
        (reached_before htracks.pending_extends)) hspan hlocked
  obtain ⟨hle, hcons⟩ := UploadCursor.before_iff.1 hprogress
  -- what the file is once the list is in place
  have hsound : ({ f.setSession ident (some sess) with
      blocked := f.blocked.insert ident
        (((f.blocked.lookup ident).getD {}).add goal locked l) } :
      UploadFile C).Sound history := by
    refine ⟨h.alive, fun ident' => ?_, h.done, h.inProgress⟩
    show Tracks _ _ (f.pending ident') ((f.blocked.insert ident
      (((f.blocked.lookup ident).getD {}).add goal locked l)).lookup
        ident') (Function.update f.sessions ident (some sess) ident')
    by_cases hident : ident' = ident
    · subst hident
      rw [AList.lookup_insert, Function.update_self]
      constructor
      · exact htracks.committed
      · exact htracks.pending_extends
      · intro list hlist
        cases hlist
        exact hextends
      · intro s hs
        cases hs
        rw [reached, Option.map_some, Option.getD_some, hposition]
        exact hsess
      · intro s hs
        cases hs
        exact hincremental
    · rw [AList.lookup_insert_ne hident, Function.update_of_ne hident]
      exact h.tracks ident'
  have hasserts : ¬(goal.clientVersion
        < ((f.blocked.lookup ident).getD {}).uploadProgress.clientVersion
      ∨ goal.areMutuallyConsistent
        ((f.blocked.lookup ident).getD {}).uploadProgress = false
      ∨ locked < ((f.blocked.lookup ident).getD {}).lockedServerVersion) := by
    rintro (hlt | hbad | hlt)
    · omega
    · exact Bool.false_ne_true (hbad.symm.trans hcons)
    · omega
  unfold UploadFile.addChangesetsFromDownstream
  refine (congrArg (Sound history) (if_neg hasserts)).mpr ?_
  split
  · exact hsound.onWorkAdded
  · exact hsound

/-- An UPLOAD message of a client that leaves nothing out. -/
theorem receiveUpload
    (hsess : f.sessions ident = some sess) {message : UploadMessage C}
    (hcovers : Covers (history ident) sess (f.rows ident) message) :
    (f.receiveUpload ident sess message).Sound history := by
  have htracks := h.tracks ident
  have hreceived := htracks.received sess hsess
  have hprepared := htracks.prepared sess hsess
  unfold UploadFile.receiveUpload
  split
  next => exact h.setSession htracks.leave
  next n hcheck =>
  have hspan := upload_span hcheck hreceived htracks.row_before hcovers
  obtain ⟨-, -, hlocked, -⟩ := checkUpload_ok hcheck
  have hafter := ReceivedTo.upload hcheck message.lockedServerVersion
  rw [hreceived.locked] at hlocked
  by_cases hreal : sess.uploadThreshold.clientVersion
      < message.progress.clientVersion
  · -- the message brings progress
    rw [uploadGoal, if_pos hreal] at hspan hafter
    simp only [hreal, decide_true, Bool.not_true, Bool.false_and,
      Bool.false_eq_true, if_false, if_true]
    exact h.addChangesetsFromDownstream hspan hlocked hafter hprepared
  · have hnil := upload_drop_eq_nil hcheck hreceived hreal
    rw [uploadGoal, if_neg hreal] at hspan hafter
    simp only [hreal, hnil, decide_false, Bool.not_false, Bool.true_and,
      List.isEmpty_nil, Bool.not_true, Bool.false_eq_true, if_false]
    rw [hnil] at hspan
    split
    next =>
      -- nothing to do: only the progress of the session moves
      have hthreshold := hreceived.eq_threshold hcheck hreal
      obtain ⟨-, hgoal, -⟩ := uploadGoal_spec hcheck
      rw [uploadGoal, if_neg hreal, ← hthreshold] at hgoal
      refine h.setSession (htracks.setSession ?_ hprepared)
      exact ⟨hreceived.threshold, hgoal, Or.inl hthreshold,
        hreceived.locked⟩
    next =>
      exact h.addChangesetsFromDownstream hspan hlocked hafter hprepared

/-- An IDENT message, unless a list is left over. -/
theorem receiveIdent
    (hleft : f.leftOver ident = false) (isFlx bootstrapPending : Bool)
    (version : Nat) :
    (f.receiveIdent ident isFlx bootstrapPending version).Sound
      history := by
  have htracks := h.tracks ident
  -- the list in `m_work` is pending or done
  have hwork : raiseTo (f.work.lookup ident) (f.rows ident).position
      = some (reached (f.rows ident).position (f.pending ident)) := by
    rw [← raiseTo_of_extends htracks.pending_extends]
    by_cases hpending : f.workInProgress
        && (!f.executed || f.excluded ident)
    · rw [pending, if_pos hpending]
    · have hdone : f.done ident = f.work.lookup ident := by
        rw [UploadFile.done, if_pos]
        revert hpending hleft
        unfold leftOver
        cases f.workInProgress <;> cases f.executed
          <;> cases f.excluded ident <;> decide
      rw [pending, if_neg hpending]
      cases hlookup : f.work.lookup ident with
      | none => rfl
      | some list =>
        have hlist := h.done ident list (hdone.trans hlookup)
        simp only [raiseTo]
        rw [← hlist]
        rw [if_neg]
        · rfl
        · simp [position]
  have hboth : f.bootstrapClientSession ident
      = some (reached (reached (f.rows ident).position
        (f.pending ident)) (f.blocked.lookup ident)) := by
    rw [bootstrapClientSession]
    show (raiseTo _ (f.rows ident).position).bind _ = _
    rw [hwork, Option.bind_some]
    exact raiseTo_of_extends htracks.blocked_extends
  rw [UploadFile.receiveIdent, hboth]
  refine h.setSession (htracks.setSession ⟨.refl _, ?_, Or.inl rfl, rfl⟩
    fun _ hup => by cases hup)
  exact htracks.committed.ordered.before.trans htracks.row_before

theorem execute (hbusy : f.workInProgress = true)
    (hnew : f.executed = false) (exclude : Nat → Bool)
    (compensate : Bool) :
    (f.execute exclude compensate).Sound history := by
  have hpending : ∀ ident, f.pending ident = f.work.lookup ident := by
    intro ident
    rw [UploadFile.pending, hbusy, hnew]
    rfl
  have hasserts : (f.work.entries.all fun entry =>
      integrateAsserts (f.rows entry.1) entry.2) = true := by
    rw [List.all_eq_true]
    intro entry hentry
    have hlookup : f.work.lookup entry.1 = some entry.2 :=
      AList.mem_lookup_iff.2 hentry
    rw [← hpending] at hlookup
    exact integrateAsserts_of_extends
      ((h.tracks entry.1).pending_extends _ hlookup)
  rw [UploadFile.execute, if_pos hasserts]
  refine ⟨h.alive, fun ident => ?_, fun ident list hlist => ?_,
    fun _ => hbusy⟩
  · have htracks := h.tracks ident
    rw [hpending] at htracks
    unfold UploadFile.pending
    simp only [hbusy, Bool.not_true, Bool.false_or, Bool.true_and]
    cases hlookup : f.work.lookup ident with
    | none =>
      rw [hlookup] at htracks
      simp only [ite_self]
      exact htracks
    | some list =>
      rw [hlookup] at htracks
      cases hexclude : exclude ident with
      | true => exact htracks
      | false => exact htracks.integrate
  · have htracks := h.tracks ident
    rw [hpending] at htracks
    unfold UploadFile.done at hlist
    simp only [hbusy, Bool.not_true, Bool.false_or, Bool.true_and] at hlist
    cases hlookup : f.work.lookup ident with
    | none =>
      rw [hlookup] at hlist
      simp at hlist
    | some list' =>
      rw [hlookup] at hlist htracks
      cases hexclude : exclude ident with
      | true =>
        rw [hexclude] at hlist
        simp at hlist
      | false =>
        rw [hexclude] at hlist
        cases hlist
        simp only [hlookup, hexclude, Bool.false_eq_true, if_false]
        exact (ClientFileRow.integrate_position
          (htracks.pending_extends _ rfl)).symm

theorem finalize (hexecuted : f.executed = true) :
    f.finalize.Sound history := by
  have hbusy := h.inProgress hexecuted
  have hsound : ({ f with
      sessions := fun ident =>
        if f.excluded ident then none else f.sessions ident
      blocked := dropExcluded f.excluded f.blocked f.work.keys
      workInProgress := false
      executed := false } : UploadFile C).Sound history := by
    refine ⟨h.alive, fun ident => ?_, fun ident list hlist => ?_,
      fun hex => nomatch hex⟩
    · show Tracks (history ident) (f.rows ident) none
        ((dropExcluded f.excluded f.blocked f.work.keys).lookup ident)
        (if f.excluded ident then none else f.sessions ident)
      have htracks := h.tracks ident
      unfold pending at htracks
      rw [hbusy, hexecuted] at htracks
      rw [lookup_dropExcluded]
      by_cases hexcluded : f.excluded ident
      · rw [if_pos hexcluded]
        by_cases hkey : ident ∈ f.work.keys
        · rw [if_pos ⟨hkey, hexcluded⟩]
          exact .of_committed htracks.committed
        · rw [if_neg (fun hand => hkey hand.1)]
          have hnone : f.work.lookup ident = none :=
            AList.lookup_eq_none.2 hkey
          rw [hnone, ite_self] at htracks
          exact htracks.leave
      · rw [if_neg hexcluded, if_neg (fun hand => hexcluded hand.2)]
        rw [if_neg (by simpa using hexcluded)] at htracks
        exact htracks
    · refine h.done ident list ?_
      unfold UploadFile.done at hlist ⊢
      rw [hbusy, hexecuted]
      exact hlist
  unfold UploadFile.finalize
  show Sound history (if f.hasBlockedWork then _ else _)
  split
  · exact hsound.unblockWork rfl
  · exact hsound

theorem download
    (hsess : f.sessions ident = some sess) (version : Nat) (more : Bool) :
    (f.setSession ident
      (some (sess.download (f.rows ident) version more))).Sound
      history := by
  have hprepared := (h.tracks ident).prepared sess hsess
  refine h.keepSession hsess rfl rfl rfl fun up hup => ?_
  simp only [UploadSession.download] at hup
  split at hup
  · cases hup
  split at hup
  · exact hprepared up hup
  · cases hinc : sess.incremental with
    | none =>
      rw [hinc] at hup
      cases hup
      exact le_rfl
    | some up' =>
      rw [hinc] at hup
      cases hup
      exact hprepared up' hinc

end

end UploadFile.Sound

-- ===== runs

/-- No client file identifies itself while a list of it is left over. -/
def NoLeftOver (f : UploadFile C) : UploadEvent C → Prop
  | .ident ident _ _ _ => f.leftOver ident = false
  | _ => True

/-- No client leaves a changeset of its history out of its UPLOAD
messages. -/
def CoversHistory (history : Nat → Nat → Prop) (f : UploadFile C) :
    UploadEvent C → Prop
  | .upload ident message => ∀ sess ∈ f.sessions ident,
      Covers (history ident) sess (f.rows ident) message
  | _ => True

theorem UploadFile.Sound.step {history : Nat → Nat → Prop}
    {f' : UploadFile C} {event : UploadEvent C} (h : f.Sound history)
    (hleft : NoLeftOver f event)
    (hcovers : CoversHistory history f event)
    (hstep : f.step event = some f') : f'.Sound history := by
  unfold UploadFile.step at hstep
  rw [if_neg (by simp [h.alive])] at hstep
  cases event with
  | ident ident isFlx bootstrapPending version =>
    simp only at hstep
    split at hstep
    · cases hstep
      exact h.receiveIdent hleft isFlx bootstrapPending version
    · cases hstep
  | upload ident message =>
    obtain ⟨sess, hsess, rfl⟩ := Option.map_eq_some_iff.1 hstep
    exact h.receiveUpload hsess (hcovers sess hsess)
  | query ident =>
    obtain ⟨sess, hsess, rfl⟩ := Option.map_eq_some_iff.1 hstep
    exact h.keepSession hsess rfl rfl rfl fun _ hup => nomatch hup
  | download ident fromCache version more =>
    obtain ⟨sess, hsess, hstep⟩ := Option.bind_eq_some_iff.1 hstep
    split at hstep
    · cases hstep
      exact h.download hsess version more
    · cases hstep
  | leave ident =>
    cases hstep
    exact h.setSession (h.tracks ident).leave
  | requestFileIdent =>
    cases hstep
    exact h.requestFileIdent
  | cancelFileIdent =>
    cases hstep
    exact ⟨h.alive, h.tracks, h.done, h.inProgress⟩
  | execute exclude compensate =>
    simp only at hstep
    split at hstep
    next hnew =>
      cases hstep
      rw [Bool.and_eq_true, Bool.not_eq_true'] at hnew
      exact h.execute hnew.1 hnew.2 exclude compensate
    · cases hstep
  | finalize =>
    simp only at hstep
    split at hstep
    next hexecuted =>
      cases hstep
      exact h.finalize hexecuted
    · cases hstep
  | restart =>
    cases hstep
    exact h.restart

/-- In every run in which no client leaves anything out and none
identifies itself while a list of it is left over, the history holds the
changesets of each client once and in order, with none missing up to the
progress it records, and no assertion fails. Client versions begin at
one. -/
theorem uploads_integrated_once {history : Nat → Nat → Prop}
    {f : UploadFile C}
    (hrun : Sys.Run UploadFile.step
      (fun f event => CoversHistory history f event ∧ NoLeftOver f event)
      UploadFile.start f) :
    f.aborted = false ∧ ∀ ident,
      ((f.rows ident).integrated.map UploadChangeset.version).Pairwise
        (· < ·)
      ∧ ∀ v, history ident v → 0 < v
        → (v ≤ (f.rows ident).uploadProgress.clientVersion
          ∨ ∃ uc ∈ (f.rows ident).integrated, v ≤ uc.version)
        → v ∈ (f.rows ident).integrated.map UploadChangeset.version := by
  have hsound : f.Sound history :=
    hrun.invariant .start fun _ _ _ h hok hstep =>
      h.step hok.2 hok.1 hstep
  refine ⟨hsound.alive, fun ident => ?_⟩
  obtain ⟨hordered, hcomplete⟩ := (hsound.tracks ident).committed
  refine ⟨hordered.pairwise, fun v hv hpos hle => ?_⟩
  have hprogress : v ≤ (f.rows ident).uploadProgress.clientVersion := by
    rcases hle with hle | ⟨uc, huc, hle⟩
    · exact hle
    · exact hle.trans (hordered.mem huc).2
  exact hcomplete v hv hpos hprogress

instance NoLeftOver.decidable (f : UploadFile C) :
    (event : UploadEvent C) → Decidable (NoLeftOver f event)
  | .ident ident _ _ _ =>
    inferInstanceAs (Decidable (f.leftOver ident = false))
  | .upload .. | .query .. | .download .. | .leave .. | .requestFileIdent
  | .cancelFileIdent | .execute .. | .finalize | .restart =>
    .isTrue trivial

instance Covers.decidable (history : Nat → Prop) [DecidablePred history]
    (sess : UploadSession) (row : ClientFileRow C)
    (message : UploadMessage C) :
    Decidable (Covers history sess row message) :=
  Nat.decidableBallLE message.progress.clientVersion fun v _ =>
    history v → sess.uploadProgress.clientVersion < v
      → row.uploadProgress.clientVersion < v
      → v ∈ message.changesets.map UploadChangeset.version

instance CoversHistory.decidable (history : Nat → Nat → Prop)
    [∀ ident, DecidablePred (history ident)] (f : UploadFile C) :
    (event : UploadEvent C) → Decidable (CoversHistory history f event)
  | .upload ident message =>
    inferInstanceAs (Decidable (∀ sess ∈ f.sessions ident,
      Covers (history ident) sess (f.rows ident) message))
  | .ident .. | .query .. | .download .. | .leave .. | .requestFileIdent
  | .cancelFileIdent | .execute .. | .finalize | .restart =>
    .isTrue trivial

/-- A changeset with the given client version, and no contents. -/
def emptyUpload (version : Nat) : UploadChangeset Unit :=
  ⟨⟨version, 0⟩, ()⟩

/-- The client file uploads, and the unit excludes it. -/
def excludedRun : List (UploadEvent Unit) :=
  [.ident 7 false false 0,
    .upload 7 ⟨⟨2, 0⟩, 0, [emptyUpload 1, emptyUpload 2]⟩,
    .execute (fun ident => ident == 7) false,
    .finalize]

/-- The client file connects again, uploads all it has, and the unit
integrates it. -/
def uploadedAgain : List (UploadEvent Unit) :=
  [.ident 7 false false 0,
    .upload 7 ⟨⟨3, 0⟩, 0, [emptyUpload 1, emptyUpload 2, emptyUpload 3]⟩,
    .execute (fun _ => false) false,
    .finalize]

/-- Another unit comes between. -/
def betweenRun : List (UploadEvent Unit) :=
  [.requestFileIdent, .execute (fun _ => false) false, .finalize]

/-- When another unit comes between, all three changesets arrive. -/
theorem uploads_integrated_once_excluded :
    ∃ f, Sys.exec UploadFile.step UploadFile.start
        (excludedRun ++ betweenRun ++ uploadedAgain) = some f
      ∧ (f.rows 7).uploadProgress.clientVersion = 3
      ∧ 1 ∈ (f.rows 7).integrated.map UploadChangeset.version := by
  refine ⟨_, rfl, rfl, ?_⟩
  have hrun := @Sys.run_of_exec _ _ step
    (fun f event => CoversHistory (fun _ v => v ≤ 3) f event
      ∧ NoLeftOver f event) start _
    (excludedRun ++ betweenRun ++ uploadedAgain) rfl (by decide)
  obtain ⟨-, hrow⟩ := uploads_integrated_once hrun
  exact (hrow 7).2 1 (by decide) (by decide) (Or.inl (by decide))

/-- The IDENT message right after the unit: the first two changesets,
which the client uploads again, are taken for integrated ones. -/
theorem excluded_uploads_lost :
    Sys.ExecOk UploadFile.step (CoversHistory fun _ v => v ≤ 3)
        UploadFile.start (excludedRun ++ uploadedAgain)
      ∧ ∃ f, Sys.exec UploadFile.step UploadFile.start
          (excludedRun ++ uploadedAgain) = some f
        ∧ (f.rows 7).uploadProgress.clientVersion = 3
        ∧ (f.rows 7).integrated.map UploadChangeset.version = [3] :=
  ⟨by decide, _, rfl, rfl, rfl⟩

-- ===== announcements

/-- A list of the client file waits that goes beyond what the history
records. -/
def UploadFile.isBehind (f : UploadFile C) (ident : Nat) : Bool :=
  let beyond := fun list : IntegratableChangesetList C =>
    decide ((f.rows ident).uploadProgress.clientVersion
      < list.uploadProgress.clientVersion)
  (f.pending ident).any beyond || (f.blocked.lookup ident).any beyond

theorem UploadSession.announced_flx (fromCache : Bool)
    (hflx : sess.isFlx = true) (hprepared : ∀ up ∈ sess.incremental,
      up.clientVersion ≤ row.uploadProgress.clientVersion) :
    (sess.announced row fromCache).clientVersion
        ≤ row.uploadProgress.clientVersion
      ↔ sess.uploadThreshold.clientVersion
          ≤ row.uploadProgress.clientVersion
        ∧ sess.uploadProgress.clientVersion
          ≤ row.uploadProgress.clientVersion := by
  -- what is found first is no more than one of the two sides
  have hfound : (if sess.bootstrapPending then sess.uploadProgress
        else sess.incremental.getD row.uploadProgress).clientVersion
      ≤ max sess.uploadProgress.clientVersion
        row.uploadProgress.clientVersion := by
    split
    · exact le_max_left _ _
    · refine le_trans ?_ (le_max_right _ _)
      cases hinc : sess.incremental with
      | none => exact le_rfl
      | some up => exact hprepared up hinc
  unfold UploadSession.announced
  rw [if_pos hflx]
  dsimp only
  generalize (if sess.bootstrapPending then sess.uploadProgress
    else sess.incremental.getD row.uploadProgress) = found at hfound ⊢
  by_cases hthreshold : found.clientVersion
      < sess.uploadThreshold.clientVersion
  · rw [if_pos hthreshold]
    split <;> omega
  · rw [if_neg hthreshold]
    split <;> omega

/-- What a session has received is committed exactly when no list goes
beyond the history. -/
theorem Tracks.received_le_iff {ident : Nat}
    (h : Tracks history (f.rows ident) (f.pending ident)
      (f.blocked.lookup ident) (some sess)) :
    (sess.uploadThreshold.clientVersion
          ≤ (f.rows ident).uploadProgress.clientVersion
        ∧ sess.uploadProgress.clientVersion
          ≤ (f.rows ident).uploadProgress.clientVersion)
      ↔ f.isBehind ident = false := by
  obtain ⟨hthreshold, hprogress, hexact, -⟩ := h.received sess rfl
  have hboth : (sess.uploadThreshold.clientVersion
          ≤ (f.rows ident).uploadProgress.clientVersion
        ∧ sess.uploadProgress.clientVersion
          ≤ (f.rows ident).uploadProgress.clientVersion)
      ↔ (reached (reached (f.rows ident).position (f.pending ident))
          (f.blocked.lookup ident)).1.clientVersion
        ≤ (f.rows ident).uploadProgress.clientVersion := by
    have h1 := hthreshold.clientVersion_le
    have h2 := hprogress.clientVersion_le
    rcases hexact with heq | heq
    · rw [heq] at h1 h2 ⊢
      omega
    · rw [heq] at h1 h2 ⊢
      omega
  have hblocked := (reached_before h.blocked_extends).clientVersion_le
  rw [hboth]
  unfold isBehind
  cases hp : f.pending ident with
  | none =>
    cases hb : f.blocked.lookup ident with
    | none => simp [reached, ClientFileRow.position]
    | some b => simp [reached, position]
  | some p =>
    rw [hp] at hblocked
    cases hb : f.blocked.lookup ident with
    | none => simp [reached, position]
    | some b =>
      rw [hb] at hblocked
      simp only [reached, position,
        Option.map_some, Option.getD_some] at hblocked
      simp only [reached, position,
        Option.map_some, Option.getD_some, Option.any_some,
        Bool.or_eq_false_iff, decide_eq_false_iff_not, not_lt]
      omega

/-- In every run in which no client file identifies itself while a list
of it is left over, a DOWNLOAD message announces only what is committed,
except to a flexible sync session with an upload that is not. -/
theorem announced_committed_iff {f : UploadFile C}
    (hrun : Sys.Run UploadFile.step NoLeftOver UploadFile.start f)
    {ident : Nat} {sess : UploadSession}
    (hsess : f.sessions ident = some sess) (fromCache : Bool) :
    (sess.announced (f.rows ident) fromCache).clientVersion
        ≤ (f.rows ident).uploadProgress.clientVersion
      ↔ (sess.isFlx = true → f.isBehind ident = false) := by
  -- without a history there is nothing to leave out
  have hsound : f.Sound fun _ _ => False :=
    hrun.invariant .start fun f event _ h hok hstep => by
      refine h.step hok ?_ hstep
      cases event <;> first | trivial | exact fun _ _ _ _ hv => hv.elim
  have htracks := hsound.tracks ident
  rw [hsess] at htracks
  cases hflx : sess.isFlx with
  | false =>
    unfold UploadSession.announced
    rw [hflx]
    cases fromCache <;> simp
  | true =>
    rw [UploadSession.announced_flx fromCache hflx
      (htracks.prepared sess rfl), htracks.received_le_iff]
    simp

/-- A session that has uploaded and is integrated. -/
def integratedRun (isFlx : Bool) : List (UploadEvent Unit) :=
  [.ident 7 isFlx false 0,
    .upload 7 ⟨⟨2, 0⟩, 0, [emptyUpload 1, emptyUpload 2]⟩,
    .execute (fun _ => false) false,
    .finalize]

theorem announced_committed_iff_integrated :
    ∃ f sess, Sys.exec UploadFile.step UploadFile.start
        (integratedRun true) = some f
      ∧ f.sessions 7 = some sess
      ∧ sess.uploadProgress.clientVersion = 2
      ∧ (sess.announced (f.rows 7) false).clientVersion
        ≤ (f.rows 7).uploadProgress.clientVersion := by
  refine ⟨_, _, rfl, rfl, rfl, ?_⟩
  have hrun := @Sys.run_of_exec _ _ step NoLeftOver
    start _ (integratedRun true) rfl (by decide)
  exact (announced_committed_iff hrun rfl false).2 (by decide)

/-- A flexible sync session is told to forget what it has just uploaded,
before the unit is executed. -/
theorem flx_announced_uncommitted :
    ∃ f sess, Sys.exec UploadFile.step UploadFile.start
        ((integratedRun true).take 2) = some f
      ∧ f.sessions 7 = some sess
      ∧ (f.step (.download 7 false 0 false)).isSome
      ∧ (sess.announced (f.rows 7) false).clientVersion = 2
      ∧ (f.rows 7).uploadProgress.clientVersion = 0 :=
  ⟨_, _, rfl, rfl, rfl, rfl, rfl⟩

end BarqSync.Server
