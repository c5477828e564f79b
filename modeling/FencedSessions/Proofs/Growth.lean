import FencedSessions.Orchestration.Step

/-! Every way in which the program changes a session lets it grow: what it was created with stays,
history and checkpoints are only appended to, both stay well-formed, and a final status is kept. All
of this is about one session and says nothing of how it is stored. -/

namespace FencedSessions

/-- A status that nothing follows, not even a retry. -/
def Status.isFinal : Status → Bool
  | .completed | .partiallyCompleted | .cancelled | .stopped => true
  | _ => false

namespace Status

theorem not_final_of_canBecome {s t : Status} (h : s.canBecome t) : s.isFinal = false := by
  cases s <;> first | rfl | cases h

theorem not_final_of_isRecoverable {s : Status} (h : s.isRecoverable) : s.isFinal = false := by
  cases s <;> first | rfl | cases h

end Status

namespace Session

theorem replay_append (start : Status) (ts us : List Transition) :
    replay start (ts ++ us) = (replay start ts).bind fun s => replay s us := by
  induction ts generalizing start with
  | nil => rfl
  | cons t ts ih =>
    simp only [List.cons_append, replay]
    split
    · exact ih t.target
    · rfl

theorem numberedFrom_append (n : Nat) (cs ds : List Checkpoint) :
    numberedFrom n (cs ++ ds) = (numberedFrom n cs && numberedFrom (n + cs.length) ds) := by
  induction cs generalizing n with
  | nil => rfl
  | cons c cs ih =>
    simp only [List.cons_append, numberedFrom, ih, List.length_cons, Bool.and_assoc]
    rw [Nat.add_right_comm, Nat.add_assoc]

/-- In a numbered list the last number tells the length. -/
theorem sequence_getLast {n : Nat} {cs : List Checkpoint} {c : Checkpoint}
    (h : numberedFrom n cs) (hc : cs.getLast? = some c) : c.sequence + 1 = n + cs.length := by
  obtain ⟨cs', rfl⟩ := List.getLast?_eq_some_iff.mp hc
  rw [numberedFrom_append, Bool.and_eq_true] at h
  have hlast : c.sequence = n + cs'.length := by simpa [numberedFrom] using h.2
  rw [hlast, List.length_append, List.length_singleton, Nat.add_assoc]

theorem nextSequence_eq {s : Session} (h : s.checkpointsAreGapless) :
    s.nextSequence = 1 + s.checkpoints.length := by
  unfold nextSequence
  cases hc : s.lastCheckpoint? with
  | none => simp [List.getLast?_eq_none_iff.mp hc]
  | some c => exact sequence_getLast h hc

/-- What stays of a session while it is written. -/
structure Grows (s t : Session) : Prop where
  id : t.id = s.id
  priority : t.priority = s.priority
  createdAt : t.createdAt = s.createdAt
  metadata : t.metadata = s.metadata
  history : s.history <+: t.history
  checkpoints : s.checkpoints <+: t.checkpoints
  valid : s.historyIsValid → t.historyIsValid
  gapless : s.checkpointsAreGapless → t.checkpointsAreGapless
  final : s.status.isFinal → t.status = s.status

namespace Grows

theorem refl (s : Session) : Grows s s :=
  ⟨rfl, rfl, rfl, rfl, List.prefix_refl _, List.prefix_refl _, fun h => h, fun h => h, fun _ => rfl⟩

theorem trans {a b c : Session} (h1 : Grows a b) (h2 : Grows b c) : Grows a c where
  id := h2.id.trans h1.id
  priority := h2.priority.trans h1.priority
  createdAt := h2.createdAt.trans h1.createdAt
  metadata := h2.metadata.trans h1.metadata
  history := h1.history.trans h2.history
  checkpoints := h1.checkpoints.trans h2.checkpoints
  valid h := h2.valid (h1.valid h)
  gapless h := h2.gapless (h1.gapless h)
  final h := by
    have hb := h1.final h
    exact (h2.final (by rw [hb]; exact h)).trans hb

/-- The version is no part of it. -/
theorem with_version {s t : Session} (h : Grows s t) (version : Nat) :
    Grows s { t with version } :=
  ⟨h.id, h.priority, h.createdAt, h.metadata, h.history, h.checkpoints, h.valid, h.gapless, h.final⟩

end Grows

variable (s : Session) (now : Instant)

theorem historyIsValid_record {target : Status} {forced : Bool} (h : s.historyIsValid)
    (hl : Transition.legal ⟨s.status, target, now, forced⟩) :
    (s.record target now forced).historyIsValid := by
  have hs : replay .pending s.history = some s.status := of_decide_eq_true h
  refine decide_eq_true ?_
  change replay .pending (s.history ++ [_]) = some target
  rw [replay_append, hs, Option.bind_some, replay, if_pos ⟨rfl, hl⟩, replay]

/-- A change of status that is legal lets the session grow, unless its status was final. -/
theorem grows_record {target : Status} {forced : Bool}
    (hl : Transition.legal ⟨s.status, target, now, forced⟩) (hf : s.status.isFinal = false) :
    Grows s (s.record target now forced) where
  id := rfl
  priority := rfl
  createdAt := rfl
  metadata := rfl
  history := List.prefix_append _ _
  checkpoints := List.prefix_refl _
  valid h := s.historyIsValid_record now h hl
  gapless h := h
  final h := by rw [hf] at h; cases h

theorem grows_addCheckpoint (payload : Json) (reason : String) :
    Grows s (s.addCheckpoint payload reason now) where
  id := rfl
  priority := rfl
  createdAt := rfl
  metadata := rfl
  history := List.prefix_refl _
  checkpoints := List.prefix_append _ _
  valid h := h
  gapless h := by
    change numberedFrom 1 (s.checkpoints ++ [_]) = true
    rw [numberedFrom_append, Bool.and_eq_true]
    exact ⟨h, by simp [numberedFrom, nextSequence_eq h]⟩
  final _ := rfl

variable {s now}

theorem move_ok {target : Status} {forced : Bool} {t : Session}
    (h : s.move target now forced = .ok t) :
    s.status.canBecome target ∧ t = s.record target now forced := by
  unfold move at h
  split at h
  · rename_i hc
    exact ⟨hc, (Except.ok.inj h).symm⟩
  · cases h

theorem grows_move {target : Status} {forced : Bool} {t : Session}
    (h : s.move target now forced = .ok t) : Grows s t := by
  obtain ⟨hc, rfl⟩ := move_ok h
  have hl : Transition.legal ⟨s.status, target, now, forced⟩ := by
    simp only [Transition.legal, hc, Bool.true_or]
  exact s.grows_record now hl (Status.not_final_of_canBecome hc)

theorem grows_retry {t : Session} (h : s.retry now = .ok t) : Grows s t := by
  unfold retry at h
  split at h
  · rename_i hr
    cases h
    have hl : Transition.legal ⟨s.status, .pending, now, false⟩ := by
      simp only [Transition.legal, hr, decide_true, Bool.and_true, Bool.or_true]
    have hg := s.grows_record now hl (Status.not_final_of_isRecoverable hr)
    exact hg.trans (grows_addCheckpoint _ now _ _)
  · cases h

theorem grows_apply {event : SessionEvent} {t : Session} (h : s.apply event now = .ok t) :
    Grows s t := by
  unfold apply at h
  split at h
  · exact grows_retry h
  · exact grows_move h

theorem version_move {target : Status} {forced : Bool} {t : Session}
    (h : s.move target now forced = .ok t) : t.version = s.version := by
  obtain ⟨-, rfl⟩ := move_ok h
  rfl

theorem version_apply {event : SessionEvent} {t : Session} (h : s.apply event now = .ok t) :
    t.version = s.version := by
  unfold apply at h
  split at h
  · unfold retry at h
    split at h
    · cases h; rfl
    · cases h
  · exact version_move h

end Session

namespace Change

variable {c : Change} {s t : Session} {now : Instant} {d : Detail}

/-- A transition, and the checkpoint that may come with it. -/
theorem transition_ok {event : SessionEvent} {payload : Option Json}
    (h : (transition event payload).apply s now = .ok (t, d)) :
    ∃ u, s.apply event now = .ok u ∧
      (t = u ∨ ∃ p, payload = some p ∧ t = u.addCheckpoint p event.text now) := by
  unfold Change.apply at h
  cases hu : s.apply event now with
  | error e => simp only [hu] at h; cases h
  | ok u =>
    simp only [hu] at h
    cases payload with
    | none => cases h; exact ⟨t, rfl, Or.inl rfl⟩
    | some p => cases h; exact ⟨u, rfl, Or.inr ⟨p, rfl, rfl⟩⟩

theorem grows_apply (h : c.apply s now = .ok (t, d)) : s.Grows t := by
  cases c with
  | transition event payload =>
    obtain ⟨u, hu, rfl | ⟨p, -, rfl⟩⟩ := transition_ok h
    · exact Session.grows_apply hu
    · exact (Session.grows_apply hu).trans (Session.grows_addCheckpoint _ _ _ _)
  | checkpoint payload reason =>
    cases h
    exact Session.grows_addCheckpoint _ _ _ _

theorem version_apply (h : c.apply s now = .ok (t, d)) : t.version = s.version := by
  cases c with
  | transition event payload =>
    obtain ⟨u, hu, rfl | ⟨p, -, rfl⟩⟩ := transition_ok h
    · exact Session.version_apply hu
    · have hv := Session.version_apply hu
      exact hv
  | checkpoint payload reason => cases h; rfl

end Change

namespace Orphaning

variable {s : Session} {now : Instant} {threshold : Int} {fence : Fence} {o : Orphaning}

/-- Only a stale session is orphaned, and what is stored then is the session with the correction and
the marker. -/
theorem of?_ok (h : of? s now threshold fence = .ok (some o)) :
    s.isStale now threshold ∧ ∃ u, s.force .orphaned now = .ok u ∧
      o.session = u.addCheckpoint (marker s now fence) reason now := by
  unfold of? at h
  split at h
  · rename_i hs
    cases hu : s.force .orphaned now with
    | error e => rw [hu] at h; cases h
    | ok u => rw [hu] at h; cases h; exact ⟨hs, u, rfl, rfl⟩
  · cases h

theorem grows_of? (h : of? s now threshold fence = .ok (some o)) : s.Grows o.session := by
  obtain ⟨-, u, hu, ho⟩ := of?_ok h
  rw [ho]
  exact (Session.grows_move hu).trans (Session.grows_addCheckpoint _ _ _ _)

theorem version_of? (h : of? s now threshold fence = .ok (some o)) :
    o.session.version = s.version := by
  obtain ⟨-, u, hu, ho⟩ := of?_ok h
  have hv := Session.version_move hu
  rw [ho]
  exact hv

end Orphaning

end FencedSessions
