import Mathlib.Data.List.DropRight
import FencedSessions.Proofs.Growth

/-! A session under any calls at any times. A refused call changes nothing; the others only append to
history and checkpoints, which stay well-formed. Only a retry leads back to the first status, and it leaves a
checkpoint that tells of the attempt before it. -/

namespace FencedSessions

/-- A call that changes a session. -/
inductive SessionOp where
  | apply (event : SessionEvent)
  | retry
  | force (target : Status)
  | checkpoint (payload : Json) (reason : String)

structure SessionRequest where
  time : Instant
  op : SessionOp

theorem Status.ne_pending_of_canBecome {s t : Status} (h : s.canBecome t) : t ≠ .pending := by
  rintro rfl
  cases s <;> exact absurd h (by decide)

namespace Session

def attempt (s : Session) (r : SessionRequest) : Except Refusal Session :=
  match r.op with
  | .apply event => s.apply event r.time
  | .retry => s.retry r.time
  | .force target => s.force target r.time
  | .checkpoint payload reason => .ok (s.addCheckpoint payload reason r.time)

/-- What a call leaves, refused or not. -/
def perform (s : Session) (r : SessionRequest) : Session :=
  match s.attempt r with
  | .ok t => t
  | .error _ => s

/-- What calls one after another leave. -/
def after (s : Session) (rs : List SessionRequest) : Session := rs.foldl perform s

/-- A session reopened, with the checkpoint of the retry. -/
def reopen (s : Session) (now : Instant) : Session :=
  (s.record .pending now false).addCheckpoint s.retryPayload ("retry from " ++ s.status.text) now

/-- What a call makes of a session if it is not refused. -/
inductive Writes (s : Session) (r : SessionRequest) : Session → Prop where
  | move {target : Status} (forced : Bool) (h : s.status.canBecome target) :
    Writes s r (s.record target r.time forced)
  | reopen (hop : r.op = .retry ∨ r.op = .apply .retry) (h : s.status.isRecoverable) :
    Writes s r (s.reopen r.time)
  | note {payload : Json} {reason : String} (hop : r.op = .checkpoint payload reason) :
    Writes s r (s.addCheckpoint payload reason r.time)

variable {s t : Session} {r : SessionRequest} {rs : List SessionRequest} {now : Instant}

theorem retry_ok (h : s.retry now = .ok t) : s.status.isRecoverable ∧ t = s.reopen now := by
  unfold retry at h
  split at h
  · rename_i hr
    exact ⟨hr, (Except.ok.inj h).symm⟩
  · cases h

theorem writes_of_attempt (h : s.attempt r = .ok t) : Writes s r t := by
  obtain ⟨time, op⟩ := r
  cases op with
  | apply event =>
    change s.apply event time = .ok t at h
    unfold apply at h
    split at h
    · rename_i hevent
      obtain ⟨hr, rfl⟩ := retry_ok h
      exact .reopen (.inr (by rw [hevent])) hr
    · obtain ⟨hc, rfl⟩ := move_ok h
      exact .move false hc
  | retry =>
    obtain ⟨hr, rfl⟩ := retry_ok h
    exact .reopen (.inl rfl) hr
  | force target =>
    obtain ⟨hc, rfl⟩ := move_ok h
    exact .move true hc
  | checkpoint payload reason =>
    cases h
    exact .note rfl

theorem perform_ok (h : s.attempt r = .ok t) : s.perform r = t := by
  unfold perform
  rw [h]

theorem perform_refused {e : Refusal} (h : s.attempt r = .error e) : s.perform r = s := by
  unfold perform
  rw [h]

theorem after_append (s : Session) (rs rs' : List SessionRequest) :
    s.after (rs ++ rs') = (s.after rs).after rs' := List.foldl_append

theorem after_concat (s : Session) (rs : List SessionRequest) (r : SessionRequest) :
    s.after (rs ++ [r]) = (s.after rs).perform r := s.after_append rs [r]

theorem grows_attempt (h : s.attempt r = .ok t) : s.Grows t := by
  obtain ⟨time, op⟩ := r
  cases op with
  | apply event => exact grows_apply h
  | retry => exact grows_retry h
  | force target => exact grows_move h
  | checkpoint payload reason =>
    cases h
    exact s.grows_addCheckpoint time payload reason

theorem grows_perform (s : Session) (r : SessionRequest) : s.Grows (s.perform r) := by
  cases h : s.attempt r with
  | ok t =>
    rw [perform_ok h]
    exact grows_attempt h
  | error e =>
    rw [perform_refused h]
    exact Grows.refl s

theorem grows_after (s : Session) (rs : List SessionRequest) : s.Grows (s.after rs) := by
  induction rs generalizing s with
  | nil => exact Grows.refl s
  | cons r rs ih => exact (s.grows_perform r).trans (ih (s.perform r))

theorem Writes.version (h : Writes s r t) : t.version = s.version := by cases h <;> rfl

/-- The call `r` turns `s` into `t` by a retry, of which it keeps `record` and a checkpoint that tells of the
attempt before it. -/
structure Reopens (s : Session) (r : SessionRequest) (t : Session) (record : Transition) : Prop where
  op : r.op = .retry ∨ r.op = .apply .retry
  ended : s.status = .failed ∨ s.status = .timeout ∨ s.status = .orphaned
  written : record = ⟨s.status, .pending, r.time, false⟩
  history : t.history = s.history ++ [record]
  checkpoint : ∃ c, t.checkpoints = s.checkpoints ++ [c] ∧
    c.reason = "retry from " ++ record.source.text ∧
    c.payload.field? "retry_of" = some record.source.toJson ∧
    c.payload.field? "previous_checkpoint" =
      some (if c.sequence = 1 then .null else .nat (c.sequence - 1))

theorem retryPayload_origin (s : Session) :
    s.retryPayload.field? "retry_of" = some s.status.toJson := rfl

/-- The checkpoint that a retry names is the one before its own. -/
theorem retryPayload_previous (h : s.checkpointsAreGapless) :
    s.retryPayload.field? "previous_checkpoint" =
      some (if s.nextSequence = 1 then .null else .nat (s.nextSequence - 1)) := by
  have hfield : s.retryPayload.field? "previous_checkpoint" =
    some (.ofOption (fun c => .nat c.sequence) s.lastCheckpoint?) := rfl
  rw [hfield]
  cases hlast : s.lastCheckpoint? with
  | none => simp [nextSequence, hlast, Json.ofOption]
  | some c =>
    have hlength : c.sequence + 1 = 1 + s.checkpoints.length := sequence_getLast h hlast
    have hpos : 0 < s.checkpoints.length := List.length_pos_of_mem (List.mem_of_getLast? hlast)
    have hsequence : c.sequence ≠ 0 := by omega
    simp [nextSequence, hlast, Json.ofOption, hsequence]

theorem ended_of_isRecoverable {status : Status} (h : status.isRecoverable) :
    status = .failed ∨ status = .timeout ∨ status = .orphaned := by
  cases status <;> first | decide | cases h

theorem reopens_reopen (hop : r.op = .retry ∨ r.op = .apply .retry) (h : s.status.isRecoverable)
    (hg : s.checkpointsAreGapless) :
    Reopens s r (s.reopen r.time) ⟨s.status, .pending, r.time, false⟩ where
  op := hop
  ended := ended_of_isRecoverable h
  written := rfl
  history := rfl
  checkpoint := ⟨_, rfl, rfl, s.retryPayload_origin, retryPayload_previous hg⟩

/-- A call writes nothing into a history, or it appends one record; one into the first status comes from a
retry. -/
theorem Writes.history (h : Writes s r t) (hg : s.checkpointsAreGapless) :
    t.history = s.history ∨
      ∃ record, t.history = s.history ++ [record] ∧
        (record.target = .pending → Reopens s r t record) := by
  cases h with
  | move forced h => exact .inr ⟨_, rfl, fun ht => absurd ht (Status.ne_pending_of_canBecome h)⟩
  | reopen hop h => exact .inr ⟨_, rfl, fun _ => reopens_reopen hop h hg⟩
  | note hop => exact .inl rfl

theorem history_perform (hg : s.checkpointsAreGapless) (r : SessionRequest) :
    (s.perform r).history = s.history ∨
      ∃ record, (s.perform r).history = s.history ++ [record] ∧
        (record.target = .pending → Reopens s r (s.perform r) record) := by
  cases h : s.attempt r with
  | ok t =>
    rw [perform_ok h]
    exact (writes_of_attempt h).history hg
  | error e => exact .inl (by rw [perform_refused h])

/-- One of the calls found the history `older` and wrote `record` behind it, in a retry. -/
def ReopenedBy (s : Session) (rs : List SessionRequest) (older : List Transition) (record : Transition) :
    Prop :=
  ∃ before r later, rs = before ++ r :: later ∧ (s.after before).history = older ∧
    Reopens (s.after before) r (s.after (before ++ [r])) record

theorem ReopenedBy.append {older : List Transition} {record : Transition}
    (h : s.ReopenedBy rs older record) (rs' : List SessionRequest) :
    s.ReopenedBy (rs ++ rs') older record := by
  obtain ⟨before, r, later, rfl, hbefore, hreopens⟩ := h
  exact ⟨before, r, later ++ rs', by rw [List.append_assoc, List.cons_append], hbefore, hreopens⟩

/-- Records into the first status are written by retries. -/
theorem reopenedBy_of_record {older newer : List Transition} {record : Transition}
    (hg : s.checkpointsAreGapless) (hs : s.history = [])
    (h : (s.after rs).history = older ++ record :: newer) (ht : record.target = .pending) :
    s.ReopenedBy rs older record := by
  induction rs using List.reverseRecOn generalizing newer with
  | nil =>
    have hnone : [] = older ++ record :: newer := hs.symm.trans h
    simp at hnone
  | append_singleton rs r ih =>
    rw [after_concat] at h
    rcases history_perform ((s.grows_after rs).gapless hg) r with hsame | ⟨last, hlast, hreopens⟩
    · exact (ih (hsame.symm.trans h)).append [r]
    · have hsplit := hlast.symm.trans h
      rcases List.eq_nil_or_concat newer with rfl | ⟨newer, _, rfl⟩
      · -- the record is the one that this call wrote
        obtain ⟨holder, hrecord⟩ := List.append_inj' hsplit rfl
        cases hrecord
        refine ⟨rs, r, [], rfl, holder, ?_⟩
        rw [after_concat]
        exact hreopens ht
      · rw [List.concat_eq_append, ← List.cons_append, ← List.append_assoc] at hsplit
        exact (ih (List.append_inj' hsplit rfl).1).append [r]

/-- What holds of a session that calls have been made on, and of the next call. -/
structure CallLaws (s : Session) (rs : List SessionRequest) : Prop where
  refused : ∀ r e, (s.after rs).attempt r = .error e → s.after (rs ++ [r]) = s.after rs
  accepted : ∀ r t, (s.after rs).attempt r = .ok t →
    s.after (rs ++ [r]) = t ∧ (s.after rs).Grows t ∧ t.version = (s.after rs).version
  valid : (s.after rs).historyIsValid
  gapless : (s.after rs).checkpointsAreGapless
  reopened : ∀ older record newer, (s.after rs).history = older ++ record :: newer →
    record.target = .pending → s.ReopenedBy rs older record

/-- Calls on a new session, at any times in any order, change nothing where they are refused, and only append
where they are not. History and checkpoints stay well-formed, and a record into the first status comes with
the checkpoint of its retry. -/
theorem call_laws (id : SessionId) (priority : Nat) (now : Instant) (rs : List SessionRequest) :
    CallLaws (create id priority now) rs where
  refused r e h := by rw [after_concat, perform_refused h]
  accepted r t h := ⟨by rw [after_concat, perform_ok h], grows_attempt h, (writes_of_attempt h).version⟩
  valid := (grows_after _ rs).valid rfl
  gapless := (grows_after _ rs).gapless rfl
  reopened _ _ _ h ht := reopenedBy_of_record rfl rfl h ht

/-- Of three retries only the one that comes after a failure leaves a checkpoint. -/
example (id : SessionId) (t : Instant) :
    ((create id 0 t).after [⟨t, .retry⟩, ⟨t, .apply .fail⟩, ⟨t, .retry⟩, ⟨t, .retry⟩]).checkpoints =
      [⟨1, .object [("previous_checkpoint", .null), ("previous_reason", .null),
        ("retry_of", .string "FAILED")], t, "retry from FAILED"⟩] := rfl

end Session

end FencedSessions
