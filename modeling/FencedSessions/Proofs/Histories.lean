import FencedSessions.Proofs.SessionRuns

/-! Which histories are valid: those that changes of status on a new session leave, and no others. One thing
passes the check and is never made: a correction into the first status. -/

namespace FencedSessions

/-- The event that asks for a status. -/
def Status.event : Status → SessionEvent
  | .pending => .retry
  | .queued => .enqueue
  | .running => .start
  | .paused => .pause
  | .completed => .complete
  | .partiallyCompleted => .completePartially
  | .failed => .fail
  | .timeout => .timeOut
  | .stopped => .stop
  | .cancelled => .cancel
  | .orphaned => .orphan
  | .degraded => .degrade

theorem Status.event_target (s : Status) : s.event.target = s := by cases s <;> rfl

theorem Status.event_eq_retry {s : Status} : s.event = .retry ↔ s = .pending := by
  cases s <;> decide

/-- A call that asks for a change of status. -/
def SessionOp.moves : SessionOp → Bool
  | .checkpoint .. => false
  | _ => true

namespace Transition

/-- A change into the first status is no correction. -/
def Requested (t : Transition) : Prop := t.target = .pending → t.forced = false

/-- The call that makes a change of status. -/
def request (t : Transition) : SessionRequest :=
  ⟨t.time, if t.forced then .force t.target else .apply t.target.event⟩

theorem request_moves (t : Transition) : t.request.op.moves := by
  unfold request
  split <;> rfl

end Transition

namespace Session

variable {s : Session} {t : Transition} {status : Status}

theorem move_of_canBecome {target : Status} (h : s.status.canBecome target) (now : Instant)
    (forced : Bool) : s.move target now forced = .ok (s.record target now forced) := if_pos h

theorem retry_of_isRecoverable (h : s.status.isRecoverable) (now : Instant) :
    s.retry now = .ok (s.reopen now) := if_pos h

/-- The call of a legal change is not refused. -/
theorem attempt_request (hs : t.source = s.status) (hl : Transition.legal t) (ht : t.Requested) :
    ∃ u, s.attempt t.request = .ok u ∧ u.history = s.history ++ [t] ∧ u.status = t.target := by
  obtain ⟨source, target, time, forced⟩ := t
  cases hs
  by_cases htarget : target = .pending
  · -- no status may become the first one, so what makes the change legal is that a retry is possible
    subst htarget
    cases (ht rfl : forced = false)
    have hrecoverable : s.status.isRecoverable := by
      cases hc : s.status.canBecome .pending with
      | true => exact absurd rfl (Status.ne_pending_of_canBecome hc)
      | false => simpa [Transition.legal, hc] using hl
    exact ⟨s.reopen time, retry_of_isRecoverable hrecoverable time, rfl, rfl⟩
  · have hc : s.status.canBecome target := by simpa [Transition.legal, htarget] using hl
    refine ⟨s.record target time forced, ?_, rfl, rfl⟩
    cases forced with
    | true => exact move_of_canBecome hc time true
    | false =>
      have hevent : target.event ≠ .retry := fun h => htarget (Status.event_eq_retry.mp h)
      change s.apply target.event time = _
      rw [apply, if_neg hevent, Status.event_target]
      exact move_of_canBecome hc time false

/-- The calls of a legal walk leave its records, in their order. -/
theorem after_requests {ts : List Transition} (h : replay s.status ts = some status)
    (hts : ∀ t ∈ ts, t.Requested) :
    (s.after (ts.map Transition.request)).history = s.history ++ ts ∧
      (s.after (ts.map Transition.request)).status = status := by
  induction ts generalizing s with
  | nil => exact ⟨(List.append_nil _).symm, Option.some.inj h⟩
  | cons t ts ih =>
    have hlegal : t.source = s.status ∧ Transition.legal t := by
      by_contra hnot
      rw [replay, if_neg hnot] at h
      cases h
    rw [replay, if_pos hlegal] at h
    obtain ⟨u, hu, hhistory, hstatus⟩ := attempt_request hlegal.1 hlegal.2 (hts t (by simp))
    obtain ⟨hleft, hend⟩ := ih (by rw [hstatus]; exact h) fun t ht => hts t (by simp [ht])
    rw [List.map_cons, show s.after (t.request :: _) = (s.perform t.request).after _ from rfl,
      perform_ok hu]
    refine ⟨?_, hend⟩
    rw [hleft, hhistory, List.append_assoc, List.singleton_append]

/-- What calls on a new session write is no correction into the first status. -/
theorem requested_after {id : SessionId} {priority : Nat} {now : Instant} {rs : List SessionRequest}
    (h : t ∈ ((create id priority now).after rs).history) : t.Requested := by
  intro ht
  obtain ⟨older, newer, hsplit⟩ := List.append_of_mem h
  obtain ⟨_, _, _, -, -, hreopens⟩ := reopenedBy_of_record rfl rfl hsplit ht
  rw [hreopens.written]

/-- Some changes of status, asked for one after another, leave a history and a status. -/
def Produces (s : Session) (ts : List Transition) (status : Status) : Prop :=
  ∃ rs : List SessionRequest, (∀ r ∈ rs, r.op.moves) ∧
    (s.after rs).history = ts ∧ (s.after rs).status = status

/-- The histories that a new session can come to. -/
theorem produces_iff (s : Session) (id : SessionId) (priority : Nat) (now : Instant) :
    (create id priority now).Produces s.history s.status ↔
      s.historyIsValid ∧ ∀ t ∈ s.history, t.Requested := by
  constructor
  · rintro ⟨rs, -, hhistory, hstatus⟩
    have hvalid : ((create id priority now).after rs).historyIsValid := (grows_after _ rs).valid rfl
    refine ⟨?_, fun t ht => requested_after (hhistory ▸ ht)⟩
    unfold historyIsValid at hvalid ⊢
    rw [← hhistory, ← hstatus]
    exact hvalid
  · rintro ⟨hvalid, hrequested⟩
    have hwalk : replay (create id priority now).status s.history = some s.status :=
      of_decide_eq_true hvalid
    obtain ⟨hhistory, hstatus⟩ := after_requests hwalk hrequested
    refine ⟨s.history.map Transition.request, ?_, hhistory, hstatus⟩
    intro r hr
    obtain ⟨t, -, rfl⟩ := List.mem_map.mp hr
    exact t.request_moves

/-- A history in which no correction leads to the first status is valid if some changes of status leave it on
a new session, and only then. -/
theorem historyIsValid_iff (s : Session) (id : SessionId) (priority : Nat) (now : Instant)
    (h : ∀ t ∈ s.history, t.target = .pending → t.forced = false) :
    s.historyIsValid ↔ (create id priority now).Produces s.history s.status := by
  rw [produces_iff]
  exact ⟨fun hvalid => ⟨hvalid, h⟩, fun hvalid => hvalid.1⟩

/-- A session that was orphaned and retried is produced; one that went from running back to the queue is
not. -/
theorem historyIsValid_iff_tampered :
    let new : Session := create .nil 0 ⟨0⟩
    let started : Transition := ⟨.pending, .running, ⟨0⟩, false⟩
    let retried : Session := { new with
      history := [started, ⟨.running, .orphaned, ⟨600000000000⟩, true⟩,
        ⟨.orphaned, .pending, ⟨660000000000⟩, false⟩] }
    let tampered : Session := { new with
      status := .queued, history := [started, ⟨.running, .queued, ⟨0⟩, false⟩] }
    (∀ t ∈ retried.history ++ tampered.history, t.target = .pending → t.forced = false) ∧
      new.Produces retried.history retried.status ∧ ¬ new.Produces tampered.history tampered.status := by
  intro new started retried tampered
  refine ⟨by decide, (historyIsValid_iff retried .nil 0 ⟨0⟩ (by decide)).mp (by decide), ?_⟩
  rw [← historyIsValid_iff tampered .nil 0 ⟨0⟩ (by decide)]
  decide

end Session

end FencedSessions
