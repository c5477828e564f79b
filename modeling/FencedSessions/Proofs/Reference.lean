import FencedSessions.Proofs.Growth

/-! What a step comes to when nobody is in its way, as a function of what is stored. -/

namespace FencedSessions

namespace Session

/-- An abandoned session, orphaned by the holder of a fence. -/
def orphan (s : Session) (now : Instant) (fence : Fence) : Session :=
  (s.record .orphaned now true).addCheckpoint (Orphaning.marker s now fence) Orphaning.reason now

/-- Every active session may be orphaned. -/
theorem force_orphaned {s : Session} (h : s.status.isActive) (now : Instant) :
    s.force .orphaned now = .ok (s.record .orphaned now true) := by
  have hall : ∀ status ∈ Status.all, status.isActive → status.canBecome .orphaned := by decide
  have hmem : s.status ∈ Status.all := by cases s.status <;> decide
  exact if_pos (hall s.status hmem h)

end Session

namespace Change

/-- What a change makes of a session. -/
def result (c : Change) (s : Session) (now : Instant) : Except Refusal Session :=
  match c with
  | .transition event none => s.apply event now
  | .transition event (some payload) => (s.apply event now).map (·.addCheckpoint payload event.text now)
  | .checkpoint payload reason => .ok (s.addCheckpoint payload reason now)

theorem apply_result (c : Change) (s : Session) (now : Instant) :
    (c.apply s now).map (·.1) = c.result s now := by
  cases c with
  | checkpoint payload reason => rfl
  | transition event payload =>
    cases payload <;> cases h : s.apply event now <;> simp only [Change.apply, result, h] <;> rfl

end Change

/-- What a step answers, and the records that it stores, one after another. -/
structure Upshot where
  outcome : Outcome
  writes : List StoredSession

namespace Upshot

/-- A change of the session that is found. -/
def ofChange (found : Session) (c : Change) (now : Instant) (fence : Fence) : Upshot :=
  match c.result found now with
  | .error refusal => ⟨.invalidTransition refusal.message, []⟩
  | .ok changed =>
    ⟨.success changed.status (found.version + 1),
      [⟨fence, { changed with version := found.version + 1 }⟩]⟩

/-- What follows once the session is found, and orphaned if it had to be. -/
def ofFound (found : Session) (change : Option Change) (now : Instant) (fence : Fence) : Upshot :=
  match change with
  | none => ⟨.success found.status found.version, []⟩
  | some c => ofChange found c now fence

/-- A step on what is stored of a session. -/
def ofStored (stored : Option Session) (change : Option Change) (threshold : Int) (now : Instant)
    (fence : Fence) : Upshot :=
  match stored with
  | none => ⟨.notFound, []⟩
  | some s =>
    if s.isStale now threshold then
      let orphan := { s.orphan now fence with version := s.version + 1 }
      let rest := ofFound orphan change now fence
      { rest with writes := ⟨fence, orphan⟩ :: rest.writes }
    else ofFound s change now fence

end Upshot

namespace Orphaning

variable {s : Session} {now : Instant} {threshold : Int}

theorem of?_stale (h : s.isStale now threshold) (fence : Fence) :
    of? s now threshold fence =
      .ok (some ⟨s.orphan now fence, s.status, now.millisSince s.lastActivity, now⟩) := by
  have hactive : s.status.isActive := ((Bool.and_eq_true _ _).mp h).1
  simp only [of?, if_pos h, Session.force_orphaned hactive]
  rfl

theorem of?_lively (h : s.isStale now threshold = false) (fence : Fence) :
    of? s now threshold fence = .ok none := by
  unfold of?
  rw [h]
  rfl

end Orphaning

end FencedSessions
