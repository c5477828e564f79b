import FencedSessions.Proofs.SessionRuns

/-! The last activity of a session. It looks only at the last checkpoint and the last change of status, and a
session keeps the time of its last update beside them. As long as the clock does not go back, all of these
tell the same: the latest of all the times that the session keeps. -/

namespace FencedSessions

namespace Instant

variable {a b : Instant}

theorem latest_eq_right (h : a ≤ b) : a.latest b = b := if_pos h

theorem latest_eq_left (h : b ≤ a) : a.latest b = a := by
  unfold latest
  split
  · rename_i hle
    exact congrArg Instant.mk (Int.le_antisymm h hle)
  · rfl

theorem latest_mem {ts : List Instant} (ha : a ∈ ts) (hb : b ∈ ts) : a.latest b ∈ ts := by
  unfold latest
  split
  · exact hb
  · exact ha

/-- `t` is the latest of some instants. -/
structure IsLatest (t : Instant) (ts : List Instant) : Prop where
  mem : t ∈ ts
  le : ∀ u ∈ ts, u ≤ t

end Instant

namespace Session

/-- The times of all checkpoints and changes of status. -/
def signs (s : Session) : List Instant := s.checkpoints.map (·.createdAt) ++ s.history.map (·.time)

variable {s t : Session} {r : SessionRequest} {rs : List SessionRequest} {now : Instant}

theorem createdAt_mem_signs {c : Checkpoint} (h : s.lastCheckpoint? = some c) : c.createdAt ∈ s.signs :=
  List.mem_append_left _ (List.mem_map_of_mem (List.mem_of_getLast? h))

theorem time_mem_signs {change : Transition} (h : s.lastTransition? = some change) : change.time ∈ s.signs :=
  List.mem_append_right _ (List.mem_map_of_mem (List.mem_of_getLast? h))

theorem lastActivity_mem (s : Session) : s.lastActivity ∈ s.createdAt :: s.signs := by
  unfold lastActivity
  split
  · rename_i hc ht
    exact List.mem_cons_of_mem _ (Instant.latest_mem (createdAt_mem_signs hc) (time_mem_signs ht))
  · rename_i hc _
    exact List.mem_cons_of_mem _ (createdAt_mem_signs hc)
  · rename_i _ ht
    exact List.mem_cons_of_mem _ (time_mem_signs ht)
  · exact List.mem_cons_self

theorem Grows.signs (h : s.Grows t) : s.signs ⊆ t.signs := by
  intro time hmem
  refine List.mem_append.mpr ((List.mem_append.mp hmem).imp (fun hc => ?_) fun hh => ?_)
  · exact (h.checkpoints.map _).subset hc
  · exact (h.history.map _).subset hh

theorem mem_signs_record (target : Status) (forced : Bool) {time : Instant} :
    time ∈ (s.record target now forced).signs ↔ time ∈ s.signs ∨ time = now := by
  simp only [signs, record, List.map_append, List.map_cons, List.map_nil, List.mem_append, List.mem_singleton]
  exact or_assoc.symm

theorem mem_signs_addCheckpoint (payload : Json) (reason : String) {time : Instant} :
    time ∈ (s.addCheckpoint payload reason now).signs ↔ time ∈ s.signs ∨ time = now := by
  simp only [signs, addCheckpoint, List.map_append, List.map_cons, List.map_nil, List.mem_append,
    List.mem_singleton]
  exact or_right_comm

/-- A call that is not refused leaves its time. -/
theorem Writes.signed (h : Writes s r t) : r.time ∈ t.signs := by
  cases h with
  | move forced _ => exact (mem_signs_record _ forced).mpr (.inr rfl)
  | reopen _ _ => exact (mem_signs_addCheckpoint _ _).mpr (.inr rfl)
  | note _ => exact (mem_signs_addCheckpoint _ _).mpr (.inr rfl)

theorem Writes.updatedAt (h : Writes s r t) : t.updatedAt = r.time := by cases h <;> rfl

/-- No time that the session keeps is later than its last update, and its last activity is that update. -/
structure Timely (s : Session) : Prop where
  created : s.createdAt ≤ s.updatedAt
  signs : ∀ time ∈ s.signs, time ≤ s.updatedAt
  activity : s.lastActivity = s.updatedAt

theorem timely_create (id : SessionId) (priority : Nat) (start : Instant) :
    Timely (create id priority start) where
  created := Int.le_refl _
  signs _ h := nomatch h
  activity := rfl

section Step

variable (h : Timely s) (hnow : s.updatedAt ≤ now)
include h hnow

/-- A session stays timely with one more sign, at `now`. -/
theorem Timely.sign (hcreated : t.createdAt = s.createdAt) (hupdated : t.updatedAt = now)
    (hsigns : ∀ {time}, time ∈ t.signs ↔ time ∈ s.signs ∨ time = now) (hlast : t.lastActivity = now) :
    Timely t where
  created := by
    rw [hcreated, hupdated]
    exact Int.le_trans h.created hnow
  signs time hmem := by
    rw [hupdated]
    rcases hsigns.mp hmem with hmem | rfl
    · exact Int.le_trans (h.signs time hmem) hnow
    · exact Int.le_refl _
  activity := hlast.trans hupdated.symm

theorem Timely.record (target : Status) (forced : Bool) : Timely (s.record target now forced) := by
  refine h.sign hnow rfl rfl (mem_signs_record target forced) ?_
  have hlast : (s.record target now forced).lastTransition? = some ⟨s.status, target, now, forced⟩ :=
    List.getLast?_concat
  have hsame : (s.record target now forced).lastCheckpoint? = s.lastCheckpoint? := rfl
  unfold lastActivity
  rw [hlast, hsame]
  cases hc : s.lastCheckpoint? with
  | none => rfl
  | some c =>
    -- the last checkpoint is no later than the update before this one
    exact Instant.latest_eq_right (Int.le_trans (h.signs _ (createdAt_mem_signs hc)) hnow)

theorem Timely.addCheckpoint (payload : Json) (reason : String) :
    Timely (s.addCheckpoint payload reason now) := by
  refine h.sign hnow rfl rfl (mem_signs_addCheckpoint payload reason) ?_
  have hlast : (s.addCheckpoint payload reason now).lastCheckpoint? =
    some ⟨s.nextSequence, payload, now, reason⟩ := List.getLast?_concat
  have hsame : (s.addCheckpoint payload reason now).lastTransition? = s.lastTransition? := rfl
  unfold lastActivity
  rw [hlast, hsame]
  cases ht : s.lastTransition? with
  | none => rfl
  | some change => exact Instant.latest_eq_left (Int.le_trans (h.signs _ (time_mem_signs ht)) hnow)

end Step

theorem Writes.timely (h : Writes s r t) (hs : Timely s) (htime : s.updatedAt ≤ r.time) : Timely t := by
  cases h with
  | move forced _ => exact hs.record htime _ forced
  | reopen _ _ => exact (hs.record htime _ _).addCheckpoint (Int.le_refl _) _ _
  | note _ => exact hs.addCheckpoint htime _ _

/-- Calls at times that do not go back keep a session timely. -/
theorem timely_after (h : Timely s) (htimes : (s.updatedAt :: rs.map (·.time)).Pairwise (· ≤ ·)) :
    Timely (s.after rs) := by
  induction rs generalizing s with
  | nil => exact h
  | cons r rs ih =>
    obtain ⟨hfirst, hrest⟩ := List.pairwise_cons.mp htimes
    change Timely ((s.perform r).after rs)
    cases hr : s.attempt r with
    | ok t =>
      rw [perform_ok hr]
      have hwrites := writes_of_attempt hr
      refine ih (hwrites.timely h (hfirst _ List.mem_cons_self)) ?_
      -- `t` was updated at the time of `r`, which the later calls do not go back behind
      rw [hwrites.updatedAt]
      exact hrest
    | error e =>
      rw [perform_refused hr]
      refine ih h (List.pairwise_cons.mpr ⟨fun time hmem => ?_, (List.pairwise_cons.mp hrest).2⟩)
      exact hfirst time (List.mem_cons_of_mem _ hmem)

/-- What a call that was not refused has left is there after the later ones. -/
theorem signed_after {before later : List SessionRequest} (h : (s.after before).attempt r = .ok t) :
    r.time ∈ (s.after (before ++ r :: later)).signs := by
  rw [after_append]
  change r.time ∈ (((s.after before).perform r).after later).signs
  rw [perform_ok h]
  exact (t.grows_after later).signs (writes_of_attempt h).signed

theorem Timely.isLatest (h : Timely s) : s.lastActivity.IsLatest (s.createdAt :: s.signs) where
  mem := s.lastActivity_mem
  le time hmem := by
    rw [h.activity]
    rcases List.mem_cons.mp hmem with rfl | hmem
    · exact h.created
    · exact h.signs time hmem

/-- A time that is not longer ago than the threshold keeps a session from being stale. -/
theorem Timely.not_isStale {time : Instant} {threshold : Int} (h : Timely s) (hmem : time ∈ s.signs)
    (hwithin : now.ns - time.ns ≤ threshold) : s.isStale now threshold = false := by
  have hle : time.ns ≤ s.lastActivity.ns := h.isLatest.le time (List.mem_cons_of_mem _ hmem)
  have hnot : ¬threshold < now.ns - s.lastActivity.ns := by omega
  unfold isStale
  rw [decide_eq_false hnot, Bool.and_false]

/-- What the last activity tells after calls on a session that was created at `start`. -/
structure ActivityLaws (start : Instant) (s : Session) (rs : List SessionRequest) : Prop where
  updated : (s.after rs).lastActivity = (s.after rs).updatedAt
  latest : (s.after rs).lastActivity.IsLatest (start :: (s.after rs).signs)
  lively : ∀ before r later t, rs = before ++ r :: later → (s.after before).attempt r = .ok t →
    ∀ now threshold, now.ns - r.time.ns ≤ threshold → (s.after rs).isStale now threshold = false

/-- After calls at times that do not go back, refused or not, the last activity is the last update and the
latest of all the times that the session keeps. A session with a change within the threshold is not stale. -/
theorem activity_laws (id : SessionId) (priority : Nat) (start : Instant) (rs : List SessionRequest)
    (htimes : (start :: rs.map (·.time)).Pairwise (· ≤ ·)) :
    ActivityLaws start (create id priority start) rs := by
  have htimely : Timely ((create id priority start).after rs) :=
    timely_after (timely_create id priority start) htimes
  have hcreated : ((create id priority start).after rs).createdAt = start := (grows_after _ rs).createdAt
  have hlatest := htimely.isLatest
  rw [hcreated] at hlatest
  refine ⟨htimely.activity, hlatest, fun before r later t hsplit hr now threshold => ?_⟩
  have hsign : r.time ∈ ((create id priority start).after rs).signs := hsplit ▸ signed_after hr
  exact htimely.not_isStale hsign

/-- Of a start, a checkpoint and a retry that is refused, the checkpoint is the last sign. -/
theorem activity_laws_started :
    ActivityLaws ⟨0⟩ (create .nil 0 ⟨0⟩)
        [⟨⟨0⟩, .apply .start⟩, ⟨⟨30⟩, .checkpoint .null "tick"⟩, ⟨⟨40⟩, .retry⟩] ∧
      ((create .nil 0 ⟨0⟩).after
        [⟨⟨0⟩, .apply .start⟩, ⟨⟨30⟩, .checkpoint .null "tick"⟩, ⟨⟨40⟩, .retry⟩]).isStale ⟨90⟩ 60 = false := by
  have laws := activity_laws .nil 0 ⟨0⟩
    [⟨⟨0⟩, .apply .start⟩, ⟨⟨30⟩, .checkpoint .null "tick"⟩, ⟨⟨40⟩, .retry⟩] (by decide)
  refine ⟨laws, ?_⟩
  exact laws.lively [⟨⟨0⟩, .apply .start⟩] ⟨⟨30⟩, .checkpoint .null "tick"⟩ [⟨⟨40⟩, .retry⟩] _ rfl rfl
    ⟨90⟩ 60 (by decide)

end Session

end FencedSessions
