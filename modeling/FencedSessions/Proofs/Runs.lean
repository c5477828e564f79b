import FencedSessions.Proofs.Phases

/-! The run of a step that is left to itself, from phase to phase until its outcome. Every step has one,
whatever the calls answer: a caller looks again at most as often as its timeout has milliseconds, and
from its lease on a step only goes forward. -/

namespace FencedSessions

open Site

namespace Site

variable {s : Site} {n : Nat} {key : String}

/-- Calls take no time on the timer. -/
theorem disturbed_timer {α : Type} {call : String} {act : Site → Except Stop α × Site}
    (h : ∀ s, (act s).2.timer = s.timer) (s : Site) : (s.disturbed call act).2.timer = s.timer :=
  disturbed_view (fun _ => rfl) (fun _ _ => rfl) h s

theorem lease_timer (s : Site) (key : String) (op : LeaseOp) : (s.lease key op).2.timer = s.timer := by
  refine disturbed_timer (fun s => ?_) s
  unfold leaseRun
  cases s.leases <;> rfl

theorem guarded_timer (s : Site) (n : Nat) (key : String) (op : LeaseOp) :
    (s.guarded n key op).2.timer = s.timer := by
  unfold guarded
  split
  · rfl
  · rename_i b _
    exact lease_timer (s.setBreaker n b) key op

/-- A site once a millisecond on the timer has come, if there is one to wait for. -/
def waited (s : Site) : Option Nat → Site
  | none => s
  | some due => { s with timer := max s.timer due }

end Site

namespace AcquirePhase

variable {q : AcquireRequest} {s : Site} {p : AcquirePhase}

/-- What other tasks hear of a caller: when it fails, that its place is free or that its ticket is to be
removed. -/
theorem step_effects (q : AcquireRequest) (s : Site) (p : AcquirePhase) :
    (p.step q s).2.2 = [] ∨ (∃ e, (p.step q s).1.result? = some (.error e)) ∧
      ((∃ node key, (p.step q s).2.2 = [.wake node key]) ∨
        ∃ ticket, (p.step q s).2.2 = [.revoke q.key ticket]) := by
  cases p with
  | starting => simp only [step]; split <;> exact .inl rfl
  | joining d => simp only [step]; split <;> exact .inl rfl
  | checking w =>
    simp only [step]
    split
    · exact .inr ⟨⟨_, rfl⟩, .inr ⟨_, rfl⟩⟩
    · exact .inl rfl
    · exact .inl rfl
    · split <;> exact .inl rfl
  | granting w =>
    simp only [step]
    split
    · exact .inr ⟨⟨_, rfl⟩, .inr ⟨_, rfl⟩⟩
    · exact .inl rfl
    · exact .inl rfl
  | rejoining w =>
    simp only [step]
    split
    · exact .inr ⟨⟨_, rfl⟩, .inr ⟨_, rfl⟩⟩
    · exact .inl rfl
  | waiting w due => exact .inl rfl
  | taking w lease => exact .inl rfl
  | leaving w => exact .inr ⟨⟨_, rfl⟩, .inl ⟨_, _, rfl⟩⟩
  | finished result => exact .inl rfl

/-- The time left to a caller on the timer, in nanoseconds. -/
def left (s : Site) : AcquirePhase → Nat
  | .joining d => d.giveUp - s.timer * nanosPerMilli
  | .checking w | .granting w | .rejoining w | .waiting w _ => w.deadlines.giveUp - s.timer * nanosPerMilli
  | .starting | .taking .. | .leaving _ | .finished _ => 0

/-- How far a caller is from its next wait. One that was woken looks once more before it waits. -/
def stage : AcquirePhase → Nat
  | .starting => 12
  | .joining _ => 11
  | .checking w => if w.woken then 10 else 4
  | .granting w | .rejoining w => if w.woken then 9 else 3
  | .waiting w _ => if w.woken then 8 else 5
  | .taking .. | .leaving _ => 1
  | .finished _ => 0

/-- Bounds the steps that a caller still makes. -/
def remaining (s : Site) (p : AcquirePhase) : Nat := 16 * p.left s + p.stage

/-- A wait ends later than it begins. -/
theorem lt_dueAt {d : Deadlines} (h : timedOut s d = false) :
    s.timer < dueAt s q d ∧ 0 < d.giveUp - s.timer * nanosPerMilli := by
  have hleft : s.timer * nanosPerMilli < d.giveUp := by
    have hout := (Bool.or_eq_false_iff.mp h).1
    simpa using hout
  have hpoll : 0 < (s.settings q.node).lock.pollInterval.ns := by
    unfold LockSettings.pollInterval Span.ofMillis
    dsimp only
    omega
  unfold dueAt
  unfold nanosPerMilli at *
  dsimp only
  omega

theorem remaining_congr {s t : Site} (h : t.timer = s.timer) (p : AcquirePhase) :
    p.remaining t = p.remaining s := by
  unfold remaining left
  rw [h]

/-- What a caller has to go once it can go on. -/
def ahead (s : Site) (p : AcquirePhase) : Nat := p.remaining (s.waited p.parkedUntil?)

/-- A caller that looked in vain has less to go, by the time that it waits if by nothing else. -/
theorem settle_ahead (s : Site) (q : AcquireRequest) (w : Waiter) :
    (settle s q w).ahead s < remaining s (.granting w) := by
  unfold settle
  split
  · change 16 * 0 + 1 < 16 * _ + if w.woken then 9 else 3
    split <;> omega
  · rename_i hout
    obtain ⟨hdue, hleft⟩ := lt_dueAt (q := q) (by simpa using hout)
    generalize dueAt s q w.deadlines = due at hdue
    cases hwoken : w.woken with
    | true => simp [ahead, remaining, left, stage, parkedUntil?, waited, hwoken]
    | false =>
      simp only [ahead, remaining, left, stage, parkedUntil?, waited, hwoken, Bool.false_eq_true, if_false]
      unfold nanosPerMilli at *
      omega

theorem settle_ne_starting (s : Site) (q : AcquireRequest) (w : Waiter) : settle s q w ≠ .starting := by
  unfold settle
  split <;> simp

/-- A caller starts once. -/
theorem step_ne_starting (q : AcquireRequest) (s : Site) {p : AcquirePhase} (hp : p ≠ .starting) :
    (p.step q s).1 ≠ .starting := by
  have hsettle := settle_ne_starting
  cases p with
  | starting => exact absurd rfl hp
  | joining d => simp only [step]; split <;> simp
  | checking w =>
    simp only [step]
    split
    · simp [abandonWith]
    · simp
    · simp [hsettle]
    · split <;> simp [hsettle]
  | granting w => simp only [step]; split <;> simp [hsettle, abandonWith]
  | rejoining w => simp only [step]; split <;> simp [hsettle, abandonWith]
  | waiting w due => simp [step]
  | taking w lease => simp [step]
  | leaving w => simp [step]
  | finished result => simp [step]

/-- Every step of a caller that goes on leaves it less to go. -/
theorem step_ahead {p : AcquirePhase} (hp : p ≠ .starting) (h : (p.step q s).1.result? = none) :
    (p.step q s).1.ahead (p.step q s).2.1 < p.remaining s := by
  cases p with
  | starting => exact absurd rfl hp
  | finished result => cases h
  | leaving w => cases h
  | taking w lease => cases h
  | waiting w due =>
    change 16 * left s (.waiting w due) + 4 < 16 * left s (.waiting w due) + if w.woken then 8 else 5
    split <;> omega
  | joining d =>
    have htimer := guarded_timer s q.node q.key (.enqueue q.holder d.ticketDeadline)
    simp only [step] at h ⊢
    generalize s.guarded q.node q.key (.enqueue q.holder d.ticketDeadline) = done at h htimer
    obtain ⟨_ | ticket, t⟩ := done
    · cases h
    · change remaining t (.checking ⟨d, ticket, false⟩) < _
      rw [remaining_congr htimer]
      simp [remaining, left, stage]
  | checking w =>
    have htimer := guarded_timer s q.node q.key (.position w.ticket.number)
    have hfurther : remaining s (.granting w) < remaining s (.checking w) := by
      cases hwoken : w.woken <;> simp [remaining, left, stage, hwoken]
    simp only [step] at h ⊢
    generalize s.guarded q.node q.key (.position w.ticket.number) = done at h htimer
    obtain ⟨_ | _ | _ | place, t⟩ := done
    · cases h
    · dsimp only
      split
      · refine Nat.lt_trans (settle_ahead t q w) ?_
        rw [remaining_congr htimer]
        exact hfurther
      · change remaining t (.granting w) < _
        rw [remaining_congr htimer]
        exact hfurther
    · change remaining t (.granting w) < _
      rw [remaining_congr htimer]
      exact hfurther
    · refine Nat.lt_trans (settle_ahead t q w) ?_
      rw [remaining_congr htimer]
      exact hfurther
  | granting w =>
    have htimer := guarded_timer s q.node q.key (.grant none q.holder w.ticket.position q.ttl)
    simp only [step] at h ⊢
    generalize s.guarded q.node q.key (.grant none q.holder w.ticket.position q.ttl) = done at h htimer
    obtain ⟨_ | _ | lease, t⟩ := done
    · cases h
    · rw [← remaining_congr htimer]
      exact settle_ahead t q w
    · change 16 * 0 + 1 < 16 * _ + if w.woken then 9 else 3
      split <;> omega
  | rejoining w =>
    have htimer := guarded_timer s q.node q.key (.enqueue q.holder w.deadlines.ticketDeadline)
    simp only [step] at h ⊢
    generalize s.guarded q.node q.key (.enqueue q.holder w.deadlines.ticketDeadline) = done at h htimer
    obtain ⟨_ | ticket, t⟩ := done
    · cases h
    · rw [← remaining_congr htimer]
      exact settle_ahead t q { w with ticket }

end AcquirePhase

namespace StepPhase

variable {r : StepRequest} {s t : Site} {p q : StepPhase} {o : Except Stop Outcome}

theorem report_effects (r : StepRequest) (s : Site) (o : Outcome) (detail : Option Detail) :
    (report r s o detail).2.2 = [] := by
  unfold report
  split <;> rfl

theorem failWith_effects (lease : Lease) (s : Site) (e : Stop) : (failWith lease s e).2.2 = [] := by
  cases e <;> rfl

theorem acquiring_effects (r : StepRequest) (s : Site) (p : AcquirePhase) :
    ((acquiring p).step r s).2.2 = (p.step (acquireRequest r s) s).2.2 := by
  simp only [step]
  generalize p.step (acquireRequest r s) s = done
  obtain ⟨p', t, fx⟩ := done
  split
  · simp_all
  · simp_all
  · rename_i heq
    cases heq
    simp [report_effects]
  · simp_all

/-- A step goes on as long as its caller does. -/
theorem acquiring_goes {p : AcquirePhase} (h : (p.step (acquireRequest r s) s).1.result? = none) :
    (acquiring p).step r s = (acquiring (p.step (acquireRequest r s) s).1,
      (p.step (acquireRequest r s) s).2.1, []) := by
  have hquiet : (p.step (acquireRequest r s) s).2.2 = [] := by
    rcases AcquirePhase.step_effects (acquireRequest r s) s p with hquiet | ⟨⟨e, he⟩, -⟩
    · exact hquiet
    · rw [h] at he
      cases he
  simp only [step]
  generalize p.step (acquireRequest r s) s = done at h hquiet
  obtain ⟨p', t, fx⟩ := done
  obtain rfl : fx = [] := hquiet
  cases p' with
  | finished result => cases h
  | starting => rfl
  | joining d => rfl
  | checking w => rfl
  | granting w => rfl
  | rejoining w => rfl
  | waiting w due => rfl
  | taking w lease => rfl
  | leaving w => rfl

theorem acquiring_fails {p : AcquirePhase} {e : Stop}
    (h : (p.step (acquireRequest r s) s).1.result? = some (.error e)) :
    ((acquiring p).step r s).1.result?.isSome := by
  simp only [step]
  generalize p.step (acquireRequest r s) s = done at h
  obtain ⟨p', t, fx⟩ := done
  cases p' with
  | finished result =>
    obtain rfl := Option.some.inj h
    cases e with
    | overflow => rfl
    | error e => simp [report_phase, result?]
  | _ => cases h

theorem releasing_effects (r : StepRequest) (s : Site) (lease : Lease) (result : StepResult) :
    ((releasing lease result).step r s).2.2 = (s.release r.node lease.resource lease.fence).2.2 := by
  simp only [step]
  generalize s.release r.node lease.resource lease.fence = released
  obtain ⟨answer, t, fx⟩ := released
  split
  · simp_all
  · simp_all [report_effects]

theorem releasing_over (r : StepRequest) (s : Site) (lease : Lease) (result : StepResult) :
    ((releasing lease result).step r s).1.result?.isSome := by
  simp only [step]
  generalize s.release r.node lease.resource lease.fence = released
  split
  · rfl
  · simp [report_phase, result?]

/-- What others hear of a step: at most that the key of its session is free, or that a ticket is to be
removed there; and that only when it is over. -/
theorem step_effects (r : StepRequest) (s : Site) (p : StepPhase) :
    (p.step r s).2.2 = [] ∨ (p.step r s).1.result?.isSome ∧
      ((∃ node key, (p.step r s).2.2 = [.wake node key]) ∨
        ∃ ticket, (p.step r s).2.2 = [.revoke r.id.text ticket]) := by
  cases p with
  | acquiring p =>
    rw [acquiring_effects]
    refine (AcquirePhase.step_effects (acquireRequest r s) s p).imp_right fun ⟨⟨e, he⟩, hfx⟩ => ⟨?_, hfx⟩
    exact acquiring_fails he
  | loading lease =>
    simp only [step]
    split
    · exact .inl (failWith_effects ..)
    · exact .inl rfl
    · split <;> exact .inl rfl
  | orphaning lease o =>
    simp only [step]
    split
    · exact .inl (failWith_effects ..)
    · exact .inl rfl
  | savingOrphan lease o =>
    simp only [step]
    split
    · exact .inl (failWith_effects ..)
    · exact .inl rfl
  | renewing lease session c =>
    simp only [step]
    split
    · exact .inl (failWith_effects ..)
    · split <;> exact .inl rfl
  | confirming lease session d =>
    simp only [step]
    split
    · exact .inl (failWith_effects ..)
    · exact .inl rfl
  | saving lease session d =>
    simp only [step]
    split
    · exact .inl (failWith_effects ..)
    · exact .inl rfl
  | releasing lease result =>
    have hover := releasing_over r s lease result
    have heffects := releasing_effects r s lease result
    unfold release at heffects
    split at heffects
    · exact .inr ⟨hover, .inl ⟨_, _, heffects⟩⟩
    · exact .inl heffects
  | finished o => exact .inl rfl

/-- A step that nobody wakes runs from a phase at a site to its outcome. A ticket that it leaves behind is
removed before the run is over. -/
inductive Runs (r : StepRequest) : StepPhase → Site → Except Stop Outcome → Site → Prop
  | ends {p : StepPhase} {s t : Site} {o : Except Stop Outcome} {fx : List Effect}
      (hstep : p.step r s = (.finished o, t, fx)) (hfx : fx = [] ∨ ∃ node key, fx = [.wake node key]) :
      Runs r p s o t
  | drops {p : StepPhase} {s t : Site} {o : Except Stop Outcome} {ticket : Nat}
      (hstep : p.step r s = (.finished o, t, [.revoke r.id.text ticket])) :
      Runs r p s o (t.lease r.id.text (.remove ticket)).2
  | goes {p q : StepPhase} {s t u : Site} {o : Except Stop Outcome} (hstep : p.step r s = (q, t, []))
      (hon : q.result? = none) (rest : Runs r q (t.waited q.parkedUntil?) o u) : Runs r p s o u

/-- A phase has a run if all that it may go on with have one. -/
theorem Runs.next (h : ∀ q t, p.step r s = (q, t, []) → q.result? = none →
    ∃ o u, Runs r q (t.waited q.parkedUntil?) o u) : ∃ o u, Runs r p s o u := by
  have heffects := step_effects r s p
  generalize hstep : p.step r s = done at h heffects
  obtain ⟨q, t, fx⟩ := done
  cases hresult : q.result? with
  | none =>
    rcases heffects with hfx | ⟨hover, -⟩
    · obtain rfl : fx = [] := hfx
      obtain ⟨o, u, hrest⟩ := h q t rfl hresult
      exact ⟨o, u, .goes hstep hresult hrest⟩
    · change q.result?.isSome = true at hover
      rw [hresult] at hover
      cases hover
  | some o =>
    obtain rfl : q = .finished o := by
      cases q with
      | finished o' => exact congrArg finished (Option.some.inj hresult)
      | _ => cases hresult
    rcases heffects with hfx | ⟨-, hwake | ⟨ticket, hrevoke⟩⟩
    · exact ⟨o, t, .ends hstep (.inl hfx)⟩
    · exact ⟨o, t, .ends hstep (.inr hwake)⟩
    · obtain rfl : fx = [.revoke r.id.text ticket] := hrevoke
      exact ⟨o, _, .drops hstep⟩

/-- How far a step with its lease is from its end. -/
def stage : StepPhase → Nat
  | .acquiring _ => 8
  | .loading _ => 7
  | .orphaning .. => 6
  | .savingOrphan .. => 5
  | .renewing .. => 4
  | .confirming .. => 3
  | .saving .. => 2
  | .releasing .. => 1
  | .finished _ => 0

theorem failWith_stage (lease : Lease) (s : Site) (e : Stop) : (failWith lease s e).1.stage < 2 := by
  cases e <;> simp [failWith, stage]

theorem proceed_stage (r : StepRequest) (lease : Lease) (x : Session) : (proceed r lease x).stage < 5 := by
  unfold proceed
  split <;> simp [stage]

/-- With its lease a step only goes forward. -/
theorem step_stage (hpos : 0 < p.stage) (hleased : p.stage < 8) : (p.step r s).1.stage < p.stage := by
  have hfail (lease : Lease) (s : Site) (e : Stop) {n : Nat} (hn : 2 ≤ n) : (failWith lease s e).1.stage < n :=
    Nat.lt_of_lt_of_le (failWith_stage lease s e) hn
  cases p with
  | acquiring p => exact absurd hleased (Nat.lt_irrefl 8)
  | finished o => exact absurd hpos (Nat.lt_irrefl 0)
  | loading lease =>
    simp only [step]
    split
    · exact hfail _ _ _ (by simp [stage])
    · simp [stage]
    · split
      · simp [stage]
      · simp [stage]
      · exact Nat.lt_of_lt_of_le (proceed_stage ..) (by simp [stage])
  | orphaning lease o =>
    simp only [step]
    split
    · exact hfail _ _ _ (by simp [stage])
    · simp [stage]
  | savingOrphan lease o =>
    simp only [step]
    split
    · exact hfail _ _ _ (by simp [stage])
    · exact proceed_stage ..
  | renewing lease x c =>
    simp only [step]
    split
    · exact hfail _ _ _ (by simp [stage])
    · split <;> simp [stage]
  | confirming lease x d =>
    simp only [step]
    split
    · exact hfail _ _ _ (by simp [stage])
    · simp [stage]
  | saving lease x d =>
    simp only [step]
    split
    · exact failWith_stage ..
    · simp [stage]
  | releasing lease result =>
    have hover := releasing_over r s lease result
    generalize ((releasing lease result).step r s).1 = q at hover
    cases q with
    | finished o => simp [stage]
    | _ => cases hover

/-- With its lease a step runs to its end. -/
theorem Runs.of_stage (h : p.stage < 8) (s : Site) : ∃ o u, Runs r p s o u := by
  induction hn : p.stage using Nat.strongRecOn generalizing p s with
  | ind n ih =>
    subst hn
    by_cases hover : p.stage = 0
    · cases p with
      | finished o => exact ⟨o, s, .ends (step_finished r s o) (.inl rfl)⟩
      | _ => cases hover
    · refine Runs.next fun q t hstep hon => ?_
      have hforward := step_stage (r := r) (s := s) (Nat.pos_of_ne_zero hover) h
      rw [hstep] at hforward
      exact ih q.stage hforward (Nat.lt_trans hforward h) _ rfl

/-- A caller that is through leaves the step with its lease, or over. -/
theorem acquiring_through {a : AcquirePhase} {result : Except Stop Lease}
    (h : (a.step (acquireRequest r s) s).1.result? = some result) : ((acquiring a).step r s).1.stage < 8 := by
  simp only [step]
  generalize a.step (acquireRequest r s) s = done at h
  obtain ⟨a', t, fx⟩ := done
  cases a' with
  | finished result' =>
    obtain rfl := Option.some.inj h
    rcases result' with (e | _) | lease
    · simp [report_phase, stage]
    · simp [stage]
    · simp [stage]
  | _ => cases h

/-- A step runs to its end from each phase of its caller. -/
theorem Runs.of_caller {a : AcquirePhase} (ha : a ≠ .starting) (s : Site) :
    ∃ o u, Runs r (acquiring a) s o u := by
  induction hn : a.remaining s using Nat.strongRecOn generalizing a s with
  | ind n ih =>
    subst hn
    refine Runs.next fun q t hstep hon => ?_
    cases hresult : (a.step (acquireRequest r s) s).1.result? with
    | some result =>
      have hthrough := acquiring_through hresult
      rw [hstep] at hthrough
      exact Runs.of_stage hthrough _
    | none =>
      have hahead := AcquirePhase.step_ahead ha hresult
      rw [acquiring_goes hresult] at hstep
      cases hstep
      exact ih _ hahead (AcquirePhase.step_ne_starting _ _ ha) _ rfl

/-- Every step runs to its end. -/
theorem Runs.total (r : StepRequest) (s : Site) : ∃ o u, Runs r .initial s o u := by
  refine Runs.next fun q t hstep hon => ?_
  cases hd : AcquirePhase.deadlines? s (acquireRequest r s) with
  | none =>
    simp only [initial, step, AcquirePhase.step, hd] at hstep
    cases hstep
    cases hon
  | some d =>
    simp only [initial, step, AcquirePhase.step, hd] at hstep
    cases hstep
    exact Runs.of_caller (by simp) _

end StepPhase

end FencedSessions
