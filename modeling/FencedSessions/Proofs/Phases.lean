import FencedSessions.Orchestration.Step
import FencedSessions.Proofs.Calls

/-! The one call that each phase makes. What a step does to its site is the effect of that call, and
of an event that it may emit afterwards. -/

namespace FencedSessions

open Site

namespace AcquirePhase

/-- The call to the lease store that a caller makes next. -/
def call? (r : AcquireRequest) : AcquirePhase → Option LeaseOp
  | .joining d => some (.enqueue r.holder d.ticketDeadline)
  | .checking w => some (.position w.ticket.number)
  | .granting w => some (.grant none r.holder w.ticket.position r.ttl)
  | .rejoining w => some (.enqueue r.holder w.deadlines.ticketDeadline)
  | .taking w _ | .leaving w => some (.remove w.ticket.number)
  | .starting | .waiting .. | .finished _ => none

variable (r : AcquireRequest) (s : Site)

theorem step_site (p : AcquirePhase) :
    (p.step r s).2.1 = match p with
      | .joining d => (s.guarded r.node r.key (.enqueue r.holder d.ticketDeadline)).2
      | .checking w => (s.guarded r.node r.key (.position w.ticket.number)).2
      | .granting w => (s.guarded r.node r.key (.grant none r.holder w.ticket.position r.ttl)).2
      | .rejoining w => (s.guarded r.node r.key (.enqueue r.holder w.deadlines.ticketDeadline)).2
      | .taking w _ | .leaving w => (s.lease r.key (.remove w.ticket.number)).2
      | .starting | .waiting .. | .finished _ => s := by
  cases p with
  | starting => simp only [step]; split <;> rfl
  | joining d => simp only [step]; split <;> simp_all
  | checking w =>
    simp only [step]
    split
    · simp_all
    · simp_all
    · simp_all
    · split <;> simp_all
  | granting w => simp only [step]; split <;> simp_all
  | rejoining w => simp only [step]; split <;> simp_all
  | waiting w due => rfl
  | taking w lease => rfl
  | leaving w => rfl
  | finished result => rfl

theorem step_called (p : AcquirePhase) :
    match p.call? r with
    | none => (p.step r s).2.1 = s
    | some op => ∃ answer, Called s r.key op answer (p.step r s).2.1 := by
  have hsite := step_site r s p
  cases p with
  | starting => exact hsite
  | waiting w due => exact hsite
  | finished result => exact hsite
  | joining d => rw [hsite]; exact ⟨_, guarded_called ..⟩
  | checking w => rw [hsite]; exact ⟨_, guarded_called ..⟩
  | granting w => rw [hsite]; exact ⟨_, guarded_called ..⟩
  | rejoining w => rw [hsite]; exact ⟨_, guarded_called ..⟩
  | taking w lease => rw [hsite]; exact ⟨_, lease_called ..⟩
  | leaving w => rw [hsite]; exact ⟨_, lease_called ..⟩

end AcquirePhase

/-- The same site, or the same after one more event. -/
def Site.Emitted (s s' : Site) : Prop := s' = s ∨ ∃ e, s' = s.emit e

theorem Site.Emitted.alike {s s' : Site} (h : Emitted s s') : Alike s s' := by
  rcases h with rfl | ⟨e, rfl⟩ <;> exact ⟨rfl, rfl, rfl, fun _ => rfl⟩

namespace StepPhase

/-- The call to the lease store that a step makes next, and the key it is about. -/
def call? (r : StepRequest) (s : Site) : StepPhase → Option (String × LeaseOp)
  | .acquiring p => (p.call? (acquireRequest r s)).map fun op => (r.id.text, op)
  | .orphaning lease _ | .renewing lease _ _ | .confirming lease _ _ =>
    some (lease.resource, .extend lease.fence (s.settings r.node).lock.leaseDuration)
  | .releasing lease _ => some (lease.resource, .delete lease.fence)
  | .loading _ | .savingOrphan .. | .saving .. | .finished _ => none

/-- The call to the repository that a step makes next. -/
def ask? (r : StepRequest) : StepPhase → Option RepositoryOp
  | .loading _ => some (.load r.id)
  | .savingOrphan lease o => some (.save o.session o.session.version lease.fence)
  | .saving lease session _ => some (.save session session.version lease.fence)
  | .acquiring _ | .orphaning .. | .renewing .. | .confirming .. | .releasing .. | .finished _ => none

variable (r : StepRequest) (s : Site)

theorem emitted_report (o : Outcome) (detail : Option Detail) :
    Emitted s (report r s o detail).2.1 := by
  unfold report
  split
  · exact Or.inl rfl
  · exact Or.inr ⟨_, rfl⟩

theorem report_phase (o : Outcome) (detail : Option Detail) :
    (report r s o detail).1 = .finished (.ok o) := by
  unfold report
  split <;> rfl

theorem failWith_site (lease : Lease) (e : Stop) : (failWith lease s e).2.1 = s := by
  cases e <;> rfl

theorem acquiring_site (p : AcquirePhase) :
    Emitted (p.step (acquireRequest r s) s).2.1 ((acquiring p).step r s).2.1 := by
  simp only [step]
  generalize p.step (acquireRequest r s) s = next
  obtain ⟨p', t, fx⟩ := next
  split
  · simp_all [Emitted]
  · simp_all [Emitted]
  · rename_i heq
    cases heq
    exact emitted_report r t _ none
  · simp_all [Emitted]

theorem loading_site (lease : Lease) :
    ((loading lease).step r s).2.1 = (s.repo (.load r.id)).2 := by
  simp only [step]
  split
  · simp_all [failWith_site]
  · simp_all
  · split <;> simp_all

theorem orphaning_site (lease : Lease) (o : Orphaning) :
    ((orphaning lease o).step r s).2.1 = (renewLease r s lease).2 := by
  simp only [step]
  split <;> simp_all [failWith_site]

theorem savingOrphan_site (lease : Lease) (o : Orphaning) :
    Emitted (s.repo (.save o.session o.session.version lease.fence)).2
      ((savingOrphan lease o).step r s).2.1 := by
  simp only [step]
  split
  · simp_all [failWith_site, Emitted]
  · rename_i heq
    rw [heq]
    exact Or.inr ⟨_, rfl⟩

theorem renewing_site (lease : Lease) (session : Session) (c : Change) :
    ((renewing lease session c).step r s).2.1 = (renewLease r s lease).2 := by
  simp only [step]
  split
  · simp_all [failWith_site]
  · split <;> simp_all

theorem confirming_site (lease : Lease) (session : Session) (d : Detail) :
    ((confirming lease session d).step r s).2.1 = (renewLease r s lease).2 := by
  simp only [step]
  split <;> simp_all [failWith_site]

theorem saving_site (lease : Lease) (session : Session) (d : Detail) :
    ((saving lease session d).step r s).2.1 =
      (s.repo (.save session session.version lease.fence)).2 := by
  simp only [step]
  split <;> simp_all [failWith_site]

theorem releasing_site (lease : Lease) (result : StepResult) :
    Emitted (s.release r.node lease.resource lease.fence).2.1
      ((releasing lease result).step r s).2.1 := by
  simp only [step]
  split
  · simp_all [Emitted]
  · rename_i heq
    rw [heq]
    exact emitted_report r _ _ _

/-- What a step does when it is about to call the lease store. -/
theorem step_called {p : StepPhase} {key : String} {op : LeaseOp}
    (h : p.call? r s = some (key, op)) :
    ∃ answer t, Called s key op answer t ∧ Emitted t (p.step r s).2.1 := by
  have hrenew (lease : Lease) : ∃ answer, Called s lease.resource
      (.extend lease.fence (s.settings r.node).lock.leaseDuration) answer (renewLease r s lease).2 := by
    unfold renewLease
    rw [renew_site]
    exact ⟨_, guarded_called ..⟩
  cases p with
  | acquiring p =>
    obtain ⟨op', hop, he⟩ := Option.map_eq_some_iff.mp h
    cases he
    have hc := p.step_called (acquireRequest r s) s
    rw [hop] at hc
    obtain ⟨answer, hc⟩ := hc
    exact ⟨answer, _, hc, acquiring_site r s p⟩
  | orphaning lease o =>
    cases h
    obtain ⟨answer, hc⟩ := hrenew lease
    exact ⟨answer, _, hc, Or.inl (orphaning_site r s lease o)⟩
  | renewing lease session c =>
    cases h
    obtain ⟨answer, hc⟩ := hrenew lease
    exact ⟨answer, _, hc, Or.inl (renewing_site r s lease session c)⟩
  | confirming lease session d =>
    cases h
    obtain ⟨answer, hc⟩ := hrenew lease
    exact ⟨answer, _, hc, Or.inl (confirming_site r s lease session d)⟩
  | releasing lease result =>
    cases h
    have he := releasing_site r s lease result
    rw [release_site] at he
    exact ⟨_, _, unguarded_called .., he⟩
  | loading lease => cases h
  | savingOrphan lease o => cases h
  | saving lease session d => cases h
  | finished o => cases h

/-- What a step does when it is about to call the repository. -/
theorem step_asked {p : StepPhase} {op : RepositoryOp} (h : p.ask? r = some op) :
    Emitted (s.repo op).2 (p.step r s).2.1 := by
  cases p with
  | loading lease => cases h; exact Or.inl (loading_site r s lease)
  | savingOrphan lease o => cases h; exact savingOrphan_site r s lease o
  | saving lease session d => cases h; exact Or.inl (saving_site r s lease session d)
  | acquiring p => cases h
  | orphaning lease o => cases h
  | renewing lease session c => cases h
  | confirming lease session d => cases h
  | releasing lease result => cases h
  | finished o => cases h

/-- What a step does when it is about to call neither. -/
theorem step_silent {p : StepPhase} (h : p.call? r s = none) (h' : p.ask? r = none) :
    Emitted s (p.step r s).2.1 := by
  cases p with
  | acquiring p =>
    have hc := p.step_called (acquireRequest r s) s
    rw [Option.map_eq_none_iff.mp h] at hc
    have he := acquiring_site r s p
    rw [hc] at he
    exact he
  | finished o => exact Or.inl rfl
  | loading lease => cases h'
  | savingOrphan lease o => cases h'
  | saving lease session d => cases h'
  | orphaning lease o => cases h
  | renewing lease session c => cases h
  | confirming lease session d => cases h
  | releasing lease result => cases h

end StepPhase

end FencedSessions
