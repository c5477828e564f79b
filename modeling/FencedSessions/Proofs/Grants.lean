import FencedSessions.Proofs.Outcomes
import FencedSessions.Proofs.Releases

/-! How a step comes by its lease, and what it does under it: every lease is granted under the next
fence, a step holds the one that it was granted until it is over, and it saves under no other. -/

namespace FencedSessions

open Site

/-- A granted lease bears the next fence. -/
theorem KeyState.grant_next {k : KeyState} {key : String} {now : Instant} {expected : Option Fence}
    {holder : String} {position : Nat} {ttl : Span} {l : Lease}
    (h : (k.grant key now expected holder position ttl).1 = .ok (some l)) :
    l.fence = k.lastFence.next := by
  unfold grant at h
  split at h
  · cases h
  · dsimp only at h
    split at h
    · cases h
    · cases h
      rfl

namespace AcquirePhase

variable (r : AcquireRequest) (s : Site)

/-- The lease that a caller was granted. -/
def granted? : AcquirePhase → Option Lease
  | .taking _ lease | .finished (.ok lease) => some lease
  | _ => none

theorem granted?_wake (p : AcquirePhase) : p.wake.granted? = p.granted? := by
  cases p <;> rfl

theorem granted?_settle (w : Waiter) : (settle s r w).granted? = none := by
  unfold settle
  split <;> rfl

/-- A caller comes by a lease in one way only. -/
theorem step_granted {p : AcquirePhase} {l : Lease} (h : (p.step r s).1.granted? = some l) :
    p.granted? = some l ∨ ∃ w, p = .granting w ∧
      (s.guarded r.node r.key (.grant none r.holder w.ticket.position r.ttl)).1 = .ok (some l) := by
  cases p with
  | granting w =>
    simp only [step] at h
    generalize hcalled : s.guarded r.node r.key (.grant none r.holder w.ticket.position r.ttl) = called at h
    obtain ⟨answer, t⟩ := called
    rcases answer with e | _ | l'
    · cases h
    · rw [granted?_settle] at h
      cases h
    · cases h
      exact Or.inr ⟨w, rfl, congrArg Prod.fst hcalled⟩
  | taking w lease => exact Or.inl h
  | finished result => exact Or.inl h
  | starting =>
    simp only [step] at h
    split at h <;> cases h
  | joining d =>
    simp only [step] at h
    split at h <;> cases h
  | checking w =>
    simp only [step] at h
    split at h
    · cases h
    · cases h
    · rw [granted?_settle] at h
      cases h
    · split at h
      · rw [granted?_settle] at h
        cases h
      · cases h
  | rejoining w =>
    simp only [step] at h
    split at h
    · cases h
    · rw [granted?_settle] at h
      cases h
  | waiting w due => cases h
  | leaving w => cases h

end AcquirePhase

namespace StepPhase

variable {r : StepRequest} {s : Site} {p : StepPhase} {l : Lease}

/-- The lease that a step was granted and has not released. -/
def held? : StepPhase → Option Lease
  | .acquiring p => p.granted?
  | p => p.lease?

theorem held?_wake (p : StepPhase) : p.wake.held? = p.held? := by
  cases p with
  | acquiring p => exact p.granted?_wake
  | _ => rfl

theorem held?_acquiring (r : StepRequest) (s : Site) (p : AcquirePhase) :
    ((acquiring p).step r s).1.held? = (p.step (acquireRequest r s) s).1.granted? := by
  simp only [step]
  generalize p.step (acquireRequest r s) s = stepped
  obtain ⟨p', t, fx⟩ := stepped
  cases p' with
  | finished result =>
    rcases result with (e | _) | l
    · dsimp only
      rw [report_phase]
      rfl
    · rfl
    · rfl
  | _ => rfl

theorem held?_of_lease (h : p.lease? = some l) : p.held? = some l := by
  cases p with
  | acquiring q =>
    cases q with
    | taking w lease => exact h
    | _ => cases h
  | _ => exact h

/-- A step keeps its lease until it is over. -/
theorem step_held (h : p.held? = some l) (hon : (p.step r s).1.result? = none) :
    (p.step r s).1.held? = some l := by
  have hkept (hlease : p.lease? = some l) : (p.step r s).1.held? = some l := by
    rcases step_holds r s hlease with (hheld | ⟨e, he⟩) | ⟨result, rfl⟩
    · exact held?_of_lease hheld
    · rw [he] at hon
      cases hon
    · rw [releasing_outcome] at hon
      split at hon <;> cases hon
  cases p with
  | acquiring q =>
    rw [held?_acquiring]
    cases q with
    | taking w lease => exact h
    | finished result => exact h
    | _ => cases h
  | _ => exact hkept h

/-- A step that comes by a lease is granted it, under the next fence. -/
theorem granted_held {k : KeyState} (hnone : p.held? = none) (h : (p.step r s).1.held? = some l)
    (hkeeps : s.Keeps r.id.text k) (hfit : s.fits r.id.text (p.call? r s)) :
    l.fence = k.lastFence.next ∧ ((p.step r s).2.1.keyState r.id.text).lastFence = l.fence := by
  have hacquiring : ∃ q, p = .acquiring q := by
    cases p with
    | acquiring q => exact ⟨q, rfl⟩
    | finished o => cases h
    | _ => cases hnone
  obtain ⟨q, rfl⟩ := hacquiring
  rw [held?_acquiring] at h
  rcases AcquirePhase.step_granted _ s h with hgranted | ⟨w, rfl, hanswer⟩
  · rw [show q.granted? = none from hnone] at hgranted
    cases hgranted
  · have hcalled := guarded_called s r.node r.id.text
      (.grant none (acquireRequest r s).holder w.ticket.position (acquireRequest r s).ttl)
    have hsite := acquiring_site r s (.granting w)
    rw [AcquirePhase.step_site] at hsite
    rw [show (s.guarded r.node r.id.text _).1 = _ from hanswer] at hcalled
    obtain ⟨hrun, hkeeps'⟩ := hcalled.written hkeeps hfit rfl
    refine ⟨KeyState.grant_next hrun, ?_⟩
    rw [hsite.alike.keyState]
    exact (congrArg KeyState.lastFence hkeeps'.keyState).trans (KeyState.grant_some hrun).2

/-- A step that has not come by a lease yet has learnt nothing. -/
theorem told_unheld {client : Nat} {threshold : Int} {n : Notes} (h : p.Told client threshold r n)
    (hnone : p.held? = none) (hon : (p.step r s).1.result? = none) : n = {} := by
  cases p with
  | acquiring q => exact h
  | finished o => cases hon
  | _ => cases hnone

/-- A step that makes a save holds a lease, and the save bears its fence. -/
theorem save?_held {client : Nat} {n : Notes} {w : Save} (h : n.save? client r s p = some w) :
    ∃ l, p.held? = some l ∧ w.stored.fence = l.fence := by
  cases p with
  | savingOrphan lease o =>
    obtain ⟨-, rfl⟩ := Notes.accepted_some h
    exact ⟨lease, rfl, rfl⟩
  | saving lease x d =>
    obtain ⟨-, rfl⟩ := Notes.accepted_some h
    exact ⟨lease, rfl, rfl⟩
  | _ => cases h

end StepPhase

end FencedSessions
