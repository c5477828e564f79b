import FencedSessions.Proofs.Fields
import FencedSessions.Proofs.Outcomes

/-! What the steps tell the observers, and how it is counted. A step tells that it has saved its session
as abandoned when it has, and at its end what has become of it; a step that answers has told just that. -/

namespace FencedSessions

open Site

namespace Counters

/-- All that was counted by status. -/
def total : List (String × Nat) → Nat
  | [] => 0
  | (_, n) :: rest => n + total rest

/-- Inserting a count changes the total by the new count less the one that it replaces. -/
theorem total_insertField {counts : List (String × Nat)} (h : Json.Ascending counts) (name : String)
    (n : Nat) :
    total (Json.insertField name n counts) + (counts.lookup name).getD 0 = total counts + n := by
  induction counts with
  | nil => simp [Json.insertField, total]
  | cons f rest ih =>
    obtain ⟨hfirst, hrest⟩ := List.pairwise_cons.mp h
    obtain ⟨name', n'⟩ := f
    have ih := ih hrest
    by_cases hname : name = name'
    · subst hname
      simp only [Json.insertField, if_pos, total, List.lookup_cons_self, Option.getD_some]
      omega
    · have hlookup : ((name', n') :: rest).lookup name = rest.lookup name := by
        simp only [List.lookup_cons, beq_false_of_ne hname]
      rw [hlookup]
      by_cases hlt : name < name'
      · have habsent := Json.lookup_absent fun f hf => String.lt_trans hlt (hfirst f hf)
        simp only [Json.insertField, if_neg hname, if_pos hlt, total, habsent, Option.getD_none]
        omega
      · simp only [Json.insertField, if_neg hname, if_neg hlt, total]
        omega

/-- The counts by status are sorted, and add up to what was applied. -/
structure Balanced (k : Counters) : Prop where
  sorted : Json.Ascending k.byStatus
  statuses : total k.byStatus = k.applied

theorem Balanced.count {k : Counters} (h : k.Balanced) (e : Event) : (k.count e).Balanced := by
  cases e with
  | applied id event status version time =>
    refine ⟨Json.ascending_insertField h.sorted, ?_⟩
    have htotal := total_insertField h.sorted status.text ((k.byStatus.lookup status.text).getD 0 + 1)
    have hstatuses := h.statuses
    simp only [Counters.count, bump]
    omega
  | created id time => exact ⟨h.sorted, h.statuses⟩
  | checkpointed id sequence version time => exact ⟨h.sorted, h.statuses⟩
  | rejected id reason time => exact ⟨h.sorted, h.statuses⟩
  | conflict id reason time => exact ⟨h.sorted, h.statuses⟩
  | notFound id time => exact ⟨h.sorted, h.statuses⟩
  | transient id reason time => exact ⟨h.sorted, h.statuses⟩
  | rehydrated id previous quietMs time => exact ⟨h.sorted, h.statuses⟩

/-- Counts the event, if there is one. -/
def tell (k : Counters) : Option Event → Counters
  | none => k
  | some e => k.count e

theorem Balanced.tell {k : Counters} (h : k.Balanced) (e : Option Event) : (k.tell e).Balanced := by
  cases e with
  | none => exact h
  | some e => exact h.count e

end Counters

/-- Whether a change moves the session to a status. -/
def Change.moves : Change → Bool
  | .transition .. => true
  | .checkpoint .. => false

def Detail.moves : Detail → Bool
  | .transition _ => true
  | .checkpoint _ => false

theorem Change.moves_apply {c : Change} {x y : Session} {time : Instant} {d : Detail}
    (h : c.apply x time = .ok (y, d)) : d.moves = c.moves := by
  cases c with
  | transition event payload =>
    unfold Change.apply at h
    cases hu : x.apply event time with
    | error e =>
      simp only [hu] at h
      cases h
    | ok u =>
      simp only [hu] at h
      cases payload <;> cases h <;> rfl
  | checkpoint payload reason =>
    cases h
    rfl

/-- What a step tells at its end fits what it was asked for: a success tells of the change, if one was
asked for, and nothing else tells of one. -/
def Reported (r : StepRequest) (o : Outcome) : Option Detail → Prop
  | some d => o.isSuccess ∧ ∃ c, r.change = some c ∧ d.moves = c.moves
  | none => o.isSuccess → r.change = none

theorem reported_failure {r : StepRequest} {o : Outcome} (h : o.isSuccess = false) :
    Reported r o none := by
  intro hsuccess
  rw [h] at hsuccess
  cases hsuccess

theorem Outcome.ofError_failure (e : Error) : (Outcome.ofError e).isSuccess = false := by
  cases e <;> rfl

namespace StepPhase

variable {client : Nat} {threshold : Int} {r : StepRequest} {n : Notes} {s : Site} {p : StepPhase}

/-- A step that is not over will tell what fits. -/
def Reporting (r : StepRequest) : StepPhase → Prop
  | .releasing _ (.ok (o, detail)) => Reported r o detail
  | .finished _ => False
  | _ => True

theorem report_counters (o : Outcome) (detail : Option Detail) :
    (report r s o detail).2.1.counters = s.counters.tell (event? r.id s.now o detail) := by
  unfold report
  split
  · rename_i h
    rw [h]
    rfl
  · rename_i h
    rw [h]
    rfl

theorem renewLease_counters (r : StepRequest) (s : Site) (lease : Lease) :
    (renewLease r s lease).2.counters = s.counters := by
  unfold renewLease
  rw [renew_site]
  exact (guarded_called ..).frame.counters

theorem failWith_reporting {lease : Lease} {e : Stop} (hon : (failWith lease s e).1.result? = none) :
    (failWith lease s e).1.Reporting r := by
  cases e with
  | overflow => cases hon
  | error e => exact trivial

theorem proceed_reporting (lease : Lease) (x : Session) : (proceed r lease x).Reporting r := by
  unfold proceed
  split
  · rename_i hnone
    exact fun _ => hnone
  · exact trivial

/-- A step that was refused or has failed tells of no change. -/
theorem step_reporting (htold : p.Told client threshold r n) (hon : (p.step r s).1.result? = none) :
    (p.step r s).1.Reporting r := by
  cases p with
  | acquiring q =>
    simp only [step] at hon ⊢
    split at hon
    · exact trivial
    · cases hon
    · rw [report_phase] at hon
      cases hon
    · exact trivial
  | loading lease =>
    simp only [step] at hon ⊢
    split at hon
    · exact failWith_reporting hon
    · exact reported_failure rfl
    · split
      · exact trivial
      · exact trivial
      · exact proceed_reporting lease _
  | orphaning lease o =>
    simp only [step] at hon ⊢
    split at hon
    · exact failWith_reporting hon
    · exact trivial
  | savingOrphan lease o =>
    simp only [step] at hon ⊢
    split at hon
    · exact failWith_reporting hon
    · exact proceed_reporting lease _
  | renewing lease x c =>
    simp only [step] at hon ⊢
    split at hon
    · exact failWith_reporting hon
    · split
      · exact reported_failure rfl
      · exact trivial
  | confirming lease x d =>
    simp only [step] at hon ⊢
    split at hon
    · exact failWith_reporting hon
    · exact trivial
  | saving lease x d =>
    obtain ⟨-, b, c, hc, -, ha⟩ := htold
    simp only [step] at hon ⊢
    split at hon
    · exact failWith_reporting hon
    · exact ⟨rfl, c, hc, Change.moves_apply ha⟩
  | releasing lease result =>
    rw [releasing_outcome] at hon
    split at hon <;> cases hon
  | finished o => cases hon

/-- What the next call of a step tells the observers. -/
inductive Tells (r : StepRequest) (s : Site) (p : StepPhase) : Prop where
  | nothing (counters : (p.step r s).2.1.counters = s.counters)
    (unanswered : ∀ o, (p.step r s).1.result? ≠ some (.ok o))
    (saved : ∀ client n w, Notes.save? n client r s p = some w → w.purpose = .change)
  | rehydrated (previous : Status) (quietMs : Int) (time : Instant)
    (counters : (p.step r s).2.1.counters = s.counters.count (.rehydrated r.id previous quietMs time))
    (on : (p.step r s).1.result? = none)
    (saved : ∀ client n, ∃ w, Notes.save? n client r s p = some w ∧ w.purpose = .orphaning)
  | answered (o : Outcome) (detail : Option Detail) (time : Instant)
    (counters : (p.step r s).2.1.counters = s.counters.tell (event? r.id time o detail))
    (answer : (p.step r s).1.result? = some (.ok o)) (reported : Reported r o detail)
    (unsaved : ∀ client n, Notes.save? n client r s p = none)

theorem failWith_unanswered (lease : Lease) (s : Site) (e : Stop) (o : Outcome) :
    (failWith lease s e).1.result? ≠ some (.ok o) := by
  cases e <;> exact fun h => by cases h

theorem proceed_unanswered (r : StepRequest) (lease : Lease) (x : Session) :
    (proceed r lease x).result? = none := by
  unfold proceed
  split <;> rfl

/-- A step that ends with a report has told just what it answers. -/
theorem tells_reported {t : Site} {o : Outcome} {detail : Option Detail}
    (hcounters : t.counters = s.counters) (hreported : Reported r o detail)
    (hphase : (p.step r s).1 = (report r t o detail).1)
    (hsite : (p.step r s).2.1 = (report r t o detail).2.1)
    (hunsaved : ∀ client n, Notes.save? n client r s p = none) : p.Tells r s := by
  refine .answered o detail t.now ?_ ?_ hreported hunsaved
  · rw [hsite, report_counters, hcounters]
  · rw [hphase, report_phase]
    rfl

/-- A step is over before it has its lease if the lock turns it away; otherwise nothing is told. -/
theorem acquiring_tells (q : AcquirePhase) : (acquiring q).Tells r s := by
  have hcounters : (q.step (acquireRequest r s) s).2.1.counters = s.counters := by
    have hcalled := q.step_called (acquireRequest r s) s
    split at hcalled
    · rw [hcalled]
    · obtain ⟨answer, hcalled⟩ := hcalled
      exact hcalled.frame.counters
  have hstep : (∃ t e, t.counters = s.counters ∧
        ((acquiring q).step r s).1 = (report r t (.ofError e) none).1 ∧
        ((acquiring q).step r s).2.1 = (report r t (.ofError e) none).2.1) ∨
      ((acquiring q).step r s).2.1.counters = s.counters ∧
        ∀ o, ((acquiring q).step r s).1.result? ≠ some (.ok o) := by
    simp only [step]
    generalize q.step (acquireRequest r s) s = acquired at hcounters
    obtain ⟨q', t, fx⟩ := acquired
    split
    · rename_i heq
      cases heq
      exact Or.inr ⟨hcounters, fun o h => by cases h⟩
    · rename_i heq
      cases heq
      exact Or.inr ⟨hcounters, fun o h => by cases h⟩
    · rename_i e t' fx' heq
      cases heq
      exact Or.inl ⟨t, e, hcounters, rfl, rfl⟩
    · rename_i heq
      cases heq
      exact Or.inr ⟨hcounters, fun o h => by cases h⟩
  rcases hstep with ⟨t, e, ht, hphase, hsite⟩ | ⟨hsame, hunanswered⟩
  · exact tells_reported ht (reported_failure (Outcome.ofError_failure e)) hphase hsite
      fun client n => rfl
  · exact .nothing hsame hunanswered fun client n w hw => by cases hw

/-- A session that was saved as abandoned is told of at once. -/
theorem savingOrphan_tells (lease : Lease) (o : Orphaning) : (savingOrphan lease o).Tells r s := by
  have hcounters := (repo_asked s (.save o.session o.session.version lease.fence)).frame.counters
  cases hanswer : (s.repo (.save o.session o.session.version lease.fence)).1 with
  | error e =>
    have hstep : ((savingOrphan lease o).step r s).1 = (failWith lease
          (s.repo (.save o.session o.session.version lease.fence)).2 e).1 ∧
        ((savingOrphan lease o).step r s).2.1 =
          (s.repo (.save o.session o.session.version lease.fence)).2 := by
      simp only [step]
      generalize s.repo (.save o.session o.session.version lease.fence) = asked at hanswer
      obtain ⟨answer, t⟩ := asked
      cases hanswer
      exact ⟨rfl, failWith_site _ lease e⟩
    refine .nothing (by rw [hstep.2, hcounters]) (fun o' => ?_) fun client n w hw => ?_
    · rw [hstep.1]
      exact failWith_unanswered lease _ e o'
    · simp only [Notes.save?, hanswer, Notes.save?.accepted] at hw
      cases hw
  | ok version =>
    have hstep : ((savingOrphan lease o).step r s).1 =
          proceed r lease { o.session with version } ∧
        ((savingOrphan lease o).step r s).2.1 =
          (s.repo (.save o.session o.session.version lease.fence)).2.emit
            (.rehydrated r.id o.previous o.quietMs o.time) := by
      simp only [step]
      generalize s.repo (.save o.session o.session.version lease.fence) = asked at hanswer
      obtain ⟨answer, t⟩ := asked
      cases hanswer
      exact ⟨rfl, rfl⟩
    refine .rehydrated o.previous o.quietMs o.time ?_ ?_ fun client n => ?_
    · rw [hstep.2]
      exact congrArg (fun k => k.count (.rehydrated r.id o.previous o.quietMs o.time)) hcounters
    · rw [hstep.1]
      exact proceed_unanswered r lease _
    · simp only [Notes.save?, hanswer, Notes.save?.accepted]
      exact ⟨_, rfl, rfl⟩

/-- A step that has its answer tells it when it has released its lock, unless time overflows. -/
theorem releasing_tells {lease : Lease} {result : StepResult}
    (h : (releasing lease result).Reporting r) : (releasing lease result).Tells r s := by
  have hcounters : (s.release r.node lease.resource lease.fence).2.1.counters = s.counters := by
    rw [release_site]
    exact (unguarded_called ..).frame.counters
  have hstep : (∃ t o detail, t.counters = s.counters ∧ Reported r o detail ∧
        ((releasing lease result).step r s).1 = (report r t o detail).1 ∧
        ((releasing lease result).step r s).2.1 = (report r t o detail).2.1) ∨
      ((releasing lease result).step r s).2.1.counters = s.counters ∧
        ∀ o, ((releasing lease result).step r s).1.result? ≠ some (.ok o) := by
    simp only [step]
    generalize s.release r.node lease.resource lease.fence = released at hcounters
    obtain ⟨answer, t, fx⟩ := released
    split
    · rename_i heq
      cases heq
      exact Or.inr ⟨hcounters, fun o h => by cases h⟩
    · rename_i heq
      cases heq
      cases result with
      | ok told => exact Or.inl ⟨t, told.1, told.2, hcounters, h, rfl, rfl⟩
      | error e =>
        exact Or.inl ⟨t, .ofError e, none, hcounters, reported_failure (Outcome.ofError_failure e),
          rfl, rfl⟩
  rcases hstep with ⟨t, o, detail, ht, hreported, hphase, hsite⟩ | ⟨hsame, hunanswered⟩
  · exact tells_reported ht hreported hphase hsite fun client n => rfl
  · exact .nothing hsame hunanswered fun client n w hw => by cases hw

theorem step_tells (h : p.Reporting r) : p.Tells r s := by
  cases p with
  | acquiring q => exact acquiring_tells q
  | loading lease =>
    refine .nothing ?_ (fun o => ?_) (fun client n w hw => by cases hw)
    · rw [loading_site]
      exact (repo_asked s (.load r.id)).frame.counters
    · simp only [step]
      split
      · exact failWith_unanswered lease _ _ o
      · exact fun h => by cases h
      · split
        · exact fun h => by cases h
        · exact fun h => by cases h
        · rw [proceed_unanswered]
          exact fun h => by cases h
  | orphaning lease o =>
    refine .nothing ?_ (fun o => ?_) (fun client n w hw => by cases hw)
    · rw [orphaning_site]
      exact renewLease_counters r s lease
    · simp only [step]
      split
      · exact failWith_unanswered lease _ _ o
      · exact fun h => by cases h
  | savingOrphan lease o => exact savingOrphan_tells lease o
  | renewing lease x c =>
    refine .nothing ?_ (fun o => ?_) (fun client n w hw => by cases hw)
    · rw [renewing_site]
      exact renewLease_counters r s lease
    · simp only [step]
      split
      · exact failWith_unanswered lease _ _ o
      · split <;> exact fun h => by cases h
  | confirming lease x d =>
    refine .nothing ?_ (fun o => ?_) (fun client n w hw => by cases hw)
    · rw [confirming_site]
      exact renewLease_counters r s lease
    · simp only [step]
      split
      · exact failWith_unanswered lease _ _ o
      · exact fun h => by cases h
  | saving lease x d =>
    refine .nothing ?_ (fun o => ?_) (fun client n w hw => ?_)
    · rw [saving_site]
      exact (repo_asked s (.save x x.version lease.fence)).frame.counters
    · simp only [step]
      split
      · exact failWith_unanswered lease _ _ o
      · exact fun h => by cases h
    · rw [(Notes.accepted_some hw).2]
  | releasing lease result => exact releasing_tells h
  | finished o => cases h

end StepPhase

end FencedSessions
