import FencedSessions.Proofs.Journal
import FencedSessions.Proofs.Tickets

/-! How a client stands to the queue of a key: which ticket is its own, and what it is about to do
with it. `Shift` says all that one step of a client may do to its standing, to the queues and to the
journal; the invariants of the queues are derived from it. -/

namespace FencedSessions

/-- What a caller with a ticket is about to do. -/
inductive Stage where
  /-- To ask for the place of its ticket. -/
  | looking
  /-- To ask for the grant. -/
  | first
  /-- To take another ticket. -/
  | lost
  /-- To wait. -/
  | resting
  /-- To remove its ticket and give up. -/
  | leaving
deriving DecidableEq, Repr

inductive Standing where
  /-- It has nothing to do with a queue. -/
  | out
  /-- About to take a ticket. -/
  | comes (d : Deadlines)
  /-- It has a ticket and gives up at some instant of the clock. -/
  | waits (key : String) (t : Ticket) (giveUp : Instant) (stage : Stage)
  /-- It was granted the key and is about to remove its ticket. -/
  | served (key : String) (t : Ticket) (l : Lease)
  /-- It is about to remove the ticket of a caller that is gone. -/
  | revokes (key : String) (n : Nat)

namespace Standing

/-- The ticket that is the client's own, by its key and its number. -/
def place? : Standing → Option (String × Nat)
  | .out | .comes _ => none
  | .waits key t _ _ | .served key t _ => some (key, t.number)
  | .revokes key n => some (key, n)

/-- The ticket that the client is about to remove. -/
def removal? : Standing → Option (String × Nat)
  | .waits key t _ .leaving | .served key t _ => some (key, t.number)
  | .revokes key n => some (key, n)
  | _ => none

/-- The ticket that is removed in the background if the client is dropped. -/
def revocation? : Standing → Option (String × Nat)
  | .waits _ _ _ .leaving => none
  | .waits key t _ _ => some (key, t.number)
  | _ => none

/-- The leases that the client's acquire was granted. -/
def leases : Standing → List Lease
  | .served _ _ l => [l]
  | _ => []

/-- The standing of a task that removes a ticket, if there is one. -/
def ofRevocation : Option (String × Nat) → Standing
  | some (key, n) => .revokes key n
  | none => .out

end Standing

/-- The ticket that an effect removes. -/
def Effect.revocation? : Effect → Option (String × Nat)
  | .wake .. => none
  | .revoke key n => some (key, n)

namespace Site

theorem release_out (s : Site) (n : Nat) (key : String) (fence : Fence) :
    (s.release n key fence).2.2.filterMap Effect.revocation? = [] := by
  unfold release
  split <;> rfl

/-- A ticket was removed, unless the removal was made to fail. -/
def Swept (s s' : Site) (key : String) (n : Nat) : Prop :=
  Requeued s s' key ((s.keyState key).remove n).2 ∨ (Untouched s s' ∧ s.spares (.remove n) = false)

end Site

open Site

/-- What a step may make of a client's standing, together with the tickets that are to be removed in
the background and with what happens to the client's acquire. -/
inductive Shift (s s' : Site) :
    Standing → Standing → Option (String × Nat) → Option News → Prop where
  | apart (h : Untouched s s') : Shift s s' .out .out none none
  | started {d : Deadlines} (h : Untouched s s') (hd : d.clockGiveUp ≤ d.ticketDeadline) :
    Shift s s' .out (.comes d) none none
  | refused {σ : Standing} {e : Stop} (h : Untouched s s') (hσ : σ.place? = none) :
    Shift s s' σ .out none (some (.failed e))
  | joined {key holder : String} {d : Deadlines} {t : Ticket} {k : KeyState}
    (ht : (s.keyState key).enqueue s.now holder d.ticketDeadline = (t, k))
    (h : Requeued s s' key k) :
    Shift s s' (.comes d) (.waits key t d.clockGiveUp .looking) none (some (.queued key t))
  | looked {key : String} {t : Ticket} {giveUp : Instant} {stage : Stage} {position : Option Nat}
    {k : KeyState} (hk : (s.keyState key).position s.now t.number = (position, k))
    (h : Requeued s s' key k) (first : stage = .first → position = some 0)
    (lost : stage = .lost → position = none ∧ ¬ giveUp ≤ s'.now) :
    Shift s s' (.waits key t giveUp .looking) (.waits key t giveUp stage) none none
  | moved {key : String} {t : Ticket} {giveUp : Instant} {stage stage' : Stage}
    (h : Untouched s s') (first : stage' ≠ .first) (lost : stage' ≠ .lost) :
    Shift s s' (.waits key t giveUp stage) (.waits key t giveUp stage') none none
  | granted {key : String} {t : Ticket} {giveUp : Instant} {l : Lease} (h : Untouched s s') :
    Shift s s' (.waits key t giveUp .first) (.served key t l) none (some (.granted key l))
  | rejoined {key holder : String} {t t' : Ticket} {giveUp deadline : Instant} {stage : Stage}
    {k : KeyState} (ht : (s.keyState key).enqueue s.now holder deadline = (t', k))
    (h : Requeued s s' key k) (first : stage ≠ .first) (lost : stage ≠ .lost) :
    Shift s s' (.waits key t giveUp .lost) (.waits key t' giveUp stage) none
      (some (.queued key t'))
  | abandoned {key : String} {t : Ticket} {giveUp : Instant} {stage : Stage} {e : Stop}
    (h : Untouched s s') :
    Shift s s' (.waits key t giveUp stage) .out (some (key, t.number)) (some (.failed e))
  | took {key : String} {t : Ticket} {l : Lease} (h : Swept s s' key t.number) :
    Shift s s' (.served key t l) .out none (some (.obtained l))
  | left {key : String} {t : Ticket} {giveUp : Instant} {e : Stop} (h : Swept s s' key t.number) :
    Shift s s' (.waits key t giveUp .leaving) .out none (some (.failed e))
  | revoked {key : String} {n : Nat} (h : Swept s s' key n) :
    Shift s s' (.revokes key n) .out none none
  | dropped {σ : Standing} (h : Untouched s s') :
    Shift s s' σ .out σ.revocation? (some .dropped)

namespace AcquirePhase

/-- How a caller stands to the queue of its key. -/
def standing (key : String) : AcquirePhase → Standing
  | .starting | .finished _ => .out
  | .joining d => .comes d
  | .checking w => waits w .looking
  | .granting w => waits w .first
  | .rejoining w => waits w .lost
  | .waiting w _ => waits w .resting
  | .leaving w => waits w .leaving
  | .taking w l => .served key w.ticket l
where
  waits (w : Waiter) (stage : Stage) : Standing := .waits key w.ticket w.deadlines.clockGiveUp stage

theorem standing_result {key : String} {p : AcquirePhase} {result : Except Stop Lease}
    (h : p.result? = some result) : p.standing key = .out := by
  cases p with
  | finished result => rfl
  | _ => cases h

theorem standing_wake (key : String) (p : AcquirePhase) : p.wake.standing key = p.standing key := by
  cases p <;> rfl

/-- A caller that found nothing rests or leaves. -/
theorem shift_settle {s s' : Site} {r : AcquireRequest} {w : Waiter} {key : String} {σ : Standing}
    {news : Option News} (h : ∀ stage, stage ≠ .first → stage ≠ .lost →
      Shift s s' σ (.waits key w.ticket w.deadlines.clockGiveUp stage) none news) :
    Shift s s' σ ((settle s' r w).standing key) none news := by
  unfold settle
  split
  · exact h .leaving nofun nofun
  · exact h .resting nofun nofun

/-- Tickets outlast the clock's timeout. -/
theorem deadlines_le {s : Site} {r : AcquireRequest} {d : Deadlines} (h : deadlines? s r = some d) :
    d.clockGiveUp ≤ d.ticketDeadline := by
  obtain ⟨giveUp, hgiveUp, h⟩ := Option.bind_eq_some_iff.mp h
  obtain ⟨deadline, hdeadline, h⟩ := Option.bind_eq_some_iff.mp h
  cases h
  exact Instant.le_after hdeadline

variable (r : AcquireRequest) (s : Site)

theorem remove_swept {m : MemoryLeases} (hm : s.leases = .memory m) (key : String) (n : Nat) :
    Swept s (s.lease key (.remove n)).2 key n := by
  rcases (lease_called s key (.remove n)).queues hm with ⟨⟨e, he⟩, h⟩ | ⟨a, -, -, h⟩
  · refine Or.inr ⟨h, ?_⟩
    cases hspares : s.spares (.remove n) with
    | false => rfl
    | true =>
      have hanswer : (s.lease key (.remove n)).1 = _ := lease_spared hm hspares rfl
      rw [hanswer] at he
      cases he
  · exact Or.inl h

/-- All that a step of a caller may do. -/
theorem step_shift {m : MemoryLeases} (hm : s.leases = .memory m) (p : AcquirePhase) :
    ∃ rev news, Shift s (p.step r s).2.1 (p.standing r.key) ((p.step r s).1.standing r.key) rev news ∧
      (p.step r s).2.2.filterMap Effect.revocation? = rev.toList ∧ p.news r s = news.toList := by
  cases p with
  | starting =>
    rw [news_eq r s rfl]
    simp only [told, call?, step]
    split
    · exact ⟨none, some _, .refused (.refl s) rfl, rfl, rfl⟩
    · exact ⟨none, none, .started (.refl s) (deadlines_le ‹_›), rfl, rfl⟩
  | joining d =>
    have hc := guarded_called s r.node r.key (.enqueue r.holder d.ticketDeadline)
    rw [news_eq r s rfl]
    simp only [told, call?, step]
    generalize s.guarded r.node r.key (.enqueue r.holder d.ticketDeadline) = called at hc ⊢
    obtain ⟨answer, s'⟩ := called
    rcases hc.queues hm with ⟨⟨e, rfl⟩, h⟩ | ⟨t, rfl, ht, h⟩
    · exact ⟨none, some _, .refused h rfl, rfl, rfl⟩
    · exact ⟨none, some _, .joined (Prod.ext (Except.ok.inj ht) rfl) h, rfl, rfl⟩
  | checking w =>
    have hc := guarded_called s r.node r.key (.position w.ticket.number)
    rw [news_eq r s rfl]
    simp only [told, call?, step]
    generalize s.guarded r.node r.key (.position w.ticket.number) = called at hc ⊢
    obtain ⟨answer, s'⟩ := called
    rcases hc.queues hm with ⟨⟨e, rfl⟩, h⟩ | ⟨position, rfl, hposition, h⟩
    · exact ⟨some _, some _, .abandoned h, rfl, rfl⟩
    · have hlooked := @Shift.looked s s' r.key w.ticket w.deadlines.clockGiveUp
      have hk : (s.keyState r.key).position s.now w.ticket.number = (position, _) :=
        Prod.ext (Except.ok.inj hposition) rfl
      have hsettled : Shift s s' ((checking w).standing r.key) ((settle s' r w).standing r.key)
          none none :=
        shift_settle fun stage hfirst hlost => hlooked hk h (absurd · hfirst) (absurd · hlost)
      rcases position with _ | _ | n
      · by_cases hgiveUp : w.deadlines.clockGiveUp ≤ s'.now
        · simp only [if_pos hgiveUp, result_settle]
          exact ⟨none, none, hsettled, rfl, rfl⟩
        · simp only [if_neg hgiveUp]
          exact ⟨none, none, hlooked hk h (fun he => by cases he) fun _ => ⟨rfl, hgiveUp⟩, rfl, rfl⟩
      · exact ⟨none, none, hlooked hk h (fun _ => rfl) (fun he => by cases he), rfl, rfl⟩
      · exact ⟨none, none, hsettled, rfl, answers_settle ..⟩
  | granting w =>
    have hc := guarded_called s r.node r.key (.grant none r.holder w.ticket.position r.ttl)
    rw [news_eq r s rfl]
    simp only [told, call?, step]
    generalize s.guarded r.node r.key (.grant none r.holder w.ticket.position r.ttl) = called at hc ⊢
    obtain ⟨answer, s'⟩ := called
    have h := hc.untouched hm rfl
    rcases answer with e | _ | l
    · exact ⟨some _, some _, .abandoned h, rfl, rfl⟩
    · exact ⟨none, none, shift_settle fun stage => .moved h, rfl, answers_settle ..⟩
    · exact ⟨none, some _, .granted h, rfl, rfl⟩
  | rejoining w =>
    have hc := guarded_called s r.node r.key (.enqueue r.holder w.deadlines.ticketDeadline)
    rw [news_eq r s rfl]
    simp only [told, call?, step]
    generalize s.guarded r.node r.key (.enqueue r.holder w.deadlines.ticketDeadline) = called at hc ⊢
    obtain ⟨answer, s'⟩ := called
    rcases hc.queues hm with ⟨⟨e, rfl⟩, h⟩ | ⟨t, rfl, ht, h⟩
    · exact ⟨some _, some _, .abandoned h, rfl, rfl⟩
    · have hsettled := shift_settle (r := r) (w := { w with ticket := t }) fun stage =>
        Shift.rejoined (t := w.ticket) (Prod.ext (Except.ok.inj ht) rfl) h
      exact ⟨none, some _, hsettled, rfl, congrArg (_ :: ·) (answers_settle ..)⟩
  | waiting w due => exact ⟨none, none, .moved (.refl s) (by decide) (by decide), rfl, rfl⟩
  | taking w lease => exact ⟨none, some _, .took (remove_swept s hm r.key w.ticket.number), rfl, rfl⟩
  | leaving w => exact ⟨none, some _, .left (remove_swept s hm r.key w.ticket.number), rfl, rfl⟩
  | finished result => exact ⟨none, none, .apart (.refl s), rfl, rfl⟩

end AcquirePhase

/-- A later change that leaves the queues and the clock adds nothing. -/
theorem Shift.then {s s' s'' : Site} {σ σ' : Standing} {rev : Option (String × Nat)}
    {news : Option News} (h : Shift s s' σ σ' rev news) (hu : Untouched s' s'')
    (hnow : s''.now = s'.now) : Shift s s'' σ σ' rev news := by
  have hswept {key : String} {n : Nat} (h : Swept s s' key n) : Swept s s'' key n := by
    rcases h with h | ⟨h, hspares⟩
    · exact Or.inl (h.trans hu)
    · exact Or.inr ⟨h.trans hu, hspares⟩
  cases h with
  | apart h => exact .apart (h.trans hu)
  | started h hd => exact .started (h.trans hu) hd
  | refused h hσ => exact .refused (h.trans hu) hσ
  | joined ht h => exact .joined ht (h.trans hu)
  | looked hk h first lost => exact .looked hk (h.trans hu) first (by rw [hnow]; exact lost)
  | moved h first lost => exact .moved (h.trans hu) first lost
  | granted h => exact .granted (h.trans hu)
  | rejoined ht h first lost => exact .rejoined ht (h.trans hu) first lost
  | abandoned h => exact .abandoned (h.trans hu)
  | took h => exact .took (hswept h)
  | left h => exact .left (hswept h)
  | revoked h => exact .revoked (hswept h)
  | dropped h => exact .dropped (h.trans hu)

namespace StepPhase

def standing (key : String) : StepPhase → Standing
  | .acquiring p => p.standing key
  | _ => .out

theorem standing_out {p : StepPhase} {key : String} (h : ∀ q, p ≠ .acquiring q) :
    p.standing key = .out := by
  cases p with
  | acquiring q => exact absurd rfl (h q)
  | _ => rfl

variable (r : StepRequest) (s : Site)

/-- A step that holds its lease calls no queue. -/
theorem call?_queues {r : StepRequest} {s : Site} {p : StepPhase} {key : String} {op : LeaseOp}
    (h : ∀ q, p ≠ .acquiring q) (hcall : p.call? r s = some (key, op)) : op.queues = false := by
  cases p with
  | acquiring q => exact absurd rfl (h q)
  | orphaning lease o => cases hcall; rfl
  | renewing lease session c => cases hcall; rfl
  | confirming lease session d => cases hcall; rfl
  | releasing lease result => cases hcall; rfl
  | _ => cases hcall

theorem failWith_out (key : String) (lease : Lease) (e : Stop) :
    (failWith lease s e).1.standing key = .out ∧
      (failWith lease s e).2.2.filterMap Effect.revocation? = [] := by
  cases e <;> exact ⟨rfl, rfl⟩

theorem report_out (key : String) (o : Outcome) (d : Option Detail) :
    (report r s o d).1.standing key = .out ∧ (report r s o d).2.2 = [] := by
  unfold report
  split <;> exact ⟨rfl, rfl⟩

theorem proceed_out (key : String) (lease : Lease) (session : Session) :
    (proceed r lease session).standing key = .out := by
  unfold proceed
  split <;> rfl

/-- A step that holds its lease has nothing to do with queues. -/
theorem step_out {p : StepPhase} (key : String) (h : ∀ q, p ≠ .acquiring q) :
    (p.step r s).1.standing key = .out ∧ (p.step r s).2.2.filterMap Effect.revocation? = [] := by
  cases p with
  | acquiring q => exact absurd rfl (h q)
  | loading lease =>
    simp only [step]
    split
    · exact failWith_out ..
    · exact ⟨rfl, rfl⟩
    · split
      · exact ⟨rfl, rfl⟩
      · exact ⟨rfl, rfl⟩
      · exact ⟨proceed_out .., rfl⟩
  | orphaning lease o =>
    simp only [step]
    split
    · exact failWith_out ..
    · exact ⟨rfl, rfl⟩
  | savingOrphan lease o =>
    simp only [step]
    split
    · exact failWith_out ..
    · exact ⟨proceed_out .., rfl⟩
  | renewing lease session c =>
    simp only [step]
    split
    · exact failWith_out ..
    · split <;> exact ⟨rfl, rfl⟩
  | confirming lease session d =>
    simp only [step]
    split
    · exact failWith_out ..
    · exact ⟨rfl, rfl⟩
  | saving lease session d =>
    simp only [step]
    split
    · exact failWith_out ..
    · exact ⟨rfl, rfl⟩
  | releasing lease result =>
    have hwake := release_out s r.node lease.resource lease.fence
    simp only [step]
    split
    · rename_i heq
      rw [heq] at hwake
      exact ⟨rfl, hwake⟩
    · rename_i heq
      rw [heq] at hwake
      obtain ⟨hout, hnone⟩ := report_out r _ key _ _
      exact ⟨hout, by rw [List.filterMap_append, hwake, hnone]; rfl⟩
  | finished o => exact ⟨rfl, rfl⟩

/-- All that a step may do that is about to acquire its lease. -/
theorem acquiring_shift {m : MemoryLeases} (hm : s.leases = .memory m) (p : AcquirePhase) :
    ∃ rev news, Shift s ((acquiring p).step r s).2.1 (p.standing r.id.text)
        (((acquiring p).step r s).1.standing r.id.text) rev news ∧
      ((acquiring p).step r s).2.2.filterMap Effect.revocation? = rev.toList ∧
      p.news (acquireRequest r s) s = news.toList := by
  obtain ⟨rev, news, hshift, hrev, hnews⟩ := p.step_shift (acquireRequest r s) s hm
  change Shift s _ (p.standing r.id.text) _ rev news at hshift
  simp only [step]
  generalize p.step (acquireRequest r s) s = stepped at hshift hrev
  obtain ⟨p', t, fx⟩ := stepped
  refine ⟨rev, news, ?_⟩
  split
  · rename_i heq
    cases heq
    exact ⟨hshift, hrev, hnews⟩
  · rename_i heq
    cases heq
    exact ⟨hshift, hrev, hnews⟩
  · rename_i e _ _ heq
    cases heq
    obtain ⟨hout, hnone⟩ := report_out r t r.id.text (.ofError e) none
    obtain he := emitted_report r t (.ofError e) none
    refine ⟨?_, by rw [List.filterMap_append, hrev, hnone, List.filterMap_nil, List.append_nil],
      hnews⟩
    dsimp only
    rw [hout]
    refine hshift.then he.alike.untouched ?_
    rcases he with he | ⟨e, he⟩
    · rw [he]
    · rw [he]
      rfl
  · rename_i heq
    cases heq
    exact ⟨hshift, hrev, hnews⟩

end StepPhase

namespace Activity

/-- How a client stands to the queues. -/
def standing : Activity → Standing
  | .acquire r p _ => p.standing r.key
  | .series x p => p.standing x.current.id.text
  | .revoke key n => .revokes key n
  | .pause .. | .sleep _ | .join _ | .ended => .out

theorem standing_wake (a : Activity) : a.wake.standing = a.standing := by
  cases a with
  | acquire r p keep => exact p.standing_wake r.key
  | series x p =>
    cases p with
    | acquiring p => exact p.standing_wake x.current.id.text
    | _ => rfl
  | _ => rfl

theorem standing_afterStep (x : Series) (timer : Nat) (o : Outcome) :
    (afterStep x timer o).1.standing = .out := by
  unfold afterStep
  split
  · rfl
  · dsimp only
    split <;> rfl

variable (s : Site)

/-- A client that is not about to call a queue leaves them all. -/
theorem step_untouched {m : MemoryLeases} (hm : s.leases = .memory m) {a : Activity}
    (h : ∀ key op, a.call? s = some (key, op) → op.queues = false) :
    Untouched s (a.step s).2.2.1 := by
  cases hcall : a.call? s with
  | some call =>
    obtain ⟨answer, t, hc, he⟩ := a.step_called s hcall
    exact (hc.untouched hm (h _ _ hcall)).trans he.alike.untouched
  | none =>
    rcases a.step_uncalled s hcall with he | ⟨op, he⟩
    · exact he.alike.untouched
    · exact ((repo_asked s op).untouched hm).trans he.alike.untouched

theorem news_series (x : Series) {p : StepPhase} (h : ∀ q, p ≠ .acquiring q) :
    (series x p).news s = [] := by
  cases p with
  | acquiring q => exact absurd rfl (h q)
  | _ => rfl

/-- A series stands as the step that it is at. -/
theorem series_standing (x : Series) (p : StepPhase) :
    ((series x p).step s).1.standing = (p.step x.current s).1.standing x.current.id.text ∧
      ((series x p).step s).2.2.2 = (p.step x.current s).2.2 := by
  simp only [step]
  generalize p.step x.current s = stepped
  obtain ⟨p', t, fx⟩ := stepped
  cases p' with
  | finished outcome =>
    rcases outcome with e | o
    · exact ⟨rfl, rfl⟩
    · exact ⟨standing_afterStep x t.timer o, rfl⟩
  | _ => exact ⟨rfl, rfl⟩

/-- All that a step of a client may do. -/
theorem step_shift {m : MemoryLeases} (hm : s.leases = .memory m) (a : Activity) :
    ∃ rev news, Shift s (a.step s).2.2.1 a.standing (a.step s).1.standing rev news ∧
      (a.step s).2.2.2.filterMap Effect.revocation? = rev.toList ∧ a.news s = news.toList := by
  cases a with
  | acquire r p keep =>
    obtain ⟨rev, news, hshift, hrev, hnews⟩ := p.step_shift r s hm
    refine ⟨rev, news, ?_, ?_, hnews⟩
    · rw [acquire_site]
      simp only [step]
      split
      · rename_i result hresult
        rw [AcquirePhase.standing_result hresult] at hshift
        exact hshift
      · exact hshift
    · simp only [step]
      split <;> exact hrev
  | series x p =>
    obtain ⟨hstanding, hfx⟩ := series_standing s x p
    rw [series_site, hstanding, hfx]
    by_cases h : ∃ q, p = .acquiring q
    · obtain ⟨q, rfl⟩ := h
      exact StepPhase.acquiring_shift x.current s hm q
    · have hp : ∀ q, p ≠ .acquiring q := fun q hq => h ⟨q, hq⟩
      have hu := step_untouched s hm (a := .series x p) fun key op => StepPhase.call?_queues hp
      obtain ⟨hout, hnone⟩ := StepPhase.step_out x.current s x.current.id.text hp
      rw [series_site] at hu
      rw [hout, hnone, news_series s x hp]
      change ∃ rev news, Shift s _ (p.standing x.current.id.text) _ rev news ∧ _
      rw [StepPhase.standing_out hp]
      exact ⟨none, none, .apart hu, rfl, rfl⟩
  | revoke key n => exact ⟨none, none, .revoked (AcquirePhase.remove_swept s hm key n), rfl, rfl⟩
  | pause x due => exact ⟨none, none, .apart (.refl s), rfl, rfl⟩
  | sleep due => exact ⟨none, none, .apart (.refl s), rfl, rfl⟩
  | join task => exact ⟨none, none, .apart (.refl s), rfl, rfl⟩
  | ended => exact ⟨none, none, .apart (.refl s), rfl, rfl⟩

end Activity

end FencedSessions
