import FencedSessions.Proofs.Quiet
import FencedSessions.Proofs.Reference

/-! The phases of a step that is alone with its session: it queues, is first at once, is granted the next
fence, and every renewal finds its lease as it was. -/

namespace FencedSessions

namespace KeyState

variable {k : KeyState} {key holder : String} {now deadline expiry : Instant} {ttl : Span} {l : Lease}

/-- The ticket of a holder that queues alone. -/
def onlyTicket (k : KeyState) (holder : String) (deadline : Instant) : Ticket :=
  ⟨k.lastTicket + 1, holder, deadline, 0⟩

/-- The state while only this ticket is queued. -/
def queued (k : KeyState) (holder : String) (deadline : Instant) : KeyState :=
  { k with tickets := [k.onlyTicket holder deadline], lastTicket := k.lastTicket + 1 }

/-- The state once the holder of the ticket is granted the lease, while the ticket is still queued. -/
def granted (k : KeyState) (l : Lease) (deadline : Instant) : KeyState :=
  { k.queued l.holder deadline with lease := some l, lastFence := l.fence }

/-- The state while the lease is recorded and nobody is queued. -/
def held (k : KeyState) (l : Lease) : KeyState := ⟨some l, l.fence, [], k.lastTicket + 1⟩

theorem enqueue_alone (h : (k.prune now).tickets = []) (key holder : String) (deadline : Instant) :
    k.run key now (.enqueue holder deadline) =
      (.ok (k.onlyTicket holder deadline), k.queued holder deadline) := by
  simp only [run, enqueue, h, List.length_nil, List.nil_append]
  rfl

theorem position_alone (h : now < deadline) (key : String) :
    (k.queued holder deadline).run key now (.position (k.onlyTicket holder deadline).number) =
      (.ok (some 0), k.queued holder deadline) := by
  have hprune : (k.queued holder deadline).prune now = k.queued holder deadline := by
    simp [prune, queued, onlyTicket, h]
  simp only [run, position, hprune]
  simp [queued, onlyTicket]

theorem grant_alone (hfree : k.liveLease now = none) (hexpiry : now.after? ttl = some l.expiresAt)
    (hfence : l.fence = k.lastFence.next) (hplace : l.position = 0) (deadline : Instant) :
    (k.queued l.holder deadline).run l.resource now
        (.grant none l.holder (k.onlyTicket l.holder deadline).position ttl) =
      (.ok (some l), k.granted l deadline) := by
  obtain ⟨resource, holder, fence, expiry, position⟩ := l
  obtain rfl : fence = k.lastFence.next := hfence
  obtain rfl : position = 0 := hplace
  have hfree' : (k.queued holder deadline).liveLease now = none := hfree
  simp only [run, grant, hfree', Option.map_none, ne_eq, not_true, if_false, hexpiry]
  rfl

theorem remove_alone (k : KeyState) (l : Lease) (deadline : Instant) (key : String) (now : Instant) :
    (k.granted l deadline).run key now (.remove (k.onlyTicket l.holder deadline).number) =
      (.ok true, k.held l) := by
  simp [run, remove, granted, queued, onlyTicket, held]

theorem extend_held (hlive : now < l.expiresAt) (hexpiry : now.after? ttl = some l.expiresAt)
    (key : String) : (k.held l).run key now (.extend l.fence ttl) = (.ok (some l), k.held l) := by
  simp [run, extend, held, Lease.liveAt, hlive, hexpiry]

theorem delete_held (hlive : now < l.expiresAt) (key : String) :
    (k.held l).run key now (.delete l.fence) =
      (.ok true, ⟨none, l.fence, [], k.lastTicket + 1⟩) := by
  simp [run, delete, held, Lease.liveAt, hlive]

end KeyState

/-- The time after which a positive span has passed is later. -/
theorem Instant.lt_after {t u : Instant} {ms : Nat} (h : 0 < ms) (hu : t.after? (.ofMillis ms) = some u) :
    t < u := by
  have hns := shift?_ns hu
  have hoffset : 0 < (Span.ofMillis ms).offset := by
    unfold Span.offset Span.ofMillis Span.century
    split
    · dsimp only
      omega
    · decide
  exact Instant.lt_def.mpr (by omega)

namespace Site

/-- A site in the middle of a step that is alone with its session since the site was `s₀`: no time has
passed, nothing disturbs its calls, and the stores hold this state of the key and these records. -/
structure Amid (s₀ : Site) (r : StepRequest) (n : Nat) (k : KeyState) (m : MemoryRepository) (s : Site) :
    Prop where
  kept : Kept r.node s₀ s
  quiet : s.Quiet r.node
  provides : s.Provides r.id n k m

/-- A lease that is good for the whole step, and comes back unchanged when it is renewed. -/
structure Lasting (s₀ : Site) (r : StepRequest) (l : Lease) : Prop where
  resource : l.resource = r.id.text
  live : s₀.now < l.expiresAt
  renewal : s₀.now.after? (s₀.settings r.node).lock.leaseDuration = some l.expiresAt

namespace Amid

variable {s₀ s t s' : Site} {r : StepRequest} {n n' : Nat} {k k' : KeyState} {m m' : MemoryRepository}
  {l : Lease}

theorem after (h : Amid s₀ r n k m s) (hkept : Kept r.node s t) (hsteady : Steady r.node t s')
    (hprovides : t.Provides r.id n' k' m') : Amid s₀ r n' k' m' s' where
  kept := h.kept.trans (hkept.trans hsteady.kept)
  quiet := hsteady.quiet (hkept.quiet h.quiet)
  provides := hprovides.alike hsteady.toAlike

theorem emit (h : Amid s₀ r n k m s) (e : Event) : Amid s₀ r n k m (s.emit e) :=
  h.after (.refl r.node s) (steady_emit s r.node e) h.provides

section Leases

variable (h : Amid s₀ r (n + 1) k m s) {op : LeaseOp} {a : op.Answer} (hrange : op.inRange s₀.now)
  (hrun : k.run r.id.text s₀.now op = (.ok a, k')) (hwrites : op.writes a)
include h hrange hrun hwrites

/-- An operation on the key is answered from its state. -/
theorem runs : ∃ t, s.leaseRun r.id.text op = (.ok a, t) ∧ Kept r.node s t ∧ t.Provides r.id n k' m := by
  rw [← h.kept.now] at hrange hrun
  obtain ⟨hanswer, hprovides⟩ :=
    h.provides.leaseRun hrange (congrArg Prod.fst hrun) hwrites
  rw [hrun] at hprovides
  exact ⟨_, Prod.ext hanswer rfl, leaseRun_kept s r.node r.id.text op, hprovides⟩

variable (hcall : op.callName ∈ stepCalls)
include hcall

theorem lease : ∃ s', s.lease r.id.text op = (.ok a, s') ∧ Amid s₀ r n k' m s' := by
  obtain ⟨t, ht, hkept, hprovides⟩ := h.runs hrange hrun hwrites
  obtain ⟨s', hs', hsteady⟩ := lease_served (h.quiet.undisturbed _ hcall) ht r.node
  exact ⟨s', hs', h.after hkept hsteady hprovides⟩

theorem unguarded : ∃ s', s.unguarded r.node r.id.text op = (.ok a, s') ∧ Amid s₀ r n k' m s' := by
  obtain ⟨t, ht, hkept, hprovides⟩ := h.runs hrange hrun hwrites
  obtain ⟨s', hs', hsteady⟩ := unguarded_served (h.quiet.undisturbed _ hcall) ht r.node
  exact ⟨s', hs', h.after hkept hsteady hprovides⟩

theorem guarded : ∃ s', s.guarded r.node r.id.text op = (.ok a, s') ∧ Amid s₀ r n k' m s' := by
  obtain ⟨t, ht, hkept, hprovides⟩ := h.runs hrange hrun hwrites
  obtain ⟨s', hs', hsteady⟩ := guarded_served h.quiet hcall ht
  exact ⟨s', hs', h.after hkept hsteady hprovides⟩

end Leases

/-- Renewing the lease leaves it as it is. -/
theorem renews (h : Amid s₀ r (n + 1) (k.held l) m s) (hl : Lasting s₀ r l) :
    ∃ s', StepPhase.renewLease r s l = (.ok l, s') ∧ Amid s₀ r n (k.held l) m s' := by
  have hrange : (LeaseOp.extend l.fence (s₀.settings r.node).lock.leaseDuration).inRange s₀.now :=
    Option.isSome_of_eq_some hl.renewal
  obtain ⟨s', hs', hamid⟩ := h.guarded hrange
    (KeyState.extend_held hl.live hl.renewal r.id.text) rfl (by simp [stepCalls, LeaseOp.callName])
  refine ⟨s', ?_, hamid⟩
  unfold StepPhase.renewLease renew
  rw [hl.resource, h.kept.settings, hs']

theorem releases (h : Amid s₀ r (n + 1) (k.held l) m s) (hl : Lasting s₀ r l) :
    ∃ s', s.release r.node l.resource l.fence = (.ok (), s', [.wake r.node l.resource]) ∧
      Amid s₀ r n ⟨none, l.fence, [], k.lastTicket + 1⟩ m s' := by
  have hrange : (LeaseOp.delete l.fence).inRange s₀.now := rfl
  obtain ⟨s', hs', hamid⟩ := h.unguarded hrange
    (KeyState.delete_held hl.live r.id.text) rfl (by simp [stepCalls, LeaseOp.callName])
  refine ⟨s', ?_, hamid⟩
  unfold release
  rw [hl.resource, hs']

theorem loads (h : Amid s₀ r n k m s)
    (hread : s₀.sessionDirectory? ≠ none → ∀ old, m.find? r.id = some old → old.session.Shallow) :
    ∃ s', s.repo (.load r.id) = (.ok ((m.find? r.id).map (·.session)), s') ∧ Amid s₀ r n k m s' := by
  rw [← h.kept.directory] at hread
  obtain ⟨s', hs', hsteady⟩ :=
    repo_served (h.quiet.undisturbed _ (by simp [stepCalls, RepositoryOp.callName])) (h.provides.load hread) r.node
  exact ⟨s', hs', h.after (.refl r.node s) hsteady h.provides⟩

theorem saves (h : Amid s₀ r n k m s) {x : Session} {old : StoredSession} {fence : Fence}
    (hid : x.id = r.id) (hold : m.find? r.id = some old) (hversion : old.session.version = x.version)
    (hfence : old.fence ≤ fence) (hadmits : s₀.Admits (.saved x x.version fence))
    (hread : s₀.sessionDirectory? ≠ none → old.session.Shallow) :
    ∃ s', s.repo (.save x x.version fence) = (.ok (x.version + 1), s') ∧
      Amid s₀ r n k (m.put r.id (.saved x x.version fence)) s' := by
  unfold Admits at hadmits
  rw [← h.kept.directory] at hadmits hread
  obtain ⟨hanswer, hprovides⟩ := h.provides.save hid hold hversion hfence hadmits hread
  obtain ⟨s', hs', hsteady⟩ :=
    repo_served (h.quiet.undisturbed _ (by simp [stepCalls, RepositoryOp.callName])) (Prod.ext hanswer rfl) r.node
  exact ⟨s', hs', h.after (repositoryRun_kept s r.node _) hsteady hprovides⟩

end Amid

end Site

/-- A ticket is in the queue for a while after its holder has begun. -/
theorem AcquirePhase.deadlines?_later {s : Site} {q : AcquireRequest} {d : Deadlines}
    (h : deadlines? s q = some d) : s.now < d.ticketDeadline ∧ d.ticketDeadline.Held := by
  unfold deadlines? at h
  simp only [Option.bind_eq_bind, Option.bind_eq_some_iff] at h
  obtain ⟨giveUp, hgiveUp, deadline, hdeadline, hd⟩ := h
  cases hd
  have hle := Instant.le_after hgiveUp
  have hlt := Instant.lt_after (Nat.lt_of_lt_of_le Nat.zero_lt_one (Nat.le_max_right _ _)) hdeadline
  exact ⟨Int.lt_of_le_of_lt hle hlt, Instant.held_after hdeadline⟩

/-- The marker of an orphaned session leaves the reader room. -/
theorem Session.Shallow.orphan {x : Session} (h : x.Shallow) (now : Instant) (fence : Fence) :
    (x.orphan now fence).Shallow where
  checkpoints := by
    intro c hc
    rcases List.mem_append.mp hc with hc | hc
    · exact h.checkpoints c hc
    · have hmarker : (Orphaning.marker x now fence).depth = 1 := rfl
      rw [List.mem_singleton.mp hc]
      change (Orphaning.marker x now fence).depth < 124
      rw [hmarker]
      decide
  metadata := h.metadata

namespace StepPhase

open Site

/-- So many steps in a row, after each of which the step can go on at once, and none of which concerns
another task. -/
inductive Leads (r : StepRequest) : Nat → StepPhase → Site → StepPhase → Site → Prop
  | refl (p : StepPhase) (s : Site) : Leads r 0 p s p s
  | step {n : Nat} {p q z : StepPhase} {s t u : Site} (h : p.step r s = (q, t, []))
    (hon : q.result? = none ∧ q.parkedUntil? = none) (rest : Leads r n q t z u) : Leads r (n + 1) p s z u

variable {r : StepRequest} {p q z : StepPhase} {s s₀ t u : Site} {i j n : Nat} {k : KeyState}
  {m : MemoryRepository} {l : Lease}

theorem Leads.trans (h : Leads r i p s q t) (h' : Leads r j q t z u) : Leads r (i + j) p s z u := by
  induction h with
  | refl p s => rwa [Nat.zero_add]
  | @step n _ _ _ _ _ _ h hon rest ih =>
    rw [Nat.add_right_comm]
    exact .step h hon (ih h')

theorem Leads.single (h : p.step r s = (q, t, [])) (hon : q.result? = none ∧ q.parkedUntil? = none) :
    Leads r 1 p s q t := .step h hon (.refl q t)

theorem acquireRequest_amid (h : Amid s₀ r n k m s) : acquireRequest r s = acquireRequest r s₀ := by
  unfold acquireRequest
  rw [h.kept.settings]

theorem step_acquiring {a b : AcquirePhase} (h : a.step (acquireRequest r s) s = (b, t, []))
    (hb : b.result? = none) : (StepPhase.acquiring a).step r s = (.acquiring b, t, []) := by
  simp only [StepPhase.step, h]
  cases b with
  | finished result => cases hb
  | _ => rfl

section Lock

variable {d : Deadlines}

/-- The holder's name at a site. -/
def holder (s : Site) (r : StepRequest) : String := (s.settings r.node).orchestrator.holder

/-- A caller that is alone in the queue. -/
def waiter (k : KeyState) (s : Site) (r : StepRequest) (d : Deadlines) : Waiter :=
  ⟨d, k.onlyTicket (holder s r) d.ticketDeadline, false⟩

theorem joins (h : Amid s₀ r (n + 1) k m s) (halone : (k.prune s₀.now).tickets = [])
    (hheld : d.ticketDeadline.Held) :
    ∃ t, (StepPhase.acquiring (.joining d)).step r s =
        (.acquiring (.checking (waiter k s₀ r d)), t, []) ∧
      Amid s₀ r n (k.queued (holder s₀ r) d.ticketDeadline) m t := by
  have hrange : (LeaseOp.enqueue (holder s₀ r) d.ticketDeadline).inRange s₀.now := decide_eq_true hheld
  obtain ⟨t, ht, hamid⟩ := h.guarded hrange
    (KeyState.enqueue_alone halone r.id.text (holder s₀ r) d.ticketDeadline) rfl
    (by simp [stepCalls, LeaseOp.callName])
  refine ⟨t, step_acquiring ?_ rfl, hamid⟩
  unfold holder at ht
  rw [acquireRequest_amid h]
  simp only [AcquirePhase.step, acquireRequest, ht]
  rfl

theorem checks (h : Amid s₀ r (n + 1) (k.queued (holder s₀ r) d.ticketDeadline) m s)
    (hlater : s₀.now < d.ticketDeadline) :
    ∃ t, (StepPhase.acquiring (.checking (waiter k s₀ r d))).step r s =
        (.acquiring (.granting (waiter k s₀ r d)), t, []) ∧
      Amid s₀ r n (k.queued (holder s₀ r) d.ticketDeadline) m t := by
  have hrange : (LeaseOp.position (waiter k s₀ r d).ticket.number).inRange s₀.now := rfl
  obtain ⟨t, ht, hamid⟩ := h.guarded hrange
    (KeyState.position_alone hlater r.id.text) rfl (by simp [stepCalls, LeaseOp.callName])
  refine ⟨t, step_acquiring ?_ rfl, hamid⟩
  simp only [AcquirePhase.step, acquireRequest, ht]

theorem asks (h : Amid s₀ r (n + 1) (k.queued (holder s₀ r) d.ticketDeadline) m s)
    (hfree : k.liveLease s₀.now = none) (hl : Lasting s₀ r l) (hholder : l.holder = holder s₀ r)
    (hfence : l.fence = k.lastFence.next) (hplace : l.position = 0) :
    ∃ t, (StepPhase.acquiring (.granting (waiter k s₀ r d))).step r s =
        (.acquiring (.taking (waiter k s₀ r d) l), t, []) ∧
      Amid s₀ r n (k.granted l d.ticketDeadline) m t := by
  have hgrant := KeyState.grant_alone hfree hl.renewal hfence hplace d.ticketDeadline
  rw [hl.resource, hholder] at hgrant
  have hrange : (LeaseOp.grant none (holder s₀ r) (waiter k s₀ r d).ticket.position
      (s₀.settings r.node).lock.leaseDuration).inRange s₀.now := by
    simp only [LeaseOp.inRange, waiter, KeyState.onlyTicket, hl.renewal]
    rfl
  obtain ⟨t, ht, hamid⟩ := h.guarded hrange hgrant rfl (by simp [stepCalls, LeaseOp.callName])
  refine ⟨t, step_acquiring ?_ rfl, hamid⟩
  unfold holder at ht
  rw [acquireRequest_amid h]
  simp only [AcquirePhase.step, acquireRequest, ht]

theorem takes (h : Amid s₀ r (n + 1) (k.granted l d.ticketDeadline) m s)
    (hholder : l.holder = holder s₀ r) :
    ∃ t, (StepPhase.acquiring (.taking (waiter k s₀ r d) l)).step r s = (.loading l, t, []) ∧
      Amid s₀ r n (k.held l) m t := by
  have hremove := KeyState.remove_alone k l d.ticketDeadline r.id.text s₀.now
  rw [hholder] at hremove
  have hrange : (LeaseOp.remove (waiter k s₀ r d).ticket.number).inRange s₀.now := rfl
  obtain ⟨t, ht, hamid⟩ := h.lease hrange hremove rfl
    (by simp [stepCalls, LeaseOp.callName])
  refine ⟨t, ?_, hamid⟩
  simp only [StepPhase.step, AcquirePhase.step, acquireRequest, ht]

/-- A step that is alone takes its lock at once. -/
theorem acquires (h : Amid s₀ r (n + 4) k m s₀)
    (hfree : k.liveLease s₀.now = none) (halone : (k.prune s₀.now).tickets = [])
    (hdeadlines : (AcquirePhase.deadlines? s₀ (acquireRequest r s₀)).isSome)
    (hexpiry : (s₀.now.after? (s₀.settings r.node).lock.leaseDuration).isSome)
    (hduration : 0 < (s₀.settings r.node).lock.leaseDurationMs) :
    ∃ l s, Leads r 5 .initial s₀ (.loading l) s ∧ Amid s₀ r n (k.held l) m s ∧ Lasting s₀ r l ∧
      l.fence = k.lastFence.next := by
  obtain ⟨d, hd⟩ := Option.isSome_iff_exists.mp hdeadlines
  obtain ⟨expiry, hexpiry⟩ := Option.isSome_iff_exists.mp hexpiry
  obtain ⟨hlater, hheld⟩ := AcquirePhase.deadlines?_later hd
  obtain ⟨l, hl⟩ : ∃ l : Lease, l = ⟨r.id.text, holder s₀ r, k.lastFence.next, expiry, 0⟩ := ⟨_, rfl⟩
  have hlasting : Lasting s₀ r l := by
    rw [hl]
    exact ⟨rfl, Instant.lt_after hduration hexpiry, hexpiry⟩
  have hholder : l.holder = holder s₀ r := by rw [hl]
  have hfence : l.fence = k.lastFence.next := by rw [hl]
  have hstart : AcquirePhase.step (acquireRequest r s₀) s₀ .starting = (.joining d, s₀, []) := by
    simp only [AcquirePhase.step, hd]
  obtain ⟨s₁, hjoin, h₁⟩ := joins h halone hheld
  obtain ⟨s₂, hcheck, h₂⟩ := checks h₁ hlater
  obtain ⟨s₃, hask, h₃⟩ := asks h₂ hfree hlasting hholder hfence (by rw [hl])
  obtain ⟨s₄, htake, h₄⟩ := takes h₃ hholder
  exact ⟨l, s₄, .step (step_acquiring hstart rfl) ⟨rfl, rfl⟩ <| .step hjoin ⟨rfl, rfl⟩ <|
    .step hcheck ⟨rfl, rfl⟩ <| .step hask ⟨rfl, rfl⟩ <| .single htake ⟨rfl, rfl⟩, h₄, hlasting, hfence⟩

end Lock

/-- The records that are written of a session, one after another. -/
def written (r : StepRequest) (m : MemoryRepository) (records : List StoredSession) : MemoryRepository :=
  records.foldl (fun m record => m.put r.id record) m

/-- Within so many steps the phase comes to the release of the lock with the outcome of an upshot, when its
writes are made. -/
def ComesTo (s₀ : Site) (r : StepRequest) (k : KeyState) (l : Lease) (m : MemoryRepository) (bound : Nat)
    (p : StepPhase) (s : Site) (upshot : Upshot) : Prop :=
  ∃ j i detail t, j ≤ bound ∧ Leads r j p s (.releasing l (.ok (upshot.outcome, detail))) t ∧
    Amid s₀ r (i + 1) (k.held l) (written r m upshot.writes) t

theorem ComesTo.after {bound : Nat} {upshot : Upshot} (h : ComesTo s₀ r k l m bound q t upshot)
    (hleads : Leads r j p s q t) : ComesTo s₀ r k l m (j + bound) p s upshot := by
  obtain ⟨j', i, detail, u, hj, hleads', hamid⟩ := h
  exact ⟨j + j', i, detail, u, Nat.add_le_add_left hj j, hleads.trans hleads', hamid⟩

theorem ComesTo.mono {bound bound' : Nat} {upshot : Upshot} (h : ComesTo s₀ r k l m bound p s upshot)
    (hle : bound ≤ bound') : ComesTo s₀ r k l m bound' p s upshot := by
  obtain ⟨j, i, detail, u, hj, hleads, hamid⟩ := h
  exact ⟨j, i, detail, u, Nat.le_trans hj hle, hleads, hamid⟩

/-- A stored session that the holder of a lease can load and save. -/
structure Open (s₀ : Site) (r : StepRequest) (l : Lease) (old : StoredSession) : Prop where
  named : old.session.id = r.id
  fenced : old.fence ≤ l.fence
  readable : s₀.sessionDirectory? ≠ none → old.session.Shallow

variable {old : StoredSession}

/-- What a step does to change a session. -/
theorem changes (h : Amid s₀ r (n + 3) (k.held l) m s) (hl : Lasting s₀ r l)
    (hold : m.find? r.id = some old) (hopen : Open s₀ r l old) (c : Change)
    (hadmits : ∀ record ∈ (Upshot.ofChange old.session c s₀.now l.fence).writes, s₀.Admits record) :
    ComesTo s₀ r k l m 3 (.renewing l old.session c) s
      (Upshot.ofChange old.session c s₀.now l.fence) := by
  generalize hupshot : Upshot.ofChange old.session c s₀.now l.fence = upshot at hadmits ⊢
  have hresult := c.apply_result old.session s₀.now
  obtain ⟨s₁, hs₁, h₁⟩ := h.renews hl
  cases happly : c.apply old.session s₀.now with
  | error refusal =>
    rw [happly] at hresult
    have hrefused : upshot = ⟨.invalidTransition refusal.message, []⟩ := by
      simp only [← hupshot, Upshot.ofChange, ← hresult]
      rfl
    have hstep : (StepPhase.renewing l old.session c).step r s =
        (.releasing l (.ok (.invalidTransition refusal.message, none)), s₁, []) := by
      simp only [StepPhase.step, hs₁, h₁.kept.now, happly]
    rw [hrefused]
    exact ⟨1, n + 1, none, s₁, by decide, .single hstep ⟨rfl, rfl⟩, h₁⟩
  | ok changed =>
    obtain ⟨x, detail⟩ := changed
    rw [happly] at hresult
    have hversion := Change.version_apply happly
    have hid : x.id = r.id := (Change.grows_apply happly).id.trans hopen.named
    have hchanged : upshot = ⟨.success x.status (x.version + 1), [.saved x x.version l.fence]⟩ := by
      simp only [← hupshot, Upshot.ofChange, ← hresult, ← hversion]
      rfl
    have hadmit : s₀.Admits (.saved x x.version l.fence) := hadmits _ (by simp [hchanged])
    obtain ⟨s₂, hs₂, h₂⟩ := h₁.renews hl
    obtain ⟨s₃, hs₃, h₃⟩ := h₂.saves hid hold hversion.symm hopen.fenced hadmit hopen.readable
    have hrenew : (StepPhase.renewing l old.session c).step r s = (.confirming l x detail, s₁, []) := by
      simp only [StepPhase.step, hs₁, h₁.kept.now, happly]
    have hconfirm : (StepPhase.confirming l x detail).step r s₁ = (.saving l x detail, s₂, []) := by
      simp only [StepPhase.step, hs₂]
    have hsave : (StepPhase.saving l x detail).step r s₂ =
        (.releasing l (.ok (.success x.status (x.version + 1), some detail)), s₃, []) := by
      simp only [StepPhase.step, hs₃]
    rw [hchanged]
    exact ⟨3, n, some detail, s₃, by decide, .step hrenew ⟨rfl, rfl⟩ <|
      .step hconfirm ⟨rfl, rfl⟩ <| .single hsave ⟨rfl, rfl⟩, h₃⟩

/-- What a step does once the session is found, and orphaned if it had to be. -/
theorem proceeds (h : Amid s₀ r (n + 3) (k.held l) m s) (hl : Lasting s₀ r l)
    (hold : m.find? r.id = some old) (hopen : Open s₀ r l old)
    (hadmits : ∀ record ∈ (Upshot.ofFound old.session r.change s₀.now l.fence).writes,
      s₀.Admits record) :
    ComesTo s₀ r k l m 3 (proceed r l old.session) s
      (Upshot.ofFound old.session r.change s₀.now l.fence) := by
  unfold proceed
  cases hchange : r.change with
  | none => exact ⟨0, n + 2, none, s, by decide, .refl _ s, h⟩
  | some c =>
    rw [hchange] at hadmits
    exact changes h hl hold hopen c hadmits

theorem proceed_on (r : StepRequest) (l : Lease) (x : Session) :
    (proceed r l x).result? = none ∧ (proceed r l x).parkedUntil? = none := by
  unfold proceed
  split <;> exact ⟨rfl, rfl⟩

/-- An orphaned session is put down at the next version before anything else. -/
theorem orphans (h : Amid s₀ r (n + 1) (k.held l) m s) (hl : Lasting s₀ r l)
    (hold : m.find? r.id = some old) (hopen : Open s₀ r l old) (o : Orphaning)
    (hid : o.session.id = r.id) (hversion : old.session.version = o.session.version)
    (hadmits : s₀.Admits (.saved o.session o.session.version l.fence)) :
    ∃ t, Leads r 2 (.orphaning l o) s
        (proceed r l { o.session with version := o.session.version + 1 }) t ∧
      Amid s₀ r n (k.held l) (m.put r.id (.saved o.session o.session.version l.fence)) t := by
  obtain ⟨s₁, hs₁, h₁⟩ := h.renews hl
  obtain ⟨s₂, hs₂, h₂⟩ := h₁.saves hid hold hversion hopen.fenced hadmits hopen.readable
  have hrenew : (StepPhase.orphaning l o).step r s = (.savingOrphan l o, s₁, []) := by
    simp only [StepPhase.step, hs₁]
  have hsave : (StepPhase.savingOrphan l o).step r s₁ =
      (proceed r l { o.session with version := o.session.version + 1 },
        s₂.emit (.rehydrated r.id o.previous o.quietMs o.time), []) := by
    simp only [StepPhase.step, hs₂]
  exact ⟨_, .step hrenew ⟨rfl, rfl⟩ (.single hsave (proceed_on r l _)), h₂.emit _⟩

/-- What a step does once it finds an abandoned session. -/
theorem rehydrates (h : Amid s₀ r (n + 4) (k.held l) m s) (hl : Lasting s₀ r l)
    (hold : m.find? r.id = some old) (hopen : Open s₀ r l old) (o : Orphaning)
    (ho : o.session = old.session.orphan s₀.now l.fence) :
    let saved : StoredSession := .saved o.session o.session.version l.fence
    let rest := Upshot.ofFound saved.session r.change s₀.now l.fence
    (∀ record ∈ saved :: rest.writes, s₀.Admits record) →
      ComesTo s₀ r k l m 5 (.orphaning l o) s { rest with writes := saved :: rest.writes } := by
  intro saved rest hadmits
  have hid : o.session.id = r.id := by
    rw [ho]
    exact hopen.named
  have hversion : old.session.version = o.session.version := by
    rw [ho]
    rfl
  have hshallow (hd : s₀.sessionDirectory? ≠ none) : saved.session.Shallow := by
    have horphan := (hopen.readable hd).orphan s₀.now l.fence
    rw [← ho] at horphan
    exact ⟨horphan.checkpoints, horphan.metadata⟩
  obtain ⟨s₁, hmark, h₁⟩ := orphans h hl hold hopen o hid hversion (hadmits saved (by simp))
  -- the rest of the step finds the record that was just put down, under the step's own fence
  have hrest := proceeds h₁ hl (MemoryRepository.find?_put_self m r.id saved)
    ⟨hid, Nat.le_refl _, hshallow⟩ fun record hrecord => hadmits record (by simp [rest, hrecord])
  exact hrest.after hmark

/-- What a step does while it holds its lock. -/
theorem settles (h : Amid s₀ r (n + 4) (k.held l) m s) (hl : Lasting s₀ r l)
    (hopen : ∀ old, m.find? r.id = some old → Open s₀ r l old)
    (hadmits : ∀ record ∈ (Upshot.ofStored ((m.find? r.id).map (·.session)) r.change
      (s₀.settings r.node).orchestrator.staleness s₀.now l.fence).writes, s₀.Admits record) :
    ComesTo s₀ r k l m 6 (.loading l) s (Upshot.ofStored ((m.find? r.id).map (·.session)) r.change
      (s₀.settings r.node).orchestrator.staleness s₀.now l.fence) := by
  obtain ⟨s₁, hs₁, h₁⟩ := h.loads fun hd old hold => (hopen old hold).readable hd
  cases hold : m.find? r.id with
  | none =>
    have hload : (StepPhase.loading l).step r s = (.releasing l (.ok (.notFound, none)), s₁, []) := by
      rw [hold] at hs₁
      simp only [StepPhase.step, hs₁]
      rfl
    exact ⟨1, n + 3, none, s₁, by decide, .single hload ⟨rfl, rfl⟩, h₁⟩
  | some old =>
    rw [hold] at hs₁ hadmits
    simp only [Option.map_some, Upshot.ofStored] at hadmits ⊢
    cases hstale : old.session.isStale s₀.now (s₀.settings r.node).orchestrator.staleness with
    | false =>
      simp only [hstale, Bool.false_eq_true, if_false] at hadmits ⊢
      have hload : (StepPhase.loading l).step r s = (proceed r l old.session, s₁, []) := by
        simp only [StepPhase.step, hs₁, Option.map_some, h₁.kept.settings, h₁.kept.now,
          Orphaning.of?_lively hstale]
      have hrest := proceeds h₁ hl hold (hopen old hold) hadmits
      exact (hrest.after (.single hload (proceed_on r l _))).mono (by decide)
    | true =>
      simp only [hstale, if_true] at hadmits ⊢
      obtain ⟨o, ho⟩ : ∃ o : Orphaning, o = ⟨old.session.orphan s₀.now l.fence, old.session.status,
        s₀.now.millisSince old.session.lastActivity, s₀.now⟩ := ⟨_, rfl⟩
      have hload : (StepPhase.loading l).step r s = (.orphaning l o, s₁, []) := by
        simp only [StepPhase.step, hs₁, Option.map_some, h₁.kept.settings, h₁.kept.now,
          Orphaning.of?_stale hstale, ho]
      have hrest := rehydrates h₁ hl hold (hopen old hold) o (by rw [ho])
      rw [ho] at hrest hload
      exact (hrest hadmits).after (.single hload ⟨rfl, rfl⟩)

/-- A step that has settled releases its lock and reports. -/
theorem finishes (h : Amid s₀ r (n + 1) (k.held l) m s) (hl : Lasting s₀ r l) (o : Outcome)
    (detail : Option Detail) :
    ∃ t, (StepPhase.releasing l (.ok (o, detail))).step r s =
        (.finished (.ok o), t, [.wake r.node l.resource]) ∧
      Amid s₀ r n ⟨none, l.fence, [], k.lastTicket + 1⟩ m t := by
  obtain ⟨s₁, hs₁, h₁⟩ := h.releases hl
  cases hevent : event? r.id s₁.now o detail with
  | none => exact ⟨s₁, by simp [StepPhase.step, hs₁, report, hevent], h₁⟩
  | some e => exact ⟨s₁.emit e, by simp [StepPhase.step, hs₁, report, hevent], h₁.emit e⟩

end StepPhase

end FencedSessions
