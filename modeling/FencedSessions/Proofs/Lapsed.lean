import FencedSessions.Proofs.Uncontended

/-! A key whose lease and tickets have all expired is as good as a free one, whoever left them behind. A caller
that is alone queues, finds its ticket at the head, is granted the lease and removes its ticket, without a
wait, so that its timeout is no matter. -/

namespace FencedSessions

namespace KeyState

variable {k : KeyState} {now : Instant}

/-- The lease and the tickets of a key have all expired. -/
structure Lapsed (k : KeyState) (now : Instant) : Prop where
  lease : ∀ l, k.lease = some l → l.expiresAt ≤ now
  tickets : ∀ t ∈ k.tickets, t.deadline ≤ now

/-- An expired lease is void at its very expiry. -/
theorem Lapsed.free (h : k.Lapsed now) : k.liveLease now = none := by
  unfold liveLease
  rw [Option.filter_eq_none_iff]
  intro l hl hlive
  exact Int.not_lt.mpr (h.lease l hl) (of_decide_eq_true hlive)

/-- An expired ticket is dropped at its very deadline. -/
theorem Lapsed.alone (h : k.Lapsed now) : (k.prune now).tickets = [] := by
  refine List.filter_eq_nil_iff.mpr fun t ht hlater => ?_
  exact Int.not_lt.mpr (h.tickets t ht) (of_decide_eq_true hlater)

end KeyState

namespace Site

/-- A site in the middle of a caller's look at a key since the site was `s₀`: no time has passed, nothing
disturbs its calls, and the lease store holds this state of the key. -/
structure AtKey (s₀ : Site) (node : Nat) (key : String) (n : Nat) (k : KeyState) (s : Site) : Prop where
  kept : Kept node s₀ s
  quiet : s.Quiet node
  stocked : s.Stocked key n k

namespace AtKey

variable {s₀ s : Site} {node : Nat} {key : String} {n : Nat} {k k' : KeyState} {op : LeaseOp} {a : op.Answer}
  (h : AtKey s₀ node key (n + 1) k s) (hrange : op.inRange s₀.now)
  (hrun : k.run key s₀.now op = (.ok a, k')) (hwrites : op.writes a) (hcall : op.callName ∈ stepCalls)
include h hrange hrun hwrites

theorem runs : ∃ t, s.leaseRun key op = (.ok a, t) ∧
    ∀ s', Steady node t s' → AtKey s₀ node key n k' s' := by
  rw [← h.kept.now] at hrange hrun
  obtain ⟨hanswer, hstocked⟩ := h.stocked.leaseRun hrange (congrArg Prod.fst hrun) hwrites
  rw [hrun] at hstocked
  have hkept := leaseRun_kept s node key op
  exact ⟨_, Prod.ext hanswer rfl, fun s' hsteady => ⟨h.kept.trans (hkept.trans hsteady.kept),
    hsteady.quiet (hkept.quiet h.quiet), hstocked.alike hsteady.toAlike⟩⟩

include hcall

/-- A call about the key is answered from its state. -/
theorem lease : ∃ s', s.lease key op = (.ok a, s') ∧ AtKey s₀ node key n k' s' := by
  obtain ⟨t, ht, hafter⟩ := h.runs hrange hrun hwrites
  obtain ⟨s', hs', hsteady⟩ := lease_served (h.quiet.undisturbed _ hcall) ht node
  exact ⟨s', hs', hafter s' hsteady⟩

theorem guarded : ∃ s', s.guarded node key op = (.ok a, s') ∧ AtKey s₀ node key n k' s' := by
  obtain ⟨t, ht, hafter⟩ := h.runs hrange hrun hwrites
  obtain ⟨s', hs', hsteady⟩ := guarded_served h.quiet hcall ht
  exact ⟨s', hs', hafter s' hsteady⟩

end AtKey

end Site

namespace AcquirePhase

open Site

/-- A caller goes from phase to phase through all of these, and can go on at once after each. -/
inductive Passes (q : AcquireRequest) : List AcquirePhase → AcquirePhase → Site → AcquirePhase → Site → Prop
  | refl (p : AcquirePhase) (s : Site) : Passes q [] p s p s
  | step {phases : List AcquirePhase} {p p' z : AcquirePhase} {s t u : Site} (h : p.step q s = (p', t, []))
      (hon : p'.result? = none ∧ p'.parkedUntil? = none) (rest : Passes q phases p' t z u) :
      Passes q (p :: phases) p s z u

/-- The caller that joins a queue in which nobody else is left. -/
def lone (q : AcquireRequest) (k : KeyState) (d : Deadlines) : Waiter :=
  ⟨d, k.onlyTicket q.holder d.ticketDeadline, false⟩

variable {q : AcquireRequest} {s₀ s : Site} {n : Nat} {k : KeyState} {d : Deadlines} {l : Lease}

theorem lone_joins (h : AtKey s₀ q.node q.key (n + 1) k s) (halone : (k.prune s₀.now).tickets = [])
    (hheld : d.ticketDeadline.Held) :
    ∃ t, (joining d).step q s = (.checking (lone q k d), t, []) ∧
      AtKey s₀ q.node q.key n (k.queued q.holder d.ticketDeadline) t := by
  have hrange : (LeaseOp.enqueue q.holder d.ticketDeadline).inRange s₀.now := decide_eq_true hheld
  obtain ⟨t, ht, hafter⟩ := h.guarded hrange
    (KeyState.enqueue_alone halone q.key q.holder d.ticketDeadline) rfl (by simp [stepCalls, LeaseOp.callName])
  refine ⟨t, ?_, hafter⟩
  simp only [step, ht]
  rfl

theorem lone_checks (h : AtKey s₀ q.node q.key (n + 1) (k.queued q.holder d.ticketDeadline) s)
    (hlater : s₀.now < d.ticketDeadline) :
    ∃ t, (checking (lone q k d)).step q s = (.granting (lone q k d), t, []) ∧
      AtKey s₀ q.node q.key n (k.queued q.holder d.ticketDeadline) t := by
  have hrange : (LeaseOp.position (lone q k d).ticket.number).inRange s₀.now := rfl
  obtain ⟨t, ht, hafter⟩ := h.guarded hrange (KeyState.position_alone hlater q.key) rfl
    (by simp [stepCalls, LeaseOp.callName])
  refine ⟨t, ?_, hafter⟩
  simp only [step, ht]

theorem lone_asks (h : AtKey s₀ q.node q.key (n + 1) (k.queued q.holder d.ticketDeadline) s)
    (hfree : k.liveLease s₀.now = none) (hresource : l.resource = q.key) (hholder : l.holder = q.holder)
    (hfence : l.fence = k.lastFence.next) (hplace : l.position = 0)
    (hexpiry : s₀.now.after? q.ttl = some l.expiresAt) :
    ∃ t, (granting (lone q k d)).step q s = (.taking (lone q k d) l, t, []) ∧
      AtKey s₀ q.node q.key n (k.granted l d.ticketDeadline) t := by
  have hgrant := KeyState.grant_alone hfree hexpiry hfence hplace d.ticketDeadline
  rw [hresource, hholder] at hgrant
  have hrange : (LeaseOp.grant none q.holder (lone q k d).ticket.position q.ttl).inRange s₀.now := by
    simp only [LeaseOp.inRange, lone, KeyState.onlyTicket, hexpiry]
    rfl
  obtain ⟨t, ht, hafter⟩ := h.guarded hrange hgrant rfl (by simp [stepCalls, LeaseOp.callName])
  refine ⟨t, ?_, hafter⟩
  simp only [step, ht]

theorem lone_takes (h : AtKey s₀ q.node q.key (n + 1) (k.granted l d.ticketDeadline) s)
    (hholder : l.holder = q.holder) :
    ∃ t, (taking (lone q k d) l).step q s = (.finished (.ok l), t, []) ∧
      AtKey s₀ q.node q.key n (k.held l) t := by
  have hremove := KeyState.remove_alone k l d.ticketDeadline q.key s₀.now
  rw [hholder] at hremove
  have hrange : (LeaseOp.remove (lone q k d).ticket.number).inRange s₀.now := rfl
  obtain ⟨t, ht, hafter⟩ := h.lease hrange hremove rfl (by simp [stepCalls, LeaseOp.callName])
  refine ⟨t, ?_, hafter⟩
  simp only [step, ht]

/-- A caller that is alone with a key on which all has expired gets the lease at its first look. -/
theorem first_look (h : AtKey s₀ q.node q.key (n + 4) k s₀) (hlapsed : k.Lapsed s₀.now)
    (hd : deadlines? s₀ q = some d) {expiry : Instant} (hexpiry : s₀.now.after? q.ttl = some expiry) :
    let w := lone q k d
    let l : Lease := ⟨q.key, q.holder, k.lastFence.next, expiry, 0⟩
    ∃ s t, Passes q [.starting, .joining d, .checking w, .granting w] .starting s₀ (.taking w l) s ∧
      (taking w l).step q s = (.finished (.ok l), t, []) ∧ AtKey s₀ q.node q.key n (k.held l) t := by
  intro w l
  obtain ⟨hlater, hheld⟩ := deadlines?_later hd
  have hstart : AcquirePhase.starting.step q s₀ = (.joining d, s₀, []) := by
    simp only [step, hd]
  obtain ⟨s₁, hjoin, h₁⟩ := lone_joins h hlapsed.alone hheld
  obtain ⟨s₂, hcheck, h₂⟩ := lone_checks h₁ hlater
  obtain ⟨s₃, hask, h₃⟩ := lone_asks (l := l) h₂ hlapsed.free rfl rfl rfl rfl hexpiry
  obtain ⟨s₄, htake, h₄⟩ := lone_takes h₃ rfl
  exact ⟨s₃, s₄, .step hstart ⟨rfl, rfl⟩ <| .step hjoin ⟨rfl, rfl⟩ <| .step hcheck ⟨rfl, rfl⟩ <|
    .step hask ⟨rfl, rfl⟩ <| .refl _ _, htake, h₄⟩

end AcquirePhase

namespace World

open AcquirePhase

variable {w : World} {id : Nat} {q : AcquireRequest} {p z : AcquirePhase} {keep : Option String} {s t : Site}

/-- A caller has its turn until it has passed through its phases. -/
theorem HasTurn.passes {phases : List AcquirePhase} (h : w.HasTurn id (.acquire q p keep) s)
    (hpasses : Passes q phases p s z t) : ∃ w' : World, w'.HasTurn id (.acquire q z keep) t ∧
      ∀ fuel, w.await id (fuel + phases.length) = w'.await id fuel := by
  induction hpasses generalizing w with
  | refl p s => exact ⟨w, h, fun _ => rfl⟩
  | @step phases p p' z s t u hstep hon rest ih =>
    have hgoes : (Activity.acquire q p keep).step s = (.acquire q p' keep, none, t, []) := by
      simp [Activity.step, hstep, hon.1]
    obtain ⟨w₁, hw₁, hfirst⟩ := h.goes hgoes (congrArg Activity.readiness.ofDue hon.2)
    obtain ⟨w', hw', hawait⟩ := ih hw₁
    exact ⟨w', hw', fun fuel => (hfirst (fuel + phases.length)).trans (hawait fuel)⟩

/-- A caller whose phases follow one another at once has its result as soon as it comes. -/
theorem perform_passes {phases : List AcquirePhase} {result : Except Stop Lease} (keep : Option String)
    (hidle : w.current = none) (hfresh : ∀ a ∈ w.tasks, a.id ≠ w.nextTask)
    (hpasses : Passes q phases .starting w.site z s) (hlength : phases.length + 2 ≤ patience)
    (hstep : z.step q s = (.finished result, t, [])) :
    ∃ after : World, w.perform (.ofAcquire q keep) = (some (.lease result), after) ∧ after.site = t := by
  have hend : (Activity.acquire q z keep).step s = (.ended, some (.lease result), t, []) := by
    simp [Activity.step, hstep, AcquirePhase.result?]
  exact perform_ends hidle hfresh rfl (fun _ hw₁ => hw₁.passes hpasses) hlength hend (.inl rfl)

/-- Lapsed holders and waiters never block. When the lease and every ticket on record for a key have expired,
whoever left them there, a caller that nobody is beside is granted the lease at its first look, whatever its
timeout: it bears the next fence and the first place in the queue, no time passes, and the queue is left
empty. -/
theorem perform_lapsed {k : KeyState} {expiry : Instant} (keep : Option String) (hidle : w.current = none)
    (hfresh : ∀ a ∈ w.tasks, a.id ≠ w.nextTask) (hquiet : w.site.Quiet q.node)
    (hstocked : w.site.Stocked q.key 4 k) (hlapsed : k.Lapsed w.site.now)
    (hdeadlines : (deadlines? w.site q).isSome) (hexpiry : w.site.now.after? q.ttl = some expiry) :
    let l : Lease := ⟨q.key, q.holder, k.lastFence.next, expiry, 0⟩
    ∃ (x : Waiter) (s : Site) (after : World),
      Passes q [.starting, .joining x.deadlines, .checking x, .granting x] .starting w.site (.taking x l) s ∧
      w.perform (.ofAcquire q keep) = (some (.lease (.ok l)), after) ∧
      after.site.timer = w.site.timer ∧ after.site.now = w.site.now ∧
      after.site.keyState q.key = ⟨some l, l.fence, [], k.lastTicket + 1⟩ := by
  intro l
  obtain ⟨d, hd⟩ := Option.isSome_iff_exists.mp hdeadlines
  obtain ⟨s, t, hpasses, htake, hafter⟩ :=
    first_look (n := 0) ⟨.refl q.node w.site, hquiet, hstocked⟩ hlapsed hd hexpiry
  obtain ⟨after, hperform, rfl⟩ := perform_passes keep hidle hfresh hpasses (by simp [patience]) htake
  exact ⟨lone q k d, s, after, hpasses, hperform, hafter.kept.timer, hafter.kept.now,
    hafter.stocked.keeps.keyState⟩

/-- The holder and two callers crashed. At the very instant at which the lease and the later ticket expire, a
caller without any patience takes over. -/
theorem perform_lapsed_crashed :
    let dead : KeyState := ⟨some ⟨"k", "gone", ⟨6⟩, ⟨5000000000⟩, 2⟩, ⟨6⟩,
      [⟨8, "first", ⟨4000000000⟩, 0⟩, ⟨9, "second", ⟨5000000000⟩, 1⟩], 9⟩
    let w : World := { site := { Site.single with
      clock := ⟨5000000000⟩
      leases := .memory (MemoryLeases.setState {} "k" dead) } }
    let q : AcquireRequest := ⟨0, "k", "next", ⟨0⟩, .ofMillis 1000⟩
    let l : Lease := ⟨"k", "next", ⟨7⟩, ⟨6000000000⟩, 0⟩
    ∃ (x : Waiter) (s : Site) (after : World),
      Passes q [.starting, .joining x.deadlines, .checking x, .granting x] .starting w.site (.taking x l) s ∧
      w.perform (.ofAcquire q none) = (some (.lease (.ok l)), after) ∧
      after.site.timer = 0 ∧ after.site.now = ⟨5000000000⟩ ∧
      after.site.keyState "k" = ⟨some l, ⟨7⟩, [], 10⟩ := by
  intro dead w q l
  have hlapsed : dead.Lapsed w.site.now := by
    refine ⟨fun l hl => ?_, by decide⟩
    cases hl
    decide
  have hquiet : w.site.Quiet q.node := ⟨fun _ _ => List.forall_mem_nil _, 0, rfl⟩
  have hstocked : w.site.Stocked q.key 4 dead := ⟨MemoryLeases.state_setState_self {} "k" dead, nofun⟩
  exact perform_lapsed none rfl (List.forall_mem_nil _) hquiet hstocked hlapsed (by decide) (by decide)

end World

end FencedSessions
