import FencedSessions.Proofs.Moves
import FencedSessions.Proofs.Ownership

/-! What becomes of the leases that service steps are granted. A step holds its lease from the grant
until it has released it, and it answers only after that; a released fence is spent for ever. -/

namespace FencedSessions

open Site

namespace KeyState

variable {k : KeyState} {f : Fence}

/-- A fence that was issued and is not on record any more. -/
structure Spent (k : KeyState) (f : Fence) : Prop where
  issued : f ≤ k.lastFence
  absent : ∀ l, k.lease = some l → l.fence ≠ f

theorem issued_run (h : f ≤ k.lastFence) (key : String) (now : Instant) (op : LeaseOp) :
    f ≤ (k.run key now op).2.lastFence := by
  rcases (k.run_lease key now op).1 with hlast | hlast <;> rw [hlast]
  · exact h
  · exact Nat.le_succ_of_le h

theorem Spent.run (h : k.Spent f) (key : String) (now : Instant) (op : LeaseOp) :
    (k.run key now op).2.Spent f := by
  refine ⟨issued_run h.issued key now op, fun l hl => ?_⟩
  rcases (k.run_lease key now op).2 l hl with ⟨l', hl', hf⟩ | ⟨-, hf⟩
  · rw [hf]
    exact h.absent l' hl'
  · rw [hf]
    intro he
    have hle : f.value ≤ k.lastFence.value := h.issued
    rw [← he] at hle
    exact Nat.not_succ_le_self _ hle

theorem spent_delete (h : f ≤ k.lastFence) (now : Instant) : (k.delete now f).2.Spent f := by
  unfold delete
  split
  · split
    · exact ⟨h, nofun⟩
    · rename_i l hl hf
      refine ⟨h, fun l' hl' => ?_⟩
      rw [hl] at hl'
      cases hl'
      exact hf
  · rename_i hnone
    refine ⟨h, fun l hl => ?_⟩
    rw [hnone] at hl
    cases hl

/-- A granted lease bears the last fence that was issued. -/
theorem grant_some {key : String} {now : Instant} {expected : Option Fence} {holder : String}
    {position : Nat} {ttl : Span} {l : Lease}
    (h : (k.grant key now expected holder position ttl).1 = .ok (some l)) :
    l.resource = key ∧ (k.grant key now expected holder position ttl).2.lastFence = l.fence := by
  unfold grant at h ⊢
  split at h
  · cases h
  · rename_i hexpected
    rw [if_neg hexpected]
    dsimp only at h ⊢
    split at h
    · cases h
    · cases h
      exact ⟨rfl, rfl⟩

end KeyState

namespace Site

variable {s s' : Site} {key : String}

theorem leaseRun_state {m : MemoryLeases} (hm : s.leases = .memory m) (key : String) (op : LeaseOp) :
    (s.leaseRun key op).2.keyState key = ((s.keyState key).run key s.now op).2 := by
  have hkey : s.keyState key = m.state key := by simp only [Site.keyState, hm]
  rw [leaseRun_memory hm, hkey]
  exact m.run_state s.now key op

/-- An answered call did what its operation does. -/
theorem Called.ran {op : LeaseOp} {a : op.Answer} (hc : Called s key op (.ok a) s')
    {m : MemoryLeases} (hm : s.leases = .memory m) :
    ((s.keyState key).run key s.now op).1 = .ok a ∧
      s'.keyState key = ((s.keyState key).run key s.now op).2 := by
  cases hc with
  | answered ran calm =>
    exact ⟨(leaseRun_requeued hm key op).1.symm.trans ran,
      (calm.alike.keyState key).trans (leaseRun_state hm key op)⟩

/-- A call leaves the key alone, or it hands on the answer of its operation. -/
theorem Called.followed {op : LeaseOp} {answer : Except Stop op.Answer} (hc : Called s key op answer s')
    {m : MemoryLeases} (hm : s.leases = .memory m) :
    s'.keyState key = s.keyState key ∨
      s'.keyState key = ((s.keyState key).run key s.now op).2 ∧
        ∀ a, ((s.keyState key).run key s.now op).1 = .ok a → answer = .ok a := by
  have hanswer := (leaseRun_requeued hm key op).1
  have hstate := leaseRun_state hm key op
  cases hc with
  | failed calm => exact .inl (calm.alike.keyState key)
  | answered ran calm =>
    exact .inr ⟨(calm.alike.keyState key).trans hstate, fun a ha => ran.symm.trans (hanswer.trans ha)⟩
  | stopped ran calm =>
    refine .inr ⟨(calm.alike.keyState key).trans hstate, fun a ha => ?_⟩
    rw [hanswer, ha] at ran
    cases ran

/-- A release that is not made to fail deletes the lease of its fence, and wakes who waits for the key. -/
theorem release_spared {m : MemoryLeases} (hm : s.leases = .memory m) {f : Fence}
    (hspared : s.spares (.delete f)) (n : Nat) (key : String) :
    (s.release n key f).2.1.keyState key = ((s.keyState key).delete s.now f).2 ∧
      (s.release n key f).2.2 = [.wake n key] := by
  have hlease : (s.lease key (.delete f)).1 = _ := lease_spared hm hspared rfl
  have hc := unguarded_called s n key (.delete f)
  have hanswer : ∃ a, (s.unguarded n key (.delete f)).1 = .ok a := by
    unfold unguarded
    generalize s.lease key (.delete f) = leased at hlease
    obtain ⟨answer, t⟩ := leased
    cases hlease
    exact ⟨_, rfl⟩
  obtain ⟨a, ha⟩ := hanswer
  rw [ha] at hc
  refine ⟨?_, ?_⟩
  · rw [release_site]
    exact (hc.ran hm).2
  · unfold release
    split
    · rfl
    · rename_i heq
      rw [heq] at ha
      cases ha

/-- A release that is not made to fail spends the fence. -/
theorem release_spent {m : MemoryLeases} (hm : s.leases = .memory m) {n : Nat} {f : Fence}
    (hissued : f ≤ (s.keyState key).lastFence) (hspared : s.spares (.delete f)) :
    ((s.release n key f).2.1.keyState key).Spent f := by
  rw [(release_spared hm hspared n key).1]
  exact KeyState.spent_delete hissued s.now

end Site

namespace StepPhase

/-- The lease that a step holds. -/
def lease? : StepPhase → Option Lease
  | .acquiring (.taking _ lease) => some lease
  | .loading lease | .orphaning lease _ | .savingOrphan lease _ | .renewing lease .. => some lease
  | .confirming lease .. | .saving lease .. | .releasing lease _ => some lease
  | .acquiring _ | .finished _ => none

/-- The lease is still held, unless the step came to a stop. -/
def Holds (p : StepPhase) (lease : Lease) : Prop :=
  p.lease? = some lease ∨ ∃ e, p.result? = some (.error e)

variable (r : StepRequest) (s : Site)

theorem failWith_holds (lease : Lease) (e : Stop) : (failWith lease s e).1.Holds lease := by
  cases e with
  | overflow => exact Or.inr ⟨_, rfl⟩
  | error e => exact Or.inl rfl

theorem proceed_holds (lease : Lease) (session : Session) :
    (proceed r lease session).Holds lease := by
  left
  unfold proceed
  split <;> rfl

/-- A step keeps its lease until it is about to release it. -/
theorem step_holds {p : StepPhase} {l : Lease} (h : p.lease? = some l) :
    (p.step r s).1.Holds l ∨ ∃ result, p = .releasing l result := by
  cases p with
  | acquiring p =>
    cases p with
    | taking w lease =>
      cases h
      exact Or.inl (Or.inl rfl)
    | _ => cases h
  | loading lease =>
    cases h
    left
    simp only [step]
    split
    · exact failWith_holds ..
    · exact Or.inl rfl
    · split
      · exact Or.inl rfl
      · exact Or.inl rfl
      · exact proceed_holds ..
  | orphaning lease o =>
    cases h
    left
    simp only [step]
    split
    · exact failWith_holds ..
    · exact Or.inl rfl
  | savingOrphan lease o =>
    cases h
    left
    simp only [step]
    split
    · exact failWith_holds ..
    · exact proceed_holds ..
  | renewing lease session c =>
    cases h
    left
    simp only [step]
    split
    · exact failWith_holds ..
    · split <;> exact Or.inl rfl
  | confirming lease session d =>
    cases h
    left
    simp only [step]
    split
    · exact failWith_holds ..
    · exact Or.inl rfl
  | saving lease session d =>
    cases h
    left
    simp only [step]
    split
    · exact failWith_holds ..
    · exact Or.inl rfl
  | releasing lease result =>
    cases h
    exact Or.inr ⟨result, rfl⟩
  | finished o => cases h

/-- A step that held a lease holds it still, or has spent its fence, if its release is not made to
fail. -/
theorem step_spent {m : MemoryLeases} (hm : s.leases = .memory m) {p : StepPhase} {l : Lease}
    (h : p.lease? = some l) (hissued : l.fence ≤ (s.keyState l.resource).lastFence)
    (hspared : p.call? r s = some (l.resource, .delete l.fence) → s.spares (.delete l.fence)) :
    (p.step r s).1.Holds l ∨ ((p.step r s).2.1.keyState l.resource).Spent l.fence := by
  rcases step_holds r s h with hholds | ⟨result, rfl⟩
  · exact Or.inl hholds
  · right
    rw [(releasing_site r s l result).alike.keyState]
    exact release_spent hm hissued (hspared rfl)

end StepPhase

/-- Only a call that asks for a grant is told of one. -/
theorem LeaseOp.granted_mem {key q : String} {op : LeaseOp} {answer : Except Stop op.Answer}
    {l : Lease} (h : .granted q l ∈ op.news key answer) :
    ∃ expected holder position ttl, op = .grant expected holder position ttl := by
  unfold LeaseOp.news at h
  split at h
  · simp at h
  · exact ⟨_, _, _, _, rfl⟩
  · simp at h

namespace AcquirePhase

theorem granted_told {r : AcquireRequest} {s : Site} {p : AcquirePhase} {q : String} {l : Lease}
    (h : .granted q l ∈ p.news r s) :
    ∃ op, p.call? r = some op ∧ .granted q l ∈ op.news r.key (s.guarded r.node r.key op).1 := by
  unfold news at h
  split at h
  · cases h
  · rcases List.mem_append.mp h with htold | hanswer
    · unfold told at htold
      split at htold
      · exact ⟨_, ‹_›, htold⟩
      · cases htold
    · obtain ⟨result, -, hresult⟩ := List.mem_map.mp hanswer
      cases result <;> cases hresult

/-- Who is told of a grant is about to remove its ticket, and the lease bears the last fence that was
issued. -/
theorem granted_news {r : AcquireRequest} {s : Site} {m : MemoryLeases} (hm : s.leases = .memory m)
    {p : AcquirePhase} {q : String} {l : Lease} (h : .granted q l ∈ p.news r s) :
    l.resource = q ∧ (∃ w, (p.step r s).1 = .taking w l) ∧
      ((p.step r s).2.1.keyState q).lastFence = l.fence := by
  obtain ⟨op, hcall, hmem⟩ := granted_told h
  obtain ⟨expected, holder, position, ttl, rfl⟩ := LeaseOp.granted_mem hmem
  cases p with
  | granting w =>
    cases hcall
    have hc := guarded_called s r.node r.key (.grant none r.holder w.ticket.position r.ttl)
    simp only [step]
    generalize s.guarded r.node r.key (.grant none r.holder w.ticket.position r.ttl) = called at hmem hc ⊢
    obtain ⟨answer, s'⟩ := called
    rcases answer with e | _ | l'
    · cases hmem
    · cases hmem
    · cases List.mem_singleton.mp hmem
      obtain ⟨hran, hkey⟩ := hc.ran hm
      obtain ⟨hresource, hlast⟩ := KeyState.grant_some hran
      exact ⟨hresource, ⟨w, rfl⟩, (congrArg KeyState.lastFence hkey).trans hlast⟩
  | _ => cases hcall

end AcquirePhase

namespace Activity

/-- Whether a client makes service steps. -/
def serves : Activity → Bool
  | .series .. | .pause .. => true
  | .acquire .. | .sleep _ | .revoke .. | .join _ | .ended => false

/-- The lease that a client's service step holds. -/
def lease? : Activity → Option Lease
  | .series _ p => p.lease?
  | .acquire .. | .pause .. | .sleep _ | .revoke .. | .join _ | .ended => none

theorem serves_wake (a : Activity) : a.wake.serves = a.serves := by
  cases a <;> rfl

theorem lease_wake (a : Activity) : a.wake.lease? = a.lease? := by
  cases a with
  | series x p =>
    cases p with
    | acquiring p => cases p <;> rfl
    | _ => rfl
  | _ => rfl

theorem serves_step {s : Site} {a : Activity} (h : (a.step s).1.serves) : a.serves := by
  cases a with
  | series x p => rfl
  | pause x due => rfl
  | acquire r p keep =>
    simp only [step] at h
    split at h <;> cases h
  | _ => cases h

variable (s : Site)

/-- A series that holds a lease after a step goes on with it. -/
theorem series_holds {x : Series} {p : StepPhase} {l : Lease} (h : (p.step x.current s).1.Holds l)
    (hserves : ((series x p).step s).1.serves) : ((series x p).step s).1.lease? = some l := by
  simp only [step] at hserves ⊢
  generalize p.step x.current s = stepped at h hserves ⊢
  obtain ⟨p', t, fx⟩ := stepped
  rcases h with hlease | ⟨e, hresult⟩
  · have hnone : p'.result? = none := by
      cases p' with
      | finished o => cases hlease
      | _ => rfl
    simp only [hnone]
    exact hlease
  · simp only [hresult] at hserves
    cases hserves

/-- A service step that is told of a grant holds the lease, which bears the last fence issued. -/
theorem granted_lease {m : MemoryLeases} (hm : s.leases = .memory m) {a : Activity} {q : String}
    {l : Lease} (h : .granted q l ∈ a.news s) (hserves : a.serves) :
    l.resource = q ∧ (a.step s).1.lease? = some l ∧
      ((a.step s).2.2.1.keyState q).lastFence = l.fence := by
  cases a with
  | series x p =>
    cases p with
    | acquiring p =>
      obtain ⟨hresource, ⟨w, hw⟩, hlast⟩ := AcquirePhase.granted_news hm h
      have he := StepPhase.acquiring_site x.current s p
      refine ⟨hresource, ?_, ?_⟩
      · simp only [step, StepPhase.step]
        generalize p.step (StepPhase.acquireRequest x.current s) s = stepped at hw
        obtain ⟨p', t, fx⟩ := stepped
        cases hw
        rfl
      · rw [series_site, he.alike.keyState]
        exact hlast
    | _ => cases h
  | pause x due => cases h
  | _ => cases hserves

end Activity

namespace Crowd

variable {c : Crowd}

/-- In an act the state of a key in memory is left, or it goes through the operation that the act calls for. -/
theorem act_follows {m : MemoryLeases} (hm : c.site.leases = .memory m) (a : Act) (q : String) :
    (c.act a).site.keyState q = c.site.keyState q ∨
      ∃ op, c.call? a = some (q, op) ∧ (c.act a).site.keyState q = ((c.site.keyState q).run q c.now op).2 := by
  have hkeeps : c.site.Keeps q (c.site.keyState q) := by
    rw [keeps_memory hm]
    simp only [keyState, hm]
  have hfit : c.site.fits q (c.call? a) := by
    unfold Site.fits
    rw [hm]
    split <;> rfl
  obtain ⟨k, hk, hrun⟩ := act_keeps hkeeps hfit
  rw [hk.keyState]
  rcases hrun with rfl | ⟨op, hcall, rfl⟩
  · exact Or.inl rfl
  · exact Or.inr ⟨op, hcall, rfl⟩

theorem spent_act {m : MemoryLeases} (hm : c.site.leases = .memory m) (a : Act) {q : String}
    {f : Fence} (h : (c.site.keyState q).Spent f) : ((c.act a).site.keyState q).Spent f := by
  rcases act_follows hm a q with heq | ⟨op, -, heq⟩ <;> rw [heq]
  · exact h
  · exact h.run q c.now op

theorem issued_act {m : MemoryLeases} (hm : c.site.leases = .memory m) (a : Act) {q : String}
    {f : Fence} (h : f ≤ (c.site.keyState q).lastFence) :
    f ≤ ((c.act a).site.keyState q).lastFence := by
  rcases act_follows hm a q with heq | ⟨op, -, heq⟩ <;> rw [heq]
  · exact h
  · exact KeyState.issued_run h q c.now op

/-- A spent fence is spent for ever. -/
theorem spent_run {m : MemoryLeases} (hm : c.site.leases = .memory m) (acts : List Act) {q : String}
    {f : Fence} (h : (c.site.keyState q).Spent f) : ((c.run acts).site.keyState q).Spent f := by
  refine (run_invariant (P := fun c => (∃ m, c.site.leases = .memory m) ∧ (c.site.keyState q).Spent f)
    ?_ ⟨⟨m, hm⟩, h⟩ acts).2
  rintro c a ⟨⟨m, hm⟩, h⟩
  exact ⟨act_memory hm a, spent_act hm a h⟩

/-- Whether an act makes no release that fails. -/
def frees (c : Crowd) (a : Act) : Bool :=
  match c.call? a with
  | some (_, .delete f) => c.site.spares (.delete f)
  | _ => true

/-- What has become of the lease that a service step was granted: its fence is spent, or it is the one
that the step holds. -/
def Owed (k : KeyState) (q : String) (held : Option Lease) (l : Lease) : Prop :=
  k.Spent l.fence ∨
    l.fence ≤ k.lastFence ∧ ∃ l', held = some l' ∧ l'.resource = q ∧ l'.fence = l.fence

/-- Every lease that is in the journal of a client which makes service steps is accounted for. -/
structure Balanced (c : Crowd) (log : List Entry) : Prop where
  known : ∀ e ∈ log, e.client < c.clients.length
  owed : ∀ e ∈ log, ∀ q l, e.news = .granted q l → ∀ x, c.clients[e.client]? = some x →
    x.activity.serves → Owed (c.site.keyState q) q x.activity.lease? l

theorem news_known {a : Act} {e : Entry} (he : e ∈ c.news a) :
    ∃ x, c.clients[e.client]? = some x ∧
      (a = .go e.client ∧ e.news ∈ x.activity.news c.site ∨ a = .leave e.client) := by
  cases a with
  | go i =>
    simp only [news] at he
    split at he
    · rename_i x hx
      obtain ⟨n, hn, rfl⟩ := List.mem_map.mp he
      exact ⟨x, hx, Or.inl ⟨rfl, hn⟩⟩
    · cases he
  | leave i =>
    simp only [news] at he
    split at he
    · rename_i hi
      cases List.mem_singleton.mp he
      exact ⟨c.clients[i], List.getElem?_eq_getElem hi, Or.inr rfl⟩
    · cases he
  | _ => cases he

/-- A step of a client spends the lease that is owed, or the service step holds it still. -/
theorem spent_go {m : MemoryLeases} (hm : c.site.leases = .memory m) {i : Nat} {x : Client}
    (hx : c.clients[i]? = some x) (hfrees : frees c (.go i)) {q : String} {l : Lease}
    (h : Owed (c.site.keyState q) q x.activity.lease? l) :
    ((c.act (.go i)).site.keyState q).Spent l.fence ∨
      l.fence ≤ ((c.act (.go i)).site.keyState q).lastFence ∧
        ∃ y p l', x.activity = .series y p ∧ (p.step y.current c.site).1.Holds l' ∧
          l'.resource = q ∧ l'.fence = l.fence := by
  rcases h with hspent | ⟨hissued, l', hl', rfl, hfence⟩
  · exact Or.inl (spent_act hm _ hspent)
  · have hissued' := issued_act hm (.go i) hissued
    rw [← hfence] at hissued
    obtain ⟨a, notes⟩ := x
    cases a with
    | series y p =>
      have hspared (hcall : p.call? y.current c.site = some (l'.resource, .delete l'.fence)) :
          c.site.spares (.delete l'.fence) := by
        have hgo : c.call? (.go i) = some (l'.resource, .delete l'.fence) := by
          simp only [call?, hx, Option.bind_some]
          exact hcall
        unfold frees at hfrees
        rw [hgo] at hfrees
        exact hfrees
      rcases p.step_spent y.current c.site hm hl' hissued hspared with hholds | hspent
      · exact Or.inr ⟨hissued', y, p, l', rfl, hholds, rfl, hfence⟩
      · left
        change ((c.go i).site.keyState l'.resource).Spent l.fence
        rw [c.go_site hx, Activity.series_site, ← hfence]
        exact hspent
    | _ => cases hl'

/-- A service step that goes on has spent its lease or holds it still. -/
theorem owed_go {m : MemoryLeases} (hm : c.site.leases = .memory m) {i : Nat} {x : Client}
    (hx : c.clients[i]? = some x) (hfrees : frees c (.go i)) {q : String} {l : Lease}
    (h : Owed (c.site.keyState q) q x.activity.lease? l)
    (hserves : (x.activity.step c.site).1.serves) :
    Owed ((c.act (.go i)).site.keyState q) q (x.activity.step c.site).1.lease? l := by
  rcases spent_go hm hx hfrees h with hspent | ⟨hissued, y, p, l', hact, hholds, hresource, hfence⟩
  · exact Or.inl hspent
  · rw [hact] at hserves ⊢
    exact Or.inr ⟨hissued, l', Activity.series_holds c.site hholds hserves, hresource, hfence⟩

theorem Balanced.act {log : List Entry} (h : c.Balanced log) {m : MemoryLeases}
    (hm : c.site.leases = .memory m) {a : Act} (hfrees : frees c a) :
    (c.act a).Balanced (log ++ c.news a) := by
  have hclient {e : Entry} (he : e ∈ log ++ c.news a) : ∃ x, c.clients[e.client]? = some x := by
    rcases List.mem_append.mp he with hold | hnew
    · exact ⟨_, List.getElem?_eq_getElem (h.known e hold)⟩
    · obtain ⟨x, hx, -⟩ := news_known hnew
      exact ⟨x, hx⟩
  constructor
  · intro e he
    obtain ⟨x, hx⟩ := hclient he
    obtain ⟨y, hy, -⟩ := view_act (f := fun _ => ()) (fun _ => rfl) hx a
    exact (List.getElem?_eq_some_iff.mp hy).1
  · intro e he q l hnews y hy hserves
    obtain ⟨x, hx⟩ := hclient he
    obtain ⟨y', hy', hview⟩ := view_act (f := fun a => (a.serves, a.lease?))
      (fun a => Prod.ext a.serves_wake a.lease_wake) hx a
    rw [hy] at hy'
    cases hy'
    rcases hview with ⟨rfl, hview⟩ | ⟨rfl, hview⟩ | ⟨hgo, hleave, hview⟩
    · obtain ⟨hserves', hlease⟩ := Prod.mk.inj hview
      rw [hlease]
      rw [hserves'] at hserves
      rcases List.mem_append.mp he with hold | hnew
      · exact owed_go hm hx hfrees (h.owed e hold q l hnews x hx (Activity.serves_step hserves)) hserves
      · obtain ⟨z, hz, hcases⟩ := news_known hnew
        rw [hx] at hz
        cases hz
        rcases hcases with ⟨-, hmem⟩ | hact
        · rw [hnews] at hmem
          obtain ⟨hresource, hheld, hlast⟩ :=
            Activity.granted_lease c.site hm hmem (Activity.serves_step hserves)
          refine Or.inr ⟨?_, l, hheld, hresource, rfl⟩
          change l.fence ≤ ((c.go e.client).site.keyState q).lastFence
          rw [c.go_site hx, hlast]
          exact Nat.le_refl _
        · cases hact
    · obtain ⟨hserves', -⟩ := Prod.mk.inj hview
      rw [hserves'] at hserves
      cases hserves
    · obtain ⟨hserves', hlease⟩ := Prod.mk.inj hview
      rw [hlease]
      rw [hserves'] at hserves
      rcases List.mem_append.mp he with hold | hnew
      · rcases h.owed e hold q l hnews x hx hserves with hspent | ⟨hissued, hheld⟩
        · exact Or.inl (spent_act hm a hspent)
        · exact Or.inr ⟨issued_act hm a hissued, hheld⟩
      · obtain ⟨z, -, ⟨hact, -⟩ | hact⟩ := news_known hnew
        · exact absurd hact hgo
        · exact absurd hact hleave

theorem Balanced.run {log : List Entry} (h : c.Balanced log) {m : MemoryLeases}
    (hm : c.site.leases = .memory m) {acts : List Act} (hfrees : c.along frees acts) :
    (c.run acts).Balanced (log ++ c.log acts) := by
  refine (log_induction (P := fun c log acts => (∃ m, c.site.leases = .memory m) ∧ c.along frees acts ∧
    c.Balanced log) ?_ ⟨⟨m, hm⟩, hfrees, h⟩).2.2
  rintro c log a acts ⟨⟨m, hm⟩, hfrees, h⟩
  obtain ⟨hstep, hrest⟩ := (Bool.and_eq_true _ _).mp hfrees
  exact ⟨act_memory hm a, hrest, h.act hm hstep⟩

/-- Whether the service step of a client answers in its next step. -/
def answers (c : Crowd) (i : Nat) : Bool :=
  match c.clients[i]? with
  | some x =>
    match x.activity.stepping? with
    | some (r, p) =>
      match (p.step r c.site).1.result? with
      | some (.ok _) => true
      | _ => false
    | none => false
  | none => false

theorem answers_step {i : Nat} (h : c.answers i) : ∃ y p notes o,
    c.clients[i]? = some ⟨.series y p, notes⟩ ∧ (p.step y.current c.site).1.result? = some (.ok o) := by
  unfold answers at h
  split at h
  · rename_i x hx
    obtain ⟨a, notes⟩ := x
    split at h
    · rename_i r p hstep
      split at h
      · rename_i o ho
        cases a with
        | series y p' =>
          cases hstep
          exact ⟨y, p, notes, o, hx, ho⟩
        | _ => cases hstep
      · cases h
    · cases h
  · cases h

/-- When a service step answers, every lease that it was granted is spent. -/
theorem Balanced.answered {log : List Entry} (h : c.Balanced log) {m : MemoryLeases}
    (hm : c.site.leases = .memory m) {i : Nat} (hfrees : frees c (.go i)) (hanswers : c.answers i)
    {e : Entry} (he : e ∈ log) (hclient : e.client = i) {q : String} {l : Lease}
    (hnews : e.news = .granted q l) : ((c.act (.go i)).site.keyState q).Spent l.fence := by
  subst hclient
  obtain ⟨y, p, notes, o, hx, hanswer⟩ := answers_step hanswers
  rcases spent_go hm hx hfrees (h.owed e he q l hnews _ hx rfl) with
    hspent | ⟨-, y', p', l', hact, hholds, -, -⟩
  · exact hspent
  · cases hact
    rcases hholds with hlease | ⟨e, hresult⟩
    · -- an answered step is over and holds nothing
      cases hstepped : (p.step y.current c.site).1 with
      | finished outcome =>
        rw [hstepped] at hlease
        cases hlease
      | _ =>
        rw [hstepped] at hanswer
        cases hanswer
    · rw [hanswer] at hresult
      cases hresult

end Crowd

end FencedSessions
