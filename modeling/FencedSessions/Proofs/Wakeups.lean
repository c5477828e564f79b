import FencedSessions.Proofs.Patience
import FencedSessions.Proofs.Queues

/-! Who is woken. A lock that lets go of a key, because it deletes the live lease or because a caller of it gives
up while the key is free, wakes all callers of the node that wait for the key, wherever in their look they are.
A caller that is awake asks for the grant within three turns, if it finds itself first, and waits for none of
them. -/

namespace FencedSessions

open Site

namespace KeyState

variable {k : KeyState} {key : String} {now : Instant}

theorem liveLease_none (h : k.lease = none) (now : Instant) : k.liveLease now = none := by
  simp [liveLease, h]

/-- A live lease is deleted with its fence. -/
theorem delete_live {l : Lease} (h : k.liveLease now = some l) : (k.delete now l.fence).2.lease = none := by
  have hl : k.lease = some l := Option.eq_some_of_filter_eq_some h
  simp [delete, hl]

/-- A free key stays free until it is granted. -/
theorem run_free (h : k.liveLease now = none) {op : LeaseOp}
    (hop : ∀ expected holder position ttl, op = .grant expected holder position ttl →
      (k.run key now op).2.lease = k.lease) :
    (k.run key now op).2.liveLease now = none := by
  cases op with
  | grant expected holder position ttl =>
    unfold liveLease at h ⊢
    rw [hop _ _ _ _ rfl]
    exact h
  | extend fence ttl =>
    have hsame : (k.extend now fence ttl).2 = k := by
      unfold extend
      split
      · rename_i l hl
        have hdead : ¬l.liveAt now := by simpa [liveLease, hl] using h
        rw [if_neg fun hlive => hdead hlive.2]
      · rfl
    simpa only [run, hsame] using h
  | delete fence =>
    simp only [run, delete]
    split
    · split
      · rfl
      · exact h
    · exact h
  | get => exact h
  | enqueue holder deadline => exact h
  | position ticket => exact h
  | remove ticket => exact h
  | queueLength => exact h

/-- A grant that is not given leaves the lease as it was. -/
theorem grant_refused {expected : Option Fence} {holder : String} {position : Nat} {ttl : Span}
    (h : ∀ l, (k.run key now (.grant expected holder position ttl)).1 ≠ .ok (some l)) :
    (k.run key now (.grant expected holder position ttl)).2.lease = k.lease := by
  simp only [run, grant] at h ⊢
  split
  · rfl
  · rename_i hexpected
    rw [if_neg hexpected] at h
    split
    · rfl
    · rename_i expiry hexpiry
      rw [hexpiry] at h
      exact absurd rfl (h _)

/-- A free key is granted to whoever asks for it. -/
theorem grant_free (h : k.liveLease now = none) {ttl : Span} {expiry : Instant}
    (hexpiry : now.after? ttl = some expiry) (key holder : String) (position : Nat) :
    (k.run key now (.grant none holder position ttl)).1 =
      .ok (some ⟨key, holder, k.lastFence.next, expiry, position⟩) := by
  simp [run, grant, h, hexpiry]

/-- The ticket that is first in a queue stays there while it is not expired, if the others go. -/
theorem prune_head {t : Ticket} {ts : List Ticket} (h : k.tickets = t :: ts) (hdue : now < t.deadline) :
    (k.prune now).tickets = t :: ts.filter fun t => now < t.deadline := by
  simp [prune, h, hdue]

theorem enqueue_head {t : Ticket} {ts : List Ticket} (h : k.tickets = t :: ts) (hdue : now < t.deadline)
    (holder : String) (deadline : Instant) : ∃ us, (k.enqueue now holder deadline).2.tickets = t :: us := by
  have htickets : (k.enqueue now holder deadline).2.tickets =
      (k.prune now).tickets ++ [(k.enqueue now holder deadline).1] := rfl
  rw [htickets, prune_head h hdue]
  exact ⟨_, rfl⟩

theorem position_head {t : Ticket} {ts : List Ticket} (h : k.tickets = t :: ts) (hdue : now < t.deadline) :
    (k.run key now (.position t.number)).1 = .ok (some 0) := by
  simp [run, position, prune_head h hdue, List.findIdx?_cons]

end KeyState

namespace Site

variable {s : Site} {n : Nat} {key : String} {m : MemoryLeases} {op : LeaseOp}

/-- Whether the breaker of a node is closed and no call is made to fail. -/
def smooth (s : Site) (n : Nat) : Bool := (s.breaker n).circuit = .closed && s.plan.all (·.error.isNone)

theorem smooth_note (h : s.smooth n) {call : String} {d : Disturbance} (hd : (s.note call).1 = some d) :
    d.error = none := by
  obtain ⟨-, hplan⟩ := (Bool.and_eq_true _ _).mp h
  exact Option.isNone_iff_eq_none.mp (List.all_eq_true.mp hplan d (Disturbance.mem_of_take hd))

theorem smooth_spares (h : s.smooth n) (op : LeaseOp) : s.spares op := by
  unfold spares
  cases hd : (s.note op.callName).1 with
  | none => rfl
  | some d => simp [smooth_note h hd]

/-- Calls are answered. -/
theorem smooth_guarded (h : s.smooth n) (hm : s.leases = .memory m) {a : op.Answer}
    (ha : ((s.keyState key).run key s.now op).1 = .ok a) : (s.guarded n key op).1 = .ok a := by
  have hpass : ((s.breaker n).pass (s.settings n).breaker s.now).1 = .ok () := by
    obtain ⟨hclosed, -⟩ := (Bool.and_eq_true _ _).mp h
    cases hb : s.breaker n with
    | closed failures => rfl
    | opened retryAt => simp [hb, Breaker.circuit] at hclosed
    | halfOpen probeAt => simp [hb, Breaker.circuit] at hclosed
  have hopens : s.opens key := by simp [opens, hm]
  have hreaches : s.reaches n key op := by
    unfold reaches
    rw [hpass]
    cases hd : (s.note op.callName).1 with
    | none => exact hopens
    | some d => simp [smooth_note h hd, hopens]
  exact guarded_reaching hreaches ((leaseRun_requeued hm key op).1.trans ha)

end Site

namespace AcquirePhase

variable {p : AcquirePhase} {w : Waiter} {n r : Nat}

/-- A caller that waits: it has a ticket, and neither was it granted nor does it give up. -/
def waiter? : AcquirePhase → Option Waiter
  | .checking w | .granting w | .rejoining w | .waiting w _ => some w
  | .starting | .joining _ | .taking .. | .leaving _ | .finished _ => none

/-- A caller with a ticket of this number asks for the grant in so many turns, for none of which it has to
wait. -/
inductive Near (n : Nat) : (turns : Nat) → AcquirePhase → Prop
  | granting {w : Waiter} (h : w.ticket.number = n) : Near n 1 (.granting w)
  | checking {w : Waiter} (h : w.ticket.number = n) : Near n 2 (.checking w)
  | waiting {w : Waiter} {due : Nat} (h : w.ticket.number = n) (hwoken : w.woken = true) :
    Near n 3 (.waiting w due)

theorem Near.wake (h : p.Near n r) : p.wake.Near n r := by
  cases h with
  | granting h => exact .granting h
  | checking h => exact .checking h
  | waiting h hwoken => exact .waiting h rfl

theorem Near.parked (h : p.Near n r) : p.parkedUntil? = none := by
  cases h with
  | granting h => rfl
  | checking h => rfl
  | waiting h hwoken => simp [parkedUntil?, hwoken]

theorem Near.pos (h : p.Near n r) : 0 < r := by
  cases h <;> decide

theorem Near.standing (h : p.Near n r) (key : String) :
    ∃ t giveUp stage, p.standing key = .waits key t giveUp stage ∧ t.number = n ∧ stage ≠ .leaving := by
  cases h with
  | granting h => exact ⟨_, _, _, rfl, h, nofun⟩
  | checking h => exact ⟨_, _, _, rfl, h, nofun⟩
  | waiting h hwoken => exact ⟨_, _, _, rfl, h, nofun⟩

/-- Who is awake and has not lost its ticket is near. -/
theorem near_of_awake (h : p.waiter? = some w) (hawake : p.wake = p) (hfound : p ≠ .rejoining w) :
    ∃ r ≤ 3, p.Near w.ticket.number r := by
  cases p with
  | checking w' =>
    cases h
    exact ⟨2, by decide, .checking rfl⟩
  | granting w' =>
    cases h
    exact ⟨1, by decide, .granting rfl⟩
  | rejoining w' =>
    cases h
    exact absurd rfl hfound
  | waiting w' due =>
    cases h
    injection hawake with hwoken
    exact ⟨3, by decide, .waiting rfl (congrArg Waiter.woken hwoken).symm⟩
  | _ => cases h

end AcquirePhase

namespace Activity

variable {s : Site} {a : Activity} {q : AcquireRequest} {p : AcquirePhase} {key : String}

theorem wake_wake (a : Activity) : a.wake.wake = a.wake := by
  cases a with
  | acquire r p keep => cases p <;> rfl
  | series x p =>
    cases p with
    | acquiring p => cases p <;> rfl
    | _ => rfl
  | _ => rfl

theorem caller?_waitsOn (h : a.caller? s = some (q, p)) (n : Nat) (key : String) :
    a.waitsOn s n key = (q.node = n && q.key = key) := by
  cases a with
  | acquire r p' keep => cases h; rfl
  | series x p' =>
    cases p' with
    | acquiring p' => cases h; rfl
    | _ => cases h
  | _ => cases h

theorem caller?_standing (h : a.caller? s = some (q, p)) : a.standing = p.standing q.key := by
  cases a with
  | acquire r p' keep => cases h; rfl
  | series x p' =>
    cases p' with
    | acquiring p' => cases h; rfl
    | _ => cases h
  | _ => cases h

/-- Only who has found itself first asks for a grant. -/
theorem first_of_grant {expected : Option Fence} {holder : String} {position : Nat} {ttl : Span}
    (h : a.call? s = some (key, .grant expected holder position ttl)) :
    ∃ t giveUp, a.standing = .waits key t giveUp .first := by
  have hphase {p : AcquirePhase} {r : AcquireRequest} (key : String)
      (h : p.call? r = some (.grant expected holder position ttl)) :
      ∃ t giveUp, p.standing key = .waits key t giveUp .first := by
    cases p with
    | granting w => exact ⟨_, _, rfl⟩
    | _ => cases h
  cases a with
  | acquire r p keep =>
    obtain ⟨op, hop, he⟩ := Option.map_eq_some_iff.mp h
    cases he
    exact hphase r.key hop
  | series x p =>
    cases p with
    | acquiring p =>
      obtain ⟨op, hop, he⟩ := Option.map_eq_some_iff.mp h
      cases he
      exact hphase x.current.id.text hop
    | _ => cases h
  | _ => cases h

/-- Who has given up wakes the others. -/
theorem leaving_wakes {w : Waiter} (h : a.caller? s = some (q, .leaving w)) :
    .wake q.node q.key ∈ (a.step s).2.2.2 := by
  cases a with
  | acquire r p keep =>
    cases h
    exact List.mem_singleton_self _
  | series x p =>
    cases p with
    | acquiring p =>
      cases h
      rw [(series_standing s x _).2, StepPhase.acquiring_effects]
      exact List.mem_singleton_self _
    | _ => cases h
  | _ => cases h

/-- The lease that a client releases next, by its node, its key and its fence. -/
def releases? : Activity → Option (Nat × String × Fence)
  | .series x (.releasing lease _) => some (x.current.node, lease.resource, lease.fence)
  | _ => none

end Activity

namespace Shift

variable {s s' : Site} {σ : Standing} {rev : Option (String × Nat)} {news : Option News} {q : String} {t : Ticket}
  {giveUp : Instant}

/-- Who has just found itself first is the first of those whose deadline has not come. -/
theorem told_first (h : Shift s s' σ (.waits q t giveUp .first) rev news) :
    σ.place? = some (q, t.number) ∧ ∃ u ts, ((s.keyState q).prune s.now).tickets = u :: ts ∧
      u.number = t.number ∧ (s'.keyState q).tickets = u :: ts := by
  cases h with
  | looked hk h first lost =>
    cases hk
    obtain ⟨u, ts, hts, hu⟩ := KeyState.position_first (first rfl)
    exact ⟨rfl, u, ts, hts, hu, h.here.1.trans hts⟩
  | moved h first lost => exact absurd rfl first
  | rejoined ht h first lost => exact absurd rfl first

end Shift

namespace Crowd

variable {c : Crowd} {a : Act} {i j n r : Nat} {q : AcquireRequest} {p : AcquirePhase} {key : String}

section Awake

/-! Who is awake. -/

/-- All callers of a node that wait for a key are awake. -/
def Awake (c : Crowd) (node : Nat) (key : String) : Prop :=
  c.Each fun _ x => x.activity.waitsOn c.site node key → x.activity.wake = x.activity

variable {node : Nat}

theorem Awake.effect (h : c.Awake node key) (e : Effect) : (c.effect e).Awake node key := by
  cases e with
  | revoke key' ticket => exact Each.enter h fun _ => nofun
  | wake node' key' =>
    intro i x hx hwaits
    obtain ⟨y, hy, rfl⟩ := Option.map_eq_some_iff.mp (List.getElem?_map.symm.trans hx)
    by_cases hwoken : y.activity.waitsOn c.site node' key'
    · rw [if_pos hwoken]
      exact y.activity.wake_wake
    · rw [if_neg hwoken] at hwaits ⊢
      exact h i y hy hwaits

theorem awake_wake (c : Crowd) (node : Nat) (key : String) : (c.effect (.wake node key)).Awake node key := by
  intro i x hx hwaits
  obtain ⟨y, hy, rfl⟩ := Option.map_eq_some_iff.mp (List.getElem?_map.symm.trans hx)
  by_cases hwoken : y.activity.waitsOn c.site node key
  · rw [if_pos hwoken]
    exact y.activity.wake_wake
  · rw [if_neg hwoken] at hwaits
    exact absurd hwaits hwoken

theorem Awake.effects (h : c.Awake node key) (fx : List Effect) : (fx.foldl Crowd.effect c).Awake node key := by
  induction fx generalizing c with
  | nil => exact h
  | cons e fx ih => exact ih (h.effect e)

theorem awake_effects {fx : List Effect} (h : .wake node key ∈ fx) (c : Crowd) :
    (fx.foldl Crowd.effect c).Awake node key := by
  induction fx generalizing c with
  | nil => cases h
  | cons e fx ih =>
    rcases List.mem_cons.mp h with rfl | h
    · exact (c.awake_wake node key).effects fx
    · exact ih h _

end Awake

/-- The lease that an act releases, by the node, the key and the fence. -/
def releases? (c : Crowd) : Act → Option (Nat × String × Fence)
  | .release node key fence => some (node, key, fence)
  | .go i => (c.clients[i]?).bind fun x => x.activity.releases?
  | _ => none

/-- The lock of a node lets go of a key: it deletes the live lease, or a caller that has given up removes its
ticket while the key is free. -/
inductive LetsGo (c : Crowd) (node : Nat) (key : String) : Act → Prop
  | releases {a : Act} {l : Lease} (h : c.releases? a = some (node, key, l.fence))
      (hl : (c.site.keyState key).liveLease c.now = some l) : LetsGo c node key a
  | gives {i : Nat} {q : AcquireRequest} {w : Waiter} (h : c.caller? i = some (q, .leaving w))
      (hnode : q.node = node) (hkey : q.key = key)
      (hfree : ((c.act (.go i)).site.keyState key).liveLease (c.act (.go i)).now = none) :
      LetsGo c node key (.go i)

/-- What an act does that releases a lease. -/
theorem act_releases {m : MemoryLeases} (hm : c.site.leases = .memory m) {node : Nat} {f : Fence}
    (hspared : c.site.spares (.delete f)) (h : c.releases? a = some (node, key, f)) :
    (c.act a).Awake node key ∧
      (c.act a).site.keyState key = ((c.site.keyState key).delete c.now f).2 := by
  obtain ⟨hdeleted, hwake⟩ := release_spared hm hspared node key
  cases a with
  | release node' key' fence =>
    cases h
    have hact : c.act (.release node key f) =
        (c.site.release node key f).2.2.foldl effect { c with site := (c.site.release node key f).2.1 } := rfl
    rw [hact, foldl_effect_site]
    exact ⟨awake_effects (by rw [hwake]; exact List.mem_singleton_self _) _, hdeleted⟩
  | go i =>
    obtain ⟨x, hx, hreleases⟩ := Option.bind_eq_some_iff.mp h
    obtain ⟨y, l, result, hactivity⟩ : ∃ y l result, x.activity = .series y (.releasing l result) := by
      unfold Activity.releases? at hreleases
      split at hreleases
      · exact ⟨_, _, _, ‹_›⟩
      · cases hreleases
    rw [hactivity] at hreleases
    cases hreleases
    have hsite := StepPhase.releasing_site y.current c.site l result
    rw [act_go hx, foldl_effect_site, hactivity, Activity.series_site, hsite.alike.keyState]
    refine ⟨awake_effects ?_ _, hdeleted⟩
    rw [(Activity.series_standing c.site y _).2, StepPhase.releasing_effects, hwake]
    exact List.mem_singleton_self _
  | _ => cases h

/-- Then the key is free, and the callers of the node are awake. -/
theorem LetsGo.wakes {m : MemoryLeases} (hm : c.site.leases = .memory m) {node : Nat}
    (hsmooth : c.site.smooth node) (h : LetsGo c node key a) :
    (c.act a).Awake node key ∧ ((c.act a).site.keyState key).liveLease (c.act a).now = none := by
  cases h with
  | releases h hl =>
    obtain ⟨hawake, hdeleted⟩ := act_releases hm (smooth_spares hsmooth _) h
    refine ⟨hawake, ?_⟩
    rw [hdeleted]
    exact KeyState.liveLease_none (KeyState.delete_live hl) _
  | gives h hnode hkey hfree =>
    subst hnode hkey
    refine ⟨?_, hfree⟩
    obtain ⟨x, hx, hcaller⟩ := Option.bind_eq_some_iff.mp h
    rw [act_go hx]
    exact awake_effects (Activity.leaving_wakes hcaller) _

end Crowd

end FencedSessions
