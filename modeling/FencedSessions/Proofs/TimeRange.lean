import FencedSessions.Proofs.Moments
import FencedSessions.Proofs.Phases

/-! Which timeouts, leases and poll intervals lead beyond the end of the time line. A span is added as it
stands up to 2⁶³ - 1 milliseconds, some 292 million years, and the line ends in the year 262142: what
lies between the two has no sum, at whatever clock reading, and all else has one. -/

namespace FencedSessions

namespace Instant

/-- The last instant of the year 9999. -/
def last9999 : Instant := ⟨253402300799 * 1000000000 + 999999999⟩

example : last9999.text = "9999-12-31T23:59:59.999999999Z" := by decide

/-- How far the time line goes on after the year 9999, in nanoseconds. -/
def room : Int := last.ns - last9999.ns

variable {t : Instant} {d : Span}

theorem isSome_after? (h : t.Held) : (t.after? d).isSome ↔ t.ns + d.offset ≤ last.ns := by
  have hoffset := d.offset_nonneg
  have hfirst : first.ns ≤ t.ns + d.offset := Int.le_trans h.1 (Int.le_add_of_nonneg_right hoffset)
  unfold after? shift?
  split
  · rename_i hheld
    exact iff_of_true rfl hheld.2
  · rename_i hbeyond
    exact iff_of_false Bool.false_ne_true fun hle => hbeyond ⟨hfirst, hle⟩

/-- There is room after every instant up to the year 9999. -/
theorem isSome_after?_of_room (h : t.Held) (hearly : t ≤ last9999) (hd : d.offset ≤ room) :
    (t.after? d).isSome := by
  have hns : t.ns ≤ last9999.ns := hearly
  refine (isSome_after? h).mpr ?_
  unfold room at hd
  omega

end Instant

/-- The spans for which there is no room are those longer than it that are still added as they stand. -/
theorem Span.room_lt_offset (d : Span) : Instant.room < d.offset ↔ Instant.room < d.ns ∧ d.ns ≤ exactLimit := by
  have hcentury : (century : Int) ≤ Instant.room := by decide
  unfold offset
  split
  · rename_i hle
    exact ⟨fun hlt => ⟨hlt, hle⟩, And.left⟩
  · rename_i hlong
    exact iff_of_false (Int.not_lt.mpr hcentury) fun hd => hlong hd.2

/-- The span by which an operation sets the end of a lease. -/
def LeaseOp.ttl? : LeaseOp → Option Span
  | .grant _ _ _ ttl => some ttl
  | .extend _ ttl => some ttl
  | .delete _ | .get | .enqueue .. | .position _ | .remove _ | .queueLength => none

/-- Only the end of a lease can lie beyond the time line. -/
theorem KeyState.run_overflow {k : KeyState} {key : String} {now : Instant} {op : LeaseOp}
    (h : ∀ d, op.ttl? = some d → (now.after? d).isSome) : (k.run key now op).1 ≠ .error .overflow := by
  cases op with
  | grant expected holder position ttl =>
    obtain ⟨expiry, hexpiry⟩ := Option.isSome_iff_exists.mp (h ttl rfl)
    simp only [run, grant, hexpiry]
    split <;> simp
  | extend fence ttl =>
    obtain ⟨expiry, hexpiry⟩ := Option.isSome_iff_exists.mp (h ttl rfl)
    simp only [run, extend, hexpiry]
    split
    · split <;> simp
    · simp
  | delete fence => simp [run]
  | get => simp [run]
  | enqueue holder deadline => simp [run]
  | position ticket => simp [run]
  | remove ticket => simp [run]
  | queueLength => simp [run]

/-- What the files of a store are used for never ends a task. -/
theorem DirectoryLeases.run_overflow (t : FileTree) (d : String) (now : Instant) (key : String) (op : LeaseOp) :
    (run t d now key op).1 ≠ .error .overflow := by
  have hload (t : FileTree) (p : String) : load t p ≠ .error .overflow := by
    unfold load parse
    split
    · cases KeyState.reader.ofText _ <;> exact fun h => by cases h
    · simp
    · simp [FileTree.Fault.toStop]
  have hstore (t : FileTree) (k : KeyState) : (store t d key k).1 ≠ .error .overflow := by
    unfold store
    dsimp only
    split
    · simp [FileTree.Fault.toStop]
    · split <;> simp [FileTree.Fault.toStop]
  have hfailed (e : Stop) : failed e ≠ .overflow := by cases e <;> simp [failed]
  unfold run
  split
  · simp [FileTree.Fault.toStop]
  · rename_i t _
    have hload := hload t (path d key ".json")
    split
    · rename_i e he
      rw [he] at hload
      simpa using hload
    · split
      · rename_i e _ _
        simpa using hfailed e
      · split
        · rename_i k _ _
          have hstore := hstore t k
          split
          · simp
          · rename_i e _ he
            rw [he] at hstore
            simpa using hstore
        · simp

namespace Breaker

variable {c : BreakerSettings} {b : Breaker} {t : Instant}

/-- A breaker ends a task only if it looks for the end of a probe's cooldown beyond the time line. -/
theorem pass_overflow (h : ∀ probeAt, b = .halfOpen probeAt → (c.cooldownEnd? probeAt).isSome) :
    (b.pass c t).1 ≠ .error .overflow := by
  cases b with
  | closed n => simp [pass]
  | opened retryAt =>
    unfold pass
    dsimp only
    split <;> simp [reject]
  | halfOpen probeAt =>
    obtain ⟨retryAt, hretry⟩ := Option.isSome_iff_exists.mp (h probeAt rfl)
    rw [pass, hretry]
    dsimp only
    split <;> simp [reject]

theorem recordFailure_overflow (h : (c.cooldownEnd? t).isSome) : (b.recordFailure c t).1 ≠ .error .overflow := by
  obtain ⟨retryAt, hretry⟩ := Option.isSome_iff_exists.mp h
  cases b with
  | closed n =>
    rw [recordFailure, hretry]
    dsimp only
    split <;> simp
  | opened retryAt => simp [recordFailure, hretry]
  | halfOpen probeAt => simp [recordFailure, hretry]

theorem observe_overflow {α : Type} {answer : Except Stop α} (h : (c.cooldownEnd? t).isSome)
    (hanswer : answer ≠ .error .overflow) : (b.observe c t answer).1 ≠ .error .overflow := by
  have hfailure := recordFailure_overflow (b := b) h
  match answer with
  | .ok a => simp [observe]
  | .error .overflow => exact absurd rfl hanswer
  | .error (.error e) =>
    simp only [observe]
    split
    · split
      · simp
      · rename_i s _ hs
        rw [hs] at hfailure
        simpa using hfailure
    · simp

end Breaker

namespace Site

variable {s : Site} {n : Nat} {key : String} {op : LeaseOp}

/-- The cooldown of a node's breaker ends on the time line, whenever it has begun or will begin after the
next call. -/
structure CooldownFits (s : Site) (n : Nat) : Prop where
  probe : ∀ probeAt, s.breaker n = .halfOpen probeAt → ((s.settings n).breaker.cooldownEnd? probeAt).isSome
  failure : ∀ key op, ((s.settings n).breaker.cooldownEnd? (s.lease key op).2.now).isSome

theorem leaseRun_overflow (h : ∀ d, op.ttl? = some d → (s.now.after? d).isSome) :
    (s.leaseRun key op).1 ≠ .error .overflow := by
  unfold leaseRun
  split
  · exact KeyState.run_overflow h
  · exact DirectoryLeases.run_overflow _ _ _ _ _

theorem lease_overflow (h : ∀ d, op.ttl? = some d → (s.now.after? d).isSome) :
    (s.lease key op).1 ≠ .error .overflow := by
  unfold lease
  rcases disturbed_cases s op.callName (fun s => s.leaseRun key op) with ⟨e, he, -⟩ | ⟨hrun, -⟩
  · rw [he]
    simp
  · rw [hrun]
    exact leaseRun_overflow h

theorem leaseRun_setBreaker (s : Site) (n : Nat) (b : Breaker) (key : String) (op : LeaseOp) :
    (s.setBreaker n b).leaseRun key op = ((s.leaseRun key op).1, (s.leaseRun key op).2.setBreaker n b) := by
  have hleases : (s.setBreaker n b).leases = s.leases := rfl
  unfold leaseRun
  rw [hleases]
  cases s.leases <;> rfl

/-- The breaker of a node is no part of what the stores are asked. -/
theorem lease_setBreaker (s : Site) (n : Nat) (b : Breaker) (key : String) (op : LeaseOp) :
    (s.setBreaker n b).lease key op = ((s.lease key op).1, (s.lease key op).2.setBreaker n b) := by
  have hnote : (s.setBreaker n b).note op.callName =
      ((s.note op.callName).1, (s.note op.callName).2.setBreaker n b) := rfl
  unfold lease disturbed
  rw [hnote]
  generalize s.note op.callName = found
  obtain ⟨_ | d, t⟩ := found
  · exact leaseRun_setBreaker t n b key op
  · dsimp only
    split
    · rfl
    · rw [leaseRun_setBreaker]
      obtain ⟨answer, u⟩ := t.leaseRun key op
      match answer, d.advance with
      | .error .overflow, _ => rfl
      | .error (.error e), none => rfl
      | .error (.error e), some jump => rfl
      | .ok a, none => rfl
      | .ok a, some jump => rfl

theorem guarded_overflow (hfits : s.CooldownFits n) (h : ∀ d, op.ttl? = some d → (s.now.after? d).isSome) :
    (s.guarded n key op).1 ≠ .error .overflow := by
  have hpass := Breaker.pass_overflow (t := s.now) hfits.probe
  unfold guarded
  split
  · rename_i e b he
    rw [he] at hpass
    simpa using hpass
  · rename_i b _
    have hsettings : ((s.lease key op).2.setBreaker n b).settings n = s.settings n :=
      (settings_setBreaker _ n n b).trans ((lease_called s key op).frame.settings n)
    unfold unguarded
    rw [lease_setBreaker]
    refine Breaker.observe_overflow ?_ (lease_overflow h)
    rw [hsettings]
    exact hfits.failure key op

theorem renew_overflow {fence : Fence} {d : Span} (hfits : s.CooldownFits n) (h : (s.now.after? d).isSome) :
    (s.renew n key fence d).1 ≠ .error .overflow := by
  have hguarded : (s.guarded n key (.extend fence d)).1 ≠ .error .overflow := by
    refine guarded_overflow hfits fun d' hd' => ?_
    obtain rfl := Option.some.inj hd'
    exact h
  unfold renew
  split
  · simp
  · simp
  · rename_i e _ he
    rw [he] at hguarded
    simpa using hguarded

end Site

namespace AcquirePhase

variable {q : AcquireRequest} {s : Site}

/-- A caller's request is for a lease of its `ttl`, and for no other. -/
theorem ttl?_call? {p : AcquirePhase} {op : LeaseOp} {d : Span} (h : p.call? q = some op)
    (hd : op.ttl? = some d) : d = q.ttl := by
  cases p with
  | granting w =>
    obtain rfl := Option.some.inj h
    exact (Option.some.inj hd).symm
  | starting => cases h
  | waiting w due => cases h
  | finished result => cases h
  | joining d => cases h; cases hd
  | checking w => cases h; cases hd
  | rejoining w => cases h; cases hd
  | taking w lease => cases h; cases hd
  | leaving w => cases h; cases hd

theorem settle_result? (s : Site) (q : AcquireRequest) (w : Waiter) : (settle s q w).result? = none := by
  unfold settle
  split <;> rfl

/-- Where the deadlines and the end of the lease are on the time line, no step runs beyond it. -/
theorem step_overflow {p : AcquirePhase} (hfits : s.CooldownFits q.node)
    (hdeadlines : (deadlines? s q).isSome) (httl : (s.now.after? q.ttl).isSome) (hp : p.result? = none) :
    (p.step q s).1.result? ≠ some (.error .overflow) := by
  have hcall (op : LeaseOp) (hop : p.call? q = some op) : (s.guarded q.node q.key op).1 ≠ .error .overflow :=
    Site.guarded_overflow hfits fun d hd => ttl?_call? hop hd ▸ httl
  cases p with
  | starting =>
    obtain ⟨d, hd⟩ := Option.isSome_iff_exists.mp hdeadlines
    simp [step, hd, result?]
  | joining d =>
    have hguarded := hcall _ rfl
    simp only [step]
    split
    · rename_i e t he
      rw [he] at hguarded
      simpa [result?] using hguarded
    · simp [result?]
  | checking w =>
    have hguarded := hcall _ rfl
    simp only [step]
    split
    · rename_i e t he
      rw [he] at hguarded
      simpa [abandonWith, result?] using hguarded
    · simp [result?]
    · simp [settle_result?]
    · split
      · simp [settle_result?]
      · simp [result?]
  | granting w =>
    have hguarded := hcall _ rfl
    simp only [step]
    split
    · rename_i e t he
      rw [he] at hguarded
      simpa [abandonWith, result?] using hguarded
    · simp [result?]
    · simp [settle_result?]
  | rejoining w =>
    have hguarded := hcall _ rfl
    simp only [step]
    split
    · rename_i e t he
      rw [he] at hguarded
      simpa [abandonWith, result?] using hguarded
    · simp [settle_result?]
  | waiting w due => simp [step, result?]
  | taking w lease => simp [step, result?]
  | leaving w => simp [step, result?]
  | finished result => cases hp

end AcquirePhase

/-- Whether acquiring with this request, at whatever point, and renewing for its `ttl` stay on the time
line. -/
structure AcquireRequest.Safe (q : AcquireRequest) (s : Site) : Prop where
  acquires : ∀ p : AcquirePhase, p.result? = none → (p.step q s).1.result? ≠ some (.error .overflow)
  renews : ∀ key fence, (s.renew q.node key fence q.ttl).1 ≠ .error .overflow

/-- Whether they do so for this timeout, poll interval and `ttl` at every clock reading up to the year
9999, wherever the cooldown of the breaker does. -/
def Bearable (timeout : Span) (pollMs : Nat) (ttl : Span) : Prop :=
  ∀ (s : Site) (q : AcquireRequest), s.now.Held → s.now ≤ .last9999 → s.CooldownFits q.node →
    (s.settings q.node).lock.pollIntervalMs = pollMs → q.timeout = timeout → q.ttl = ttl → q.Safe s

section Bearable

variable {timeout ttl : Span} {pollMs : Nat}

theorem bearable (htimeout : timeout.offset + (Span.ofMillis (max pollMs 1)).offset ≤ Instant.room)
    (httl : ttl.offset ≤ Instant.room) : Bearable timeout pollMs ttl := by
  rintro s q hheld hearly hfits rfl rfl rfl
  have hend := Instant.isSome_after?_of_room hheld hearly httl
  refine ⟨fun p hp => AcquirePhase.step_overflow hfits ?_ hend hp,
    fun key fence => Site.renew_overflow hfits hend⟩
  have hroom : Instant.room = Instant.last.ns - Instant.last9999.ns := rfl
  have hns : s.now.ns ≤ Instant.last9999.ns := hearly
  have hpoll := (Span.ofMillis (max (s.settings q.node).lock.pollIntervalMs 1)).offset_nonneg
  obtain ⟨giveUp, hgiveUp⟩ := Option.isSome_iff_exists.mp
    (Instant.isSome_after?_of_room (d := q.timeout) hheld hearly (by omega))
  have hsum := Instant.shift?_ns hgiveUp
  have hgiveUpHeld : giveUp.Held := ⟨Int.le_trans hheld.1 (Instant.le_after hgiveUp), by omega⟩
  have hdeadline := (Instant.isSome_after? (d := (s.settings q.node).lock.pollInterval) hgiveUpHeld).mpr (by
    unfold LockSettings.pollInterval
    omega)
  obtain ⟨deadline, hdeadline⟩ := Option.isSome_iff_exists.mp hdeadline
  simp [AcquirePhase.deadlines?, hgiveUp, hdeadline]

/-- A site of one node, with a poll interval, at the end of the year 9999. -/
def Site.atEnd (pollMs : Nat) : Site :=
  { clock := .last9999
    nodes := [⟨{ lock := { pollIntervalMs := pollMs }, orchestrator := ⟨"h", 300000⟩ }, .initial⟩] }

theorem Site.atEnd_cooldownFits (pollMs : Nat) : (atEnd pollMs).CooldownFits 0 where
  probe probeAt h := by cases h
  failure key op := by
    have hnow : ((atEnd pollMs).lease key op).2.now = .last9999 := rfl
    have hbreaker : ((atEnd pollMs).settings 0).breaker = {} := rfl
    rw [hnow, hbreaker]
    decide

/-- At that site the queue of a key is joined, and a lease of it granted, only if there is room. -/
theorem Bearable.bounds (h : Bearable timeout pollMs ttl) :
    timeout.offset + (Span.ofMillis (max pollMs 1)).offset ≤ Instant.room ∧ ttl.offset ≤ Instant.room := by
  let s := Site.atEnd pollMs
  let q : AcquireRequest := ⟨0, "k", "h", timeout, ttl⟩
  have hnow : s.now = .last9999 := rfl
  have hheld : Instant.last9999.Held := by decide
  have hsafe : q.Safe s := h s q hheld (Int.le_refl _) (Site.atEnd_cooldownFits pollMs) rfl rfl rfl
  have hroom : Instant.room = Instant.last.ns - Instant.last9999.ns := rfl
  constructor
  · have hstart := hsafe.acquires .starting rfl
    cases hd : AcquirePhase.deadlines? s q with
    | none => simp [AcquirePhase.step, hd, AcquirePhase.result?] at hstart
    | some d =>
      simp only [AcquirePhase.deadlines?, Option.bind_eq_bind, Option.bind_eq_some_iff] at hd
      obtain ⟨giveUp, hgiveUp, deadline, hdeadline, -⟩ := hd
      have hgiveUpHeld := Instant.held_after hgiveUp
      have hend := (Instant.isSome_after? hgiveUpHeld).mp (Option.isSome_of_eq_some hdeadline)
      have hsum : giveUp.ns = Instant.last9999.ns + timeout.offset := Instant.shift?_ns hgiveUp
      have hpoll : (s.settings q.node).lock.pollInterval = .ofMillis (max pollMs 1) := rfl
      rw [hpoll] at hend
      omega
  · refine Int.not_lt.mp fun hbeyond => ?_
    have hnone : s.now.after? ttl = none := by
      rw [← Option.not_isSome_iff_eq_none, hnow, Instant.isSome_after? hheld]
      omega
    have hrun : (KeyState.grant {} "k" s.now none "h" 0 ttl).1 = .error .overflow := by
      simp [KeyState.grant, KeyState.liveLease, hnone]
    have hguarded : (s.guarded 0 "k" (.grant none "h" 0 ttl)).1 = .error .overflow := by
      change (Breaker.observe {} .last9999 (KeyState.grant {} "k" s.now none "h" 0 ttl).1 .initial).1 = _
      rw [hrun]
      rfl
    refine hsafe.acquires (.granting ⟨⟨0, 0, .last9999, .last9999⟩, ⟨0, "h", .last9999, 0⟩, false⟩) rfl ?_
    simp only [AcquirePhase.step]
    split
    · rename_i e t he
      rw [he] at hguarded
      obtain rfl := Except.error.inj hguarded
      rfl
    · rename_i he
      rw [he] at hguarded
      cases hguarded
    · rename_i he
      rw [he] at hguarded
      cases hguarded

/-- Acquiring and renewing stay on the time line, at every clock reading up to the year 9999, for exactly
those timeouts, poll intervals and `ttl`s that leave room on it after that year; and there is no room for
just the spans that are longer than what is left of the line, yet short enough to be added as they stand. -/
theorem bearable_iff (timeout ttl : Span) (pollMs : Nat) :
    (Bearable timeout pollMs ttl ↔
      timeout.offset + (Span.ofMillis (max pollMs 1)).offset ≤ Instant.room ∧ ttl.offset ≤ Instant.room) ∧
    ∀ d : Span, Instant.room < d.offset ↔ Instant.room < d.ns ∧ d.ns ≤ Span.exactLimit :=
  ⟨⟨Bearable.bounds, fun h => bearable h.1 h.2⟩, Span.room_lt_offset⟩

/-- A timeout of some 285 thousand years, taken in 2026, leads beyond the end of the time line. -/
theorem acquire_beyond_time :
    ∃ (s : Site) (q : AcquireRequest), s.now.Held ∧ s.now ≤ .last9999 ∧ q.timeout.ns ≤ Span.longest.ns ∧
      (AcquirePhase.starting.step q s).1.result? = some (.error .overflow) :=
  ⟨{ clock := ⟨1767225600000000000⟩, nodes := [⟨{ orchestrator := ⟨"h", 300000⟩ }, .initial⟩] },
    ⟨0, "k", "h", .ofMillis 9000000000000000, .ofMillis 30000⟩, by decide, by decide, by decide, rfl⟩

end Bearable

end FencedSessions
