import FencedSessions.Proofs.Cooldowns
import FencedSessions.Proofs.Phases
import FencedSessions.Proofs.Quiet

/-! The traffic between the lock of a node and the lease store. A call is let through, reaches the store and
is reported in moves of its own, and between them anything may happen: other calls come and go, callers are
dropped, other nodes use the store. A release asks nobody, but is reported. So the breaker is told of calls
that are no probes, in whatever state it is. -/

namespace FencedSessions

/-- A call of a lock to the lease store. -/
structure StoreCall where
  key : String
  op : LeaseOp
  /-- When the breaker let it through; a release does not ask. -/
  admitted : Option Instant
  answer : Option (Except Stop op.Answer) := none
  /-- Whether it was reported, or its caller dropped. -/
  ended : Bool := false

/-- What a breaker was told of a call. -/
structure Report where
  call : Nat
  /-- When the breaker let the call through, if it was asked. -/
  admitted : Option Instant
  /-- How many calls had begun by then. -/
  begun : Nat
  time : Instant
  succeeded : Bool
deriving DecidableEq

namespace Report

/-- How many calls in a row have failed. -/
def inRow (reports : List Report) : Nat := (reports.rtakeWhile (!·.succeeded)).length

/-- Whether a report is of a failure that opens the circuit, or opens it anew. -/
def Opens (c : BreakerSettings) (before : List Report) (r : Report) : Prop :=
  r.succeeded = false ∧ c.limit ≤ inRow (before ++ [r])

instance (c : BreakerSettings) (before : List Report) (r : Report) : Decidable (Opens c before r) :=
  inferInstanceAs (Decidable (_ ∧ _))

/-- What an answer says about the store, if anything. -/
def verdict {α : Type} : Except Stop α → Option Bool
  | .ok _ => some true
  | .error (.error e) => if e.transient then some false else none
  | .error .overflow => none

variable {reports : List Report} {r : Report}

theorem inRow_success (h : r.succeeded) : inRow (reports ++ [r]) = 0 := by
  rw [inRow, List.rtakeWhile_concat_neg _ _ _ (by simp [h])]
  rfl

theorem inRow_failure (h : r.succeeded = false) : inRow (reports ++ [r]) = inRow reports + 1 := by
  rw [inRow, List.rtakeWhile_concat_pos _ _ _ (by simp [h]), List.length_append]
  rfl

end Report

open Report (verdict inRow Opens)

namespace Breaker

variable {c : BreakerSettings} {b : Breaker} {t : Instant} {limit : Int}

/-- Whether no call is let through before a time. -/
def OpenUntil (limit : Int) : Breaker → Prop
  | .closed _ => False
  | .opened retryAt => limit ≤ retryAt.ns
  | .halfOpen probeAt => limit ≤ probeAt.ns

/-- What a breaker makes of a report. -/
def hear (c : BreakerSettings) (t : Instant) (b : Breaker) (succeeded : Bool) : Breaker :=
  if succeeded then b.recordSuccess else (b.recordFailure c t).2

theorem observe_hear {α : Type} (c : BreakerSettings) (t : Instant) (answer : Except Stop α) (b : Breaker) :
    (b.observe c t answer).2 = (verdict answer).elim b (b.hear c t) := by
  match answer with
  | .ok a => rfl
  | .error .overflow => rfl
  | .error (.error e) =>
    simp only [observe, verdict]
    by_cases he : e.transient
    · rw [if_pos he, if_pos he]
      simp only [Option.elim_some, hear, Bool.false_eq_true, if_false]
      generalize b.recordFailure c t = done
      obtain ⟨_ | _, b'⟩ := done <;> rfl
    · rw [if_neg he, if_neg he]
      rfl

/-- A breaker that turns a call away stays as it is. -/
theorem pass_error {e : Stop} {b' : Breaker} (h : b.pass c t = (.error e, b')) : b' = b := by
  cases b with
  | closed n => cases h
  | opened retryAt =>
    rw [pass] at h
    split at h
    · cases h
    · exact (congrArg Prod.snd h).symm
  | halfOpen probeAt =>
    simp only [pass] at h
    split at h
    · exact (congrArg Prod.snd h).symm
    · split at h
      · cases h
      · exact (congrArg Prod.snd h).symm

theorem pass_ok {b' : Breaker} (h : b.pass c t = (.ok (), b')) : b' = b ∨ b' = .halfOpen t := by
  cases b with
  | closed n => exact .inl (congrArg Prod.snd h).symm
  | opened retryAt =>
    rw [pass] at h
    split at h
    · exact .inr (congrArg Prod.snd h).symm
    · cases h
  | halfOpen probeAt =>
    simp only [pass] at h
    split at h
    · cases h
    · split at h
      · exact .inr (congrArg Prod.snd h).symm
      · cases h

/-- Who is let through comes no earlier, and is the probe. -/
theorem OpenUntil.pass (h : b.OpenUntil limit) (hprobe : ∀ p, b = .halfOpen p → c.Fits p) {b' : Breaker}
    (hpass : b.pass c t = (.ok (), b')) : limit ≤ t.ns ∧ b' = .halfOpen t := by
  cases b with
  | closed n => exact absurd h id
  | opened retryAt =>
    rw [Breaker.pass] at hpass
    split at hpass
    · rename_i hover
      exact ⟨Int.le_trans h hover, (congrArg Prod.snd hpass).symm⟩
    · cases hpass
  | halfOpen probeAt =>
    have hwait : 0 ≤ c.wait := by unfold BreakerSettings.wait; omega
    rw [Breaker.pass, BreakerSettings.cooldownEnd?_fits (hprobe probeAt rfl)] at hpass
    dsimp only at hpass
    split at hpass
    · rename_i hover
      refine ⟨?_, (congrArg Prod.snd hpass).symm⟩
      have hover : probeAt.ns + c.wait ≤ t.ns := hover
      have h : limit ≤ probeAt.ns := h
      omega
    · cases hpass

/-- Everybody before is turned away. -/
theorem OpenUntil.rejects (h : b.OpenUntil limit) (hprobe : ∀ p, b = .halfOpen p → p ≤ t) (ht : t.ns < limit) :
    ∃ ms, b.pass c t = (.error (.error (.circuitOpen ms)), b) := by
  cases b with
  | closed n => exact absurd h id
  | opened retryAt => exact ⟨_, pass_opened (Int.lt_of_lt_of_le ht h)⟩
  | halfOpen probeAt =>
    have hlater : probeAt.ns ≤ t.ns := hprobe probeAt rfl
    exact absurd (Int.lt_of_lt_of_le ht h) (Int.not_lt.mpr hlater)

/-- A failure puts the end off. -/
theorem hear_trips (hb : b.Trips c) (ht : c.Fits t) : b.hear c t false = .opened ⟨t.ns + c.wait⟩ := by
  rw [hear, if_neg Bool.false_ne_true, recordFailure_trips hb, BreakerSettings.cooldownEnd?_fits ht]

theorem OpenUntil.trips (h : b.OpenUntil limit) : b.Trips c := by
  cases b with
  | closed n => exact absurd h id
  | opened retryAt => trivial
  | halfOpen probeAt => trivial

/-- A breaker that is closed after a failure has counted it. -/
theorem hear_closed {n : Nat} (ht : c.Fits t) (h : b.hear c t false = .closed n) :
    ∃ m, b = .closed m ∧ n = m + 1 := by
  by_cases hb : b.Trips c
  · rw [hear_trips hb ht] at h
    cases h
  · cases b with
    | closed m =>
      have hfew : ¬c.threshold ≤ m + 1 := hb
      rw [hear, if_neg Bool.false_ne_true, recordFailure, if_neg hfew] at h
      exact ⟨m, rfl, (closed.inj h).symm⟩
    | opened retryAt => exact absurd trivial hb
    | halfOpen probeAt => exact absurd trivial hb

/-- No report leads to a probe. -/
theorem hear_probe {p : Instant} {ok : Bool} (ht : c.Fits t) (h : b.hear c t ok = .halfOpen p) : False := by
  cases ok with
  | true => cases h
  | false =>
    by_cases hb : b.Trips c
    · rw [hear_trips hb ht] at h
      cases h
    · cases b with
      | closed m =>
        have hfew : ¬c.threshold ≤ m + 1 := hb
        rw [hear, if_neg Bool.false_ne_true, recordFailure, if_neg hfew] at h
        cases h
      | opened retryAt => exact hb trivial
      | halfOpen probeAt => exact hb trivial

end Breaker

/-- What happens between a lock and the lease store. -/
inductive Move where
  /-- An operation other than a release asks for a call. -/
  | ask (key : String) (op : LeaseOp)
  /-- A release comes. -/
  | release (key : String) (fence : Fence)
  /-- A call reaches the store. -/
  | reach (call : Nat)
  /-- The answer to a call is reported to the breaker. -/
  | report (call : Nat)
  /-- The caller of a call is dropped. -/
  | drop (call : Nat)
  /-- Others call the store, or a ticket is removed in the background. -/
  | bypass (key : String) (op : LeaseOp)
  /-- The clock is set. -/
  | set (t : Instant)
  /-- Time passes on the timer. -/
  | tick (ms : Nat)
  /-- From now on calls are disturbed in this way. -/
  | disturb (plan : List Disturbance)

structure Traffic where
  site : Site
  /-- In the order in which they began. -/
  calls : List StoreCall := []
  /-- Oldest first. -/
  reports : List Report := []

/-- A site before the first call of a lock. -/
def Site.traffic (s : Site) : Traffic := { site := s }

namespace Traffic

/-- A call reaches the store. -/
def reach (T : Traffic) (i : Nat) : Traffic :=
  match T.calls[i]? with
  | none => T
  | some call =>
    if call.ended || call.answer.isSome then T
    else
      let (answer, site) := T.site.lease call.key call.op
      { T with site, calls := T.calls.set i { call with answer := some answer } }

/-- The answer to a call is reported to the breaker of a node. -/
def report (n : Nat) (T : Traffic) (i : Nat) : Traffic :=
  match T.calls[i]? with
  | none => T
  | some call =>
    match call.answer with
    | none => T
    | some answer =>
      if call.ended then T
      else
        { site := (T.site.observed n answer).2
          calls := T.calls.set i { call with ended := true }
          reports := T.reports ++ (verdict answer).toList.map fun succeeded =>
            ⟨i, call.admitted, T.calls.length, T.site.now, succeeded⟩ }

def drop (T : Traffic) (i : Nat) : Traffic :=
  match T.calls[i]? with
  | none => T
  | some call => { T with calls := T.calls.set i { call with ended := true } }

/-- The next move, where the lock is that of a node. -/
def step (n : Nat) (T : Traffic) : Move → Traffic
  | .ask key op =>
    match (T.site.breaker n).pass (T.site.settings n).breaker T.site.now with
    | (.error _, b) => { T with site := T.site.setBreaker n b }
    | (.ok (), b) =>
      { T with site := T.site.setBreaker n b, calls := T.calls ++ [⟨key, op, some T.site.now, none, false⟩] }
  | .release key fence => { T with calls := T.calls ++ [⟨key, .delete fence, none, none, false⟩] }
  | .reach i => T.reach i
  | .report i => T.report n i
  | .drop i => T.drop i
  | .bypass key op => { T with site := (T.site.lease key op).2 }
  | .set t => { T with site := { T.site with clock := t } }
  | .tick ms => { T with site := { T.site with timer := T.site.timer + ms } }
  | .disturb plan => { T with site := { T.site with plan } }

def run (n : Nat) (T : Traffic) (moves : List Move) : Traffic := moves.foldl (step n) T

/-- The clock readings of a run, one before each move and one at its end. -/
def readings (n : Nat) : Traffic → List Move → List Instant
  | T, [] => [T.site.now]
  | T, m :: moves => T.site.now :: readings n (T.step n m) moves

variable {T T' : Traffic} {n : Nat} {key : String} {op : LeaseOp}

/-- A release is these three moves in a row. -/
theorem run_release (n : Nat) (T : Traffic) (key : String) (fence : Fence) :
    (T.run n [.release key fence, .reach T.calls.length, .report T.calls.length]).site =
      (T.site.unguarded n key (.delete fence)).2 := by
  simp [run, step, reach, report, Site.unguarded]

/-- A call of another operation is, if the breaker lets it through. -/
theorem run_ask (h : ((T.site.breaker n).pass (T.site.settings n).breaker T.site.now).1 = .ok ()) :
    (T.run n [.ask key op, .reach T.calls.length, .report T.calls.length]).site =
      (T.site.guarded n key op).2 := by
  generalize hpass : (T.site.breaker n).pass (T.site.settings n).breaker T.site.now = passed at h
  obtain ⟨_ | _, b⟩ := passed
  · cases h
  · simp [run, step, reach, report, Site.guarded, Site.unguarded, hpass]

/-- All calls were let through when they were before, apart from those that did not ask. -/
def Kept (calls calls' : List StoreCall) : Prop :=
  ∀ (i : Nat) (call : StoreCall), calls'[i]? = some call →
    call.admitted = none ∨ ∃ old : StoreCall, calls[i]? = some old ∧ old.admitted = call.admitted

theorem Kept.refl (calls : List StoreCall) : Kept calls calls := fun _ call h => .inr ⟨call, h, rfl⟩

theorem Kept.set {calls : List StoreCall} {i : Nat} {old call : StoreCall} (h : calls[i]? = some old)
    (hcall : call.admitted = old.admitted) : Kept calls (calls.set i call) := by
  intro j x hx
  by_cases hj : i = j
  · subst hj
    rw [List.getElem?_set_self'] at hx
    obtain ⟨y, -, rfl⟩ := Option.map_eq_some_iff.mp hx
    exact .inr ⟨old, h, hcall.symm⟩
  · rw [List.getElem?_set_ne hj] at hx
    exact .inr ⟨x, hx, rfl⟩

/-- All that a move may do to what a breaker knows. -/
inductive Steps (n : Nat) (T T' : Traffic) : Prop where
  | idle (nodes : T'.site.nodes = T.site.nodes) (calls : Kept T.calls T'.calls)
    (reports : T'.reports = T.reports)
  | asked {key : String} {op : LeaseOp} {b : Breaker}
    (pass : (T.site.breaker n).pass (T.site.settings n).breaker T.site.now = (.ok (), b))
    (site : T'.site = T.site.setBreaker n b)
    (calls : T'.calls = T.calls ++ [⟨key, op, some T.site.now, none, false⟩])
    (reports : T'.reports = T.reports)
  | told {i : Nat} {call : StoreCall} {succeeded : Bool} (found : T.calls[i]? = some call)
    (site : T'.site = T.site.setBreaker n
      ((T.site.breaker n).hear (T.site.settings n).breaker T.site.now succeeded))
    (calls : Kept T.calls T'.calls)
    (reports : T'.reports = T.reports ++ [⟨i, call.admitted, T.calls.length, T.site.now, succeeded⟩])

theorem lease_nodes (s : Site) (key : String) (op : LeaseOp) : (s.lease key op).2.nodes = s.nodes := by
  refine Site.disturbed_view (fun _ => rfl) (fun _ _ => rfl) (fun s => ?_) s
  unfold Site.leaseRun
  cases s.leases <;> rfl

theorem reach_steps (n : Nat) (T : Traffic) (i : Nat) : Steps n T (T.reach i) := by
  have hsame : Steps n T T := .idle rfl (.refl _) rfl
  unfold reach
  split
  · exact hsame
  · rename_i call hcall
    split
    · exact hsame
    · exact .idle (lease_nodes T.site call.key call.op) (.set hcall rfl) rfl

theorem report_steps (n : Nat) (T : Traffic) (i : Nat) : Steps n T (T.report n i) := by
  have hsame : Steps n T T := .idle rfl (.refl _) rfl
  unfold report
  split
  · exact hsame
  · rename_i call hcall
    split
    · exact hsame
    · rename_i answer _
      split
      · exact hsame
      · have hheard := Breaker.observe_hear (T.site.settings n).breaker T.site.now answer (T.site.breaker n)
        have hsite : (T.site.observed n answer).2 = T.site.setBreaker n
            ((T.site.breaker n).observe (T.site.settings n).breaker T.site.now answer).2 := rfl
        rw [hsite, hheard]
        cases hverdict : verdict answer with
        | none =>
          refine .idle ?_ (.set hcall rfl) ?_
          · simp only [Option.elim_none, Site.setBreaker_self]
          · simp
        | some succeeded => exact .told hcall rfl (.set hcall rfl) (by simp)

theorem drop_steps (n : Nat) (T : Traffic) (i : Nat) : Steps n T (T.drop i) := by
  unfold drop
  split
  · exact .idle rfl (.refl _) rfl
  · rename_i call hcall
    exact .idle rfl (.set hcall rfl) rfl

theorem step_steps (n : Nat) (T : Traffic) (m : Move) : Steps n T (T.step n m) := by
  cases m with
  | ask key op =>
    simp only [step]
    split
    · rename_i b hpass
      obtain rfl := Breaker.pass_error hpass
      exact .idle (congrArg Site.nodes (Site.setBreaker_self T.site n)) (.refl _) rfl
    · rename_i b hpass
      exact .asked hpass rfl rfl rfl
  | release key fence =>
    refine .idle rfl (fun i call hcall => ?_) rfl
    rcases List.mem_append.mp (List.mem_of_getElem? hcall) with hmem | hmem
    · rcases Nat.lt_or_ge i T.calls.length with hi | hi
      · exact .inr ⟨call, (List.getElem?_append_left hi).symm.trans hcall, rfl⟩
      · refine .inl ?_
        have hlast := (List.getElem?_append_right hi).symm.trans hcall
        rw [List.mem_singleton.mp (List.mem_of_getElem? hlast)]
    · refine .inl ?_
      rw [List.mem_singleton.mp hmem]
  | reach i => exact reach_steps n T i
  | report i => exact report_steps n T i
  | drop i => exact drop_steps n T i
  | bypass key op => exact .idle (lease_nodes T.site key op) (.refl _) rfl
  | set t => exact .idle rfl (.refl _) rfl
  | tick ms => exact .idle rfl (.refl _) rfl
  | disturb plan => exact .idle rfl (.refl _) rfl

end Traffic

end FencedSessions
