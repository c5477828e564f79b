import FencedSessions.Proofs.Traffic

/-! An open circuit keeps a node's calls from the lease store. Until the cooldown is over every operation but
a release is turned away, unless a success is reported first; and that one can only be of a release, of a
call that was under way when the circuit opened, or of a probe that was let through after the cooldown. -/

namespace FencedSessions

open Report (inRow Opens)

/-- Whether a caller is about to ask the breaker for a call. -/
def AcquirePhase.asks : AcquirePhase → Bool
  | .joining _ | .checking _ | .granting _ | .rejoining _ => true
  | .starting | .waiting .. | .taking .. | .leaving _ | .finished _ => false

namespace Site

variable {s s' : Site} {n ms : Nat}

/-- A node turns away every operation but a release, and leaves the site as it is. -/
structure Refuses (s : Site) (n ms : Nat) : Prop where
  acquires : ∀ (q : AcquireRequest) (p : AcquirePhase), q.node = n → p.asks →
    (p.step q s).1 = .finished (.error (.error (.circuitOpen ms))) ∧ (p.step q s).2.1 = s
  renews : ∀ key fence d, s.renew n key fence d = (.error (.error (.circuitOpen ms)), s)
  checks : ∀ key fence, s.check n key fence = (.error (.error (.circuitOpen ms)), s)
  holders : ∀ key, s.holder n key = (.error (.error (.circuitOpen ms)), s)
  lengths : ∀ key, s.queueLength n key = (.error (.error (.circuitOpen ms)), s)

theorem refuses_of_pass
    (h : (s.breaker n).pass (s.settings n).breaker s.now = (.error (.error (.circuitOpen ms)), s.breaker n)) :
    s.Refuses n ms := by
  have hguarded (key : String) (op : LeaseOp) :
      s.guarded n key op = (.error (.error (.circuitOpen ms)), s) := by
    unfold guarded
    rw [h]
    dsimp only
    rw [setBreaker_self]
  constructor
  · rintro q p rfl hp
    cases p with
    | joining d => simp [AcquirePhase.step, hguarded]
    | checking w => simp [AcquirePhase.step, hguarded, AcquirePhase.abandonWith]
    | granting w => simp [AcquirePhase.step, hguarded, AcquirePhase.abandonWith]
    | rejoining w => simp [AcquirePhase.step, hguarded, AcquirePhase.abandonWith]
    | _ => cases hp
  · intro key fence d
    simp [renew, hguarded]
  · intro key fence
    simp [check, hguarded]
  · exact fun key => hguarded key .get
  · exact fun key => hguarded key .queueLength

theorem breaker_nodes (h : s'.nodes = s.nodes) (n : Nat) : s'.breaker n = s.breaker n := by
  unfold breaker node?
  rw [h]

theorem settings_nodes (h : s'.nodes = s.nodes) (n : Nat) : s'.settings n = s.settings n := by
  unfold settings node?
  rw [h]

theorem breaker_setBreaker (h : n < s.nodes.length) (b : Breaker) : (s.setBreaker n b).breaker n = b := by
  unfold breaker node? setBreaker
  rw [List.getElem?_modify, List.getElem?_eq_getElem h]
  simp

theorem length_setBreaker (s : Site) (n : Nat) (b : Breaker) :
    (s.setBreaker n b).nodes.length = s.nodes.length := List.length_modify ..

end Site

/-- Whether a success can be the first that is reported after a failure that opened the circuit: the call is
a release, had begun by then, or was let through after the cooldown. -/
def Report.Closes (c : BreakerSettings) (r q : Report) : Prop :=
  q.admitted = none ∨ q.call < r.begun ∨ ∃ a, q.admitted = some a ∧ r.time.ns + c.wait ≤ a.ns

theorem split_concat {α : Type} {l before after : List α} {x r : α} (h : l ++ [x] = before ++ r :: after) :
    (after = [] ∧ r = x ∧ before = l) ∨ ∃ rest, after = rest ++ [x] ∧ l = before ++ r :: rest := by
  rcases List.eq_nil_or_concat after with rfl | ⟨rest, y, rfl⟩
  · obtain ⟨rfl, hx⟩ := List.append_inj' h rfl
    exact .inl ⟨rfl, (List.singleton_inj.mp hx).symm, rfl⟩
  · rw [List.concat_eq_append, ← List.cons_append, ← List.append_assoc] at h
    obtain ⟨rfl, hx⟩ := List.append_inj' h rfl
    refine .inr ⟨rest, ?_, rfl⟩
    rw [List.concat_eq_append, List.singleton_inj.mp hx]

namespace Traffic

variable {T T' : Traffic} {c : BreakerSettings} {n : Nat} {r : Report}

/-- The circuit is open since a report, and all that was let through since came after the cooldown. -/
structure Guards (T : Traffic) (c : BreakerSettings) (n : Nat) (r : Report) : Prop where
  circuit : (T.site.breaker n).OpenUntil (r.time.ns + c.wait)
  probes : ∀ (i : Nat) (call : StoreCall) (a : Instant), r.begun ≤ i → T.calls[i]? = some call →
    call.admitted = some a → r.time.ns + c.wait ≤ a.ns

/-- What a breaker knows of the traffic. -/
structure Sound (T : Traffic) (c : BreakerSettings) (n : Nat) : Prop where
  settings : (T.site.settings n).breaker = c
  present : n < T.site.nodes.length
  row : ∀ m, T.site.breaker n = .closed m → inRow T.reports = m
  probe : ∀ p, T.site.breaker n = .halfOpen p → c.Fits p ∧ p ≤ T.site.now
  past : ∀ r ∈ T.reports, r.time ≤ T.site.now
  guards : ∀ before r after, T.reports = before ++ r :: after → Opens c before r →
    (∀ q ∈ after, q.succeeded = false) → T.Guards c n r
  closes : ∀ before r mid q after, T.reports = before ++ r :: (mid ++ q :: after) → Opens c before r →
    (∀ p ∈ mid, p.succeeded = false) → q.succeeded → r.Closes c q

theorem Kept.probes {calls calls' : List StoreCall} (h : Kept calls calls') {i : Nat} {call : StoreCall}
    {a : Instant} (hcall : calls'[i]? = some call) (ha : call.admitted = some a) :
    ∃ old : StoreCall, calls[i]? = some old ∧ old.admitted = some a := by
  rcases h i call hcall with hnone | ⟨old, hold, hsame⟩
  · rw [hnone] at ha
    cases ha
  · exact ⟨old, hold, hsame.trans ha⟩

theorem Guards.kept (h : T.Guards c n r) (calls : Kept T.calls T'.calls)
    (circuit : (T'.site.breaker n).OpenUntil (r.time.ns + c.wait)) : T'.Guards c n r where
  circuit := circuit
  probes i call a hi hcall ha := by
    obtain ⟨old, hold, hadmitted⟩ := calls.probes hcall ha
    exact h.probes i old a hi hold hadmitted

namespace Sound

theorem idle (h : T.Sound c n) (hnow : T.site.now ≤ T'.site.now) (nodes : T'.site.nodes = T.site.nodes)
    (calls : Kept T.calls T'.calls) (reports : T'.reports = T.reports) : T'.Sound c n := by
  have hbreaker := Site.breaker_nodes nodes n
  constructor
  · rw [Site.settings_nodes nodes, h.settings]
  · rw [nodes]
    exact h.present
  · rw [hbreaker, reports]
    exact h.row
  · intro p hp
    obtain ⟨hfits, hpast⟩ := h.probe p (hbreaker ▸ hp)
    exact ⟨hfits, Int.le_trans hpast hnow⟩
  · rw [reports]
    exact fun r hr => Int.le_trans (h.past r hr) hnow
  · rw [reports]
    intro before r after hreports hopens hfailed
    have hguards := h.guards before r after hreports hopens hfailed
    exact hguards.kept calls (hbreaker ▸ hguards.circuit)
  · rw [reports]
    exact h.closes

theorem asked (h : T.Sound c n) (hfits : c.Fits T.site.now) {key : String} {op : LeaseOp} {b : Breaker}
    (pass : (T.site.breaker n).pass (T.site.settings n).breaker T.site.now = (.ok (), b))
    (site : T'.site = T.site.setBreaker n b)
    (calls : T'.calls = T.calls ++ [⟨key, op, some T.site.now, none, false⟩])
    (reports : T'.reports = T.reports) : T'.Sound c n := by
  have hbreaker : T'.site.breaker n = b := by rw [site, Site.breaker_setBreaker h.present]
  have hnow : T'.site.now = T.site.now := by rw [site]; rfl
  rw [h.settings] at pass
  constructor
  · rw [site, Site.settings_setBreaker, h.settings]
  · rw [site, Site.length_setBreaker]
    exact h.present
  · rw [hbreaker, reports]
    intro m hm
    rcases Breaker.pass_ok pass with hsame | hprobe
    · exact h.row m (hsame.symm.trans hm)
    · rw [hprobe] at hm
      cases hm
  · rw [hbreaker, hnow]
    intro p hp
    rcases Breaker.pass_ok pass with hsame | hprobe
    · exact h.probe p (hsame.symm.trans hp)
    · rw [hprobe] at hp
      cases hp
      exact ⟨hfits, Int.le_refl _⟩
  · rw [reports, hnow]
    exact h.past
  · rw [reports]
    intro before r after hreports hopens hfailed
    have hguards := h.guards before r after hreports hopens hfailed
    obtain ⟨hafter, hprobe⟩ := hguards.circuit.pass (fun p hp => (h.probe p hp).1) pass
    refine ⟨?_, fun i call a hi hcall ha => ?_⟩
    · rw [hbreaker, hprobe]
      exact hafter
    · rw [calls] at hcall
      rcases Nat.lt_or_ge i T.calls.length with hlt | hge
      · exact hguards.probes i call a hi ((List.getElem?_append_left hlt).symm.trans hcall) ha
      · have hnew := (List.getElem?_append_right hge).symm.trans hcall
        rw [List.mem_singleton.mp (List.mem_of_getElem? hnew)] at ha
        cases ha
        exact hafter
  · rw [reports]
    exact h.closes

section Told

/-! What a breaker knows once a call has been reported to it. -/

variable (h : T.Sound c n) (hfits : c.Fits T.site.now) {i : Nat} {call : StoreCall} {succeeded : Bool}
  (reports : T'.reports = T.reports ++ [⟨i, call.admitted, T.calls.length, T.site.now, succeeded⟩])
include h hfits reports

theorem told_row {m : Nat} (hm : (T.site.breaker n).hear c T.site.now succeeded = .closed m) :
    inRow T'.reports = m := by
  rw [reports]
  cases succeeded with
  | true =>
    rw [Report.inRow_success rfl]
    exact Breaker.closed.inj hm
  | false =>
    obtain ⟨k, hk, rfl⟩ := Breaker.hear_closed hfits hm
    rw [Report.inRow_failure rfl, h.row k hk]

omit hfits in
theorem told_past {r : Report} (hr : r ∈ T'.reports) : r.time ≤ T.site.now := by
  rw [reports] at hr
  rcases List.mem_append.mp hr with hr | hr
  · exact h.past r hr
  · rw [List.mem_singleton.mp hr]
    exact Int.le_refl _

theorem told_guards (calls : Kept T.calls T'.calls)
    (hbreaker : T'.site.breaker n = (T.site.breaker n).hear c T.site.now succeeded) {before after : List Report}
    (hreports : T'.reports = before ++ r :: after) (hopens : Opens c before r)
    (hfailed : ∀ q ∈ after, q.succeeded = false) : T'.Guards c n r := by
  rw [reports] at hreports
  rcases split_concat hreports with ⟨rfl, rfl, rfl⟩ | ⟨rest, rfl, hbefore⟩
  · -- the failure that opens the circuit was reported just now
    obtain ⟨rfl, hlimit⟩ := hopens
    have htrips : (T.site.breaker n).Trips c := by
      cases hb : T.site.breaker n with
      | closed m =>
        rw [Report.inRow_failure rfl, h.row m hb] at hlimit
        exact Nat.le_trans (Nat.le_max_left _ _) hlimit
      | opened retryAt => trivial
      | halfOpen probeAt => trivial
    refine ⟨?_, fun j x a hj hx ha => ?_⟩
    · rw [hbreaker, Breaker.hear_trips htrips hfits]
      exact Int.le_refl _
    · obtain ⟨old, hold, -⟩ := calls.probes hx ha
      exact absurd (List.getElem?_eq_some_iff.mp hold).1 (Nat.not_lt.mpr hj)
  · have hguards := h.guards before r rest hbefore hopens fun q hq => hfailed q (by simp [hq])
    obtain rfl : succeeded = false := hfailed _ (List.mem_append_right _ (List.mem_singleton_self _))
    refine hguards.kept calls ?_
    rw [hbreaker, Breaker.hear_trips hguards.circuit.trips hfits]
    have hpast : r.time.ns ≤ T.site.now.ns := h.past r (by rw [hbefore]; simp)
    exact Int.add_le_add_right hpast _

omit hfits in
theorem told_closes (found : T.calls[i]? = some call) {before mid after : List Report} {q : Report}
    (hreports : T'.reports = before ++ r :: (mid ++ q :: after)) (hopens : Opens c before r)
    (hfailed : ∀ p ∈ mid, p.succeeded = false) (hsucceeded : q.succeeded) : r.Closes c q := by
  rw [reports, ← List.cons_append, ← List.append_assoc] at hreports
  rcases split_concat hreports with ⟨rfl, rfl, hbefore⟩ | ⟨rest, rfl, hbefore⟩
  · -- the success was reported just now
    have hguards := h.guards before r mid hbefore.symm hopens hfailed
    cases hadmitted : call.admitted with
    | none => exact .inl rfl
    | some a =>
      rcases Nat.lt_or_ge i r.begun with hlt | hge
      · exact .inr (.inl hlt)
      · exact .inr (.inr ⟨a, rfl, hguards.probes i call a hge found hadmitted⟩)
  · rw [List.append_assoc, List.cons_append] at hbefore
    exact h.closes before r mid q rest hbefore hopens hfailed hsucceeded

theorem told (found : T.calls[i]? = some call)
    (site : T'.site = T.site.setBreaker n
      ((T.site.breaker n).hear (T.site.settings n).breaker T.site.now succeeded))
    (calls : Kept T.calls T'.calls) : T'.Sound c n := by
  rw [h.settings] at site
  have hbreaker : T'.site.breaker n = (T.site.breaker n).hear c T.site.now succeeded := by
    rw [site, Site.breaker_setBreaker h.present]
  have hnow : T'.site.now = T.site.now := by rw [site]; rfl
  constructor
  · rw [site, Site.settings_setBreaker, h.settings]
  · rw [site, Site.length_setBreaker]
    exact h.present
  · exact fun m hm => told_row h hfits reports (hbreaker.symm.trans hm)
  · rw [hbreaker]
    exact fun p hp => (Breaker.hear_probe hfits hp).elim
  · rw [hnow]
    exact fun r hr => told_past h reports hr
  · exact fun before r after => told_guards h hfits reports calls hbreaker
  · exact fun before r mid q after => told_closes h reports found

end Told

theorem step (h : T.Sound c n) (hfits : c.Fits T.site.now) (m : Move)
    (hnow : T.site.now ≤ (T.step n m).site.now) : (T.step n m).Sound c n := by
  cases step_steps n T m with
  | idle nodes calls reports => exact h.idle hnow nodes calls reports
  | asked pass site calls reports => exact h.asked hfits pass site calls reports
  | told found site calls reports => exact told h hfits reports found site calls

theorem run (h : T.Sound c n) {moves : List Move} (hforward : (T.readings n moves).Pairwise (· ≤ ·))
    (hfits : ∀ t ∈ T.readings n moves, c.Fits t) : (T.run n moves).Sound c n := by
  induction moves generalizing T with
  | nil => exact h
  | cons m moves ih =>
    obtain ⟨hlater, hforward⟩ := List.pairwise_cons.mp hforward
    have hnext : (T.step n m).site.now ∈ (T.step n m).readings n moves := by
      cases moves <;> simp [readings]
    exact ih (h.step (hfits _ (by simp [readings])) m (hlater _ hnext)) hforward
      fun t ht => hfits t (by simp [readings, ht])

end Sound

theorem sound_traffic {s : Site} (hnew : s.breaker n = .initial) (hnode : n < s.nodes.length) :
    s.traffic.Sound (s.settings n).breaker n where
  settings := rfl
  present := hnode
  row m hm := by
    obtain rfl := Breaker.closed.inj (hnew.symm.trans hm)
    rfl
  probe p hp := by
    have hp : Breaker.initial = .halfOpen p := hnew.symm.trans hp
    cases hp
  past := nofun
  guards before r after hreports := by simp [Site.traffic] at hreports
  closes before r mid q after hreports := by simp [Site.traffic] at hreports

/-- Take any run of a lock's calls, in which the clock never goes back and every cooldown ends on the time
line. When so many failures in a row were reported that the circuit opens, it stays open until a success is
reported; and as long as none is and the cooldown is not over, every operation but a release is turned away
and leaves the site as it is. The first success that is reported then is of a release, of a call that had
begun when the circuit opened, or of a probe that was let through after the cooldown. -/
theorem open_circuit_refuses (s : Site) (n : Nat) (moves : List Move) (hnew : s.breaker n = .initial)
    (hnode : n < s.nodes.length) (hforward : (s.traffic.readings n moves).Pairwise (· ≤ ·))
    (hfits : ∀ t ∈ s.traffic.readings n moves, (s.settings n).breaker.Fits t) :
    let c := (s.settings n).breaker
    let T := s.traffic.run n moves
    (∀ before r after, T.reports = before ++ r :: after → Opens c before r →
      (∀ q ∈ after, q.succeeded = false) → (T.site.breaker n).circuit ≠ .closed ∧
        (T.site.now.ns < r.time.ns + c.wait → ∃ ms, T.site.Refuses n ms)) ∧
    (∀ before r mid q after, T.reports = before ++ r :: (mid ++ q :: after) → Opens c before r →
      (∀ p ∈ mid, p.succeeded = false) → q.succeeded → r.Closes c q) := by
  intro c T
  have hsound : T.Sound c n := (sound_traffic hnew hnode).run hforward hfits
  refine ⟨fun before r after hreports hopens hfailed => ?_, hsound.closes⟩
  have hcircuit := (hsound.guards before r after hreports hopens hfailed).circuit
  constructor
  · intro hclosed
    cases hb : T.site.breaker n with
    | closed m =>
      rw [hb] at hcircuit
      exact hcircuit
    | opened retryAt =>
      rw [hb] at hclosed
      cases hclosed
    | halfOpen probeAt =>
      rw [hb] at hclosed
      cases hclosed
  · intro hearly
    obtain ⟨ms, hpass⟩ := hcircuit.rejects (c := c) (fun p hp => (hsound.probe p hp).2) hearly
    exact ⟨ms, Site.refuses_of_pass (by rw [hsound.settings]; exact hpass)⟩

/-- A site with one node, whose circuit opens for a second at the second failure in a row. -/
def touchy : Site :=
  { clock := ⟨0⟩
    nodes := [{ settings := { breaker := { threshold := 2, cooldownMs := 1000 }, orchestrator := ⟨"a", 300000⟩ } }] }

/-- Two calls that fail. -/
def outage : List Move :=
  [.disturb [⟨"store.get", 0, 2, some (.unavailable "down"), none⟩], .ask "k" .get, .reach 0, .report 0,
    .ask "k" .get, .reach 1, .report 1]

/-- After two failures everything is turned away, until a probe is let through a second later and closes the
circuit. -/
theorem open_circuit_refuses_probe :
    let cooling := outage ++ [.set ⟨400000000⟩]
    let probed := cooling ++ [.set ⟨1000000000⟩, .ask "k" .get, .reach 2, .report 2]
    let first : Report := ⟨0, some ⟨0⟩, 1, ⟨0⟩, false⟩
    let second : Report := ⟨1, some ⟨0⟩, 2, ⟨0⟩, false⟩
    let probe : Report := ⟨2, some ⟨1000000000⟩, 3, ⟨1000000000⟩, true⟩
    (touchy.traffic.readings 0 probed).Pairwise (· ≤ ·) ∧
      (∀ t ∈ touchy.traffic.readings 0 probed, (touchy.settings 0).breaker.Fits t) ∧
      (touchy.traffic.run 0 cooling).reports = [first, second] ∧
      (∃ ms, (touchy.traffic.run 0 cooling).site.Refuses 0 ms) ∧
      (touchy.traffic.run 0 probed).reports = [first, second, probe] ∧
      second.Closes (touchy.settings 0).breaker probe := by
  intro cooling probed first second probe
  have hforward : (touchy.traffic.readings 0 probed).Pairwise (· ≤ ·) := by decide +kernel
  have hfits : ∀ t ∈ touchy.traffic.readings 0 probed, (touchy.settings 0).breaker.Fits t := by decide +kernel
  have hcooling : (touchy.traffic.run 0 cooling).reports = [first, second] := by decide +kernel
  have hprobed : (touchy.traffic.run 0 probed).reports = [first, second, probe] := by decide +kernel
  have hopens : Opens (touchy.settings 0).breaker [first] second := by decide +kernel
  have hearlier := open_circuit_refuses touchy 0 cooling rfl (by decide) (by decide +kernel) (by decide +kernel)
  have hlater := open_circuit_refuses touchy 0 probed rfl (by decide) hforward hfits
  have hrefuses := (hearlier.1 [first] second [] hcooling hopens (by simp)).2 (by decide +kernel)
  exact ⟨hforward, hfits, hcooling, hrefuses, hprobed,
    hlater.2 [first] second [] probe [] hprobed hopens (by simp) rfl⟩

/-- A release that succeeds closes the circuit as soon as it has opened, and so does a call that was under
way: the next check gets to the store. -/
theorem circuit_closed_early :
    let failing : Move := .disturb [⟨"store.get", 0, 2, some (.unavailable "down"), none⟩]
    let released := outage ++ [.release "k" ⟨1⟩, .reach 2, .report 2]
    let overtaken := [failing, .ask "k" .get, .ask "k" .get, .ask "k" .get, .reach 0, .reach 1, .report 0,
      .report 1, .reach 2, .report 2]
    let failures := [⟨0, some ⟨0⟩, 3, ⟨0⟩, false⟩, ⟨1, some ⟨0⟩, 3, ⟨0⟩, false⟩]
    (touchy.traffic.run 0 released).reports =
        [⟨0, some ⟨0⟩, 1, ⟨0⟩, false⟩, ⟨1, some ⟨0⟩, 2, ⟨0⟩, false⟩, ⟨2, none, 3, ⟨0⟩, true⟩] ∧
      (touchy.traffic.run 0 overtaken).reports = failures ++ [⟨2, some ⟨0⟩, 3, ⟨0⟩, true⟩] ∧
      ∀ moves ∈ [released, overtaken],
        (touchy.traffic.run 0 moves).site.now.ns < (touchy.settings 0).breaker.wait ∧
        ((touchy.traffic.run 0 moves).site.breaker 0).circuit = .closed ∧
        ((touchy.traffic.run 0 moves).site.check 0 "k" ⟨1⟩).1 = .error (.error (.leaseLost "k" ⟨1⟩)) := by
  decide +kernel

end Traffic

end FencedSessions
