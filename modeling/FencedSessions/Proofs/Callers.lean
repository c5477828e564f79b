import FencedSessions.Proofs.Locality
import FencedSessions.Proofs.Moves
import FencedSessions.Proofs.Runs

/-! A client as the caller of an acquire, whether it acquires for itself or for a service step. As long as
its acquire is not over, an act takes it to its next phase or at most wakes it. Only waiting takes time on
the timer, and no store says of itself that a wait was in vain. -/

namespace FencedSessions

open Site

/-- Whether an error says that a wait for a lease was in vain. -/
def Error.contention : Error → Bool
  | .contentionTimeout .. => true
  | _ => false

def Stop.contention : Stop → Bool
  | .error e => e.contention
  | .overflow => false

/-- Whether no call is made to fail with such an error. -/
def Site.candid (s : Site) : Bool := s.plan.all fun d => !d.error.any Error.contention

theorem Disturbance.mem_of_take {plan : List Disturbance} {call : String} {d : Disturbance}
    (h : (take plan call).1 = some d) : d ∈ plan := by
  induction plan with
  | nil => cases h
  | cons x plan ih =>
    unfold take at h
    split at h
    · split at h
      · cases h
      · obtain rfl := Option.some.inj h
        exact List.mem_cons_self
    · exact List.mem_cons_of_mem x (ih h)

namespace DirectoryLeases

theorem load_contention {t : FileTree} {path : String} {e : Stop} (h : load t path = .error e) :
    e.contention = false := by
  unfold load at h
  split at h
  · unfold parse at h
    obtain ⟨flaw, rfl⟩ : ∃ flaw, e = .error (Error.ofFlaw flaw) := by
      cases hread : KeyState.reader.ofText _ with
      | ok k => rw [hread] at h; cases h
      | error flaw =>
        rw [hread] at h
        exact ⟨flaw, (Except.error.inj h).symm⟩
    cases flaw <;> rfl
  · cases h
  · cases h
    rfl

theorem store_contention {t : FileTree} {d key : String} {k : KeyState} {e : Stop}
    (h : (store t d key k).1 = .error e) : e.contention = false := by
  unfold store at h
  dsimp only at h
  split at h
  · cases h
    rfl
  · split at h
    · cases h
      rfl
    · cases h

theorem run_contention {t : FileTree} {d : String} {now : Instant} {key : String} {op : LeaseOp} {e : Stop}
    (h : (run t d now key op).1 = .error e) : e.contention = false := by
  unfold run at h
  split at h
  · cases h
    rfl
  · split at h
    · rename_i heq
      cases h
      exact load_contention heq
    · split at h
      · rename_i k e' k' hrun
        obtain rfl := KeyState.run_stop (congrArg Prod.fst hrun)
        cases h
        rfl
      · split at h
        · split at h
          · cases h
          · rename_i hstore
            cases h
            exact store_contention (congrArg Prod.fst hstore)
        · cases h

end DirectoryLeases

namespace Breaker

variable {c : BreakerSettings} {b : Breaker} {t : Instant} {e : Stop}

theorem pass_contention (h : (b.pass c t).1 = .error e) : e.contention = false := by
  unfold pass at h
  split at h
  · cases h
  · split at h <;> cases h
    rfl
  · split at h
    · cases h
      rfl
    · split at h <;> cases h
      rfl

theorem recordFailure_error (h : (b.recordFailure c t).1 = .error e) : e = .overflow := by
  unfold recordFailure at h
  dsimp only at h
  split at h
  · split at h
    · split at h <;> cases h
      rfl
    · cases h
  · split at h <;> cases h
    rfl
  · split at h <;> cases h
    rfl

/-- A breaker hands a failure on, unless it looks for the end of its cooldown beyond the time line. -/
theorem observe_error {α : Type} {answer : Except Stop α} (h : (b.observe c t answer).1 = .error e) :
    e = .overflow ∨ answer = .error e := by
  match answer with
  | .ok a => cases h
  | .error .overflow => exact .inr h
  | .error (.error e') =>
    simp only [observe] at h
    split at h
    · split at h
      · exact .inr h
      · rename_i hstop
        cases h
        exact .inl (recordFailure_error (congrArg Prod.fst hstop))
    · exact .inr h

end Breaker

namespace Site

variable {s t : Site} {n : Nat} {key : String} {op : LeaseOp} {e : Stop}

theorem leaseRun_contention (h : (s.leaseRun key op).1 = .error e) : e.contention = false := by
  unfold leaseRun at h
  split at h
  · obtain rfl := KeyState.run_stop h
    rfl
  · exact DirectoryLeases.run_contention h

/-- A call fails as its disturbance says, or as what is called does. -/
theorem disturbed_error {α : Type} {call : String} {act : Site → Except Stop α × Site}
    (h : (s.disturbed call act).1 = .error e) :
    (∃ d ∈ s.plan, ∃ e', d.error = some e' ∧ e = .error e') ∨ ∃ t, (act t).1 = .error e := by
  have hnote (d : Disturbance) (hd : (s.note call).1 = some d) : d ∈ s.plan := Disturbance.mem_of_take hd
  unfold disturbed at h
  generalize s.note call = found at h hnote
  obtain ⟨_ | d, t⟩ := found
  · exact .inr ⟨t, h⟩
  · cases herror : d.error with
    | some e' =>
      simp only [herror] at h
      exact .inl ⟨d, hnote d rfl, e', herror, (Except.error.inj h).symm⟩
    | none =>
      simp only [herror] at h
      refine .inr ⟨t, ?_⟩
      generalize act t = ran at h
      obtain ⟨answer, u⟩ := ran
      dsimp only at h
      split at h <;> exact h

/-- The store does not say that a wait was in vain, unless a call is made to fail so. -/
theorem lease_contention (hs : s.candid) (h : (s.lease key op).1 = .error e) : e.contention = false := by
  rcases disturbed_error h with ⟨d, hd, e', herror, rfl⟩ | ⟨t, ht⟩
  · have hplan := List.all_eq_true.mp hs d hd
    simpa [herror, Stop.contention] using hplan
  · exact leaseRun_contention ht

theorem guarded_contention (hs : s.candid) (h : (s.guarded n key op).1 = .error e) : e.contention = false := by
  unfold guarded at h
  split at h
  · rename_i e' b hpass
    obtain rfl := Except.error.inj h
    exact Breaker.pass_contention (congrArg Prod.fst hpass)
  · rename_i b hpass
    have hlease (e : Stop) (he : ((s.setBreaker n b).lease key op).1 = .error e) : e.contention = false :=
      lease_contention (s := s.setBreaker n b) hs he
    unfold unguarded at h
    generalize (s.setBreaker n b).lease key op = done at h hlease
    obtain ⟨answer, u⟩ := done
    rcases Breaker.observe_error h with rfl | h
    · rfl
    · exact hlease e h

/-! Calls take no time on the timer. -/

theorem unguarded_timer (s : Site) (n : Nat) (key : String) (op : LeaseOp) :
    (s.unguarded n key op).2.timer = s.timer := lease_timer s key op

theorem repo_timer (s : Site) (op : RepositoryOp) : (s.repo op).2.timer = s.timer := by
  refine disturbed_timer (fun s => ?_) s
  unfold repositoryRun
  cases s.repository <;> rfl

theorem Emitted.timer (h : Emitted s t) : t.timer = s.timer := by
  rcases h with rfl | ⟨e, rfl⟩ <;> rfl

theorem createSession_timer (s : Site) (priority : Nat) (metadata : List (String × Json)) :
    (s.createSession priority metadata).2.timer = s.timer := by
  have hrepo := repo_timer s (.create (s.draft priority metadata))
  rw [createSession_eq]
  generalize s.repo (.create (s.draft priority metadata)) = asked at hrepo
  obtain ⟨_ | _, t⟩ := asked <;> exact hrepo

end Site

namespace AcquirePhase

theorem wake_comp_wake : wake ∘ wake = wake := by
  funext p
  cases p <;> rfl

variable (q : AcquireRequest) (s : Site)

theorem step_timer (p : AcquirePhase) : (p.step q s).2.1.timer = s.timer := by
  rw [step_site]
  cases p with
  | starting => rfl
  | waiting w due => rfl
  | finished result => rfl
  | joining d => exact guarded_timer ..
  | checking w => exact guarded_timer ..
  | granting w => exact guarded_timer ..
  | rejoining w => exact guarded_timer ..
  | taking w lease => exact lease_timer ..
  | leaving w => exact lease_timer ..

theorem step_settings (p : AcquirePhase) (n : Nat) : (p.step q s).2.1.settings n = s.settings n := by
  have hcalled := p.step_called q s
  cases hcall : p.call? q with
  | none =>
    rw [hcall] at hcalled
    rw [hcalled]
  | some op =>
    rw [hcall] at hcalled
    obtain ⟨answer, hcalled⟩ := hcalled
    exact hcalled.frame.settings n

variable {q s} {p : AcquirePhase}

/-- A caller whose acquire fails is in its last step. -/
theorem result?_of_failed {e : Stop} (h : .failed e ∈ p.news q s) :
    (p.step q s).1.result? = some (.error e) := by
  have htold : .failed e ∉ p.told q s := by
    unfold told LeaseOp.news
    split
    · split <;> simp
    · simp
  unfold news at h
  split at h
  · cases h
  · rcases List.mem_append.mp h with h | h
    · exact absurd h htold
    · obtain ⟨result, hresult, he⟩ := List.mem_map.mp h
      rw [Option.mem_toList.mp hresult]
      cases result with
      | ok lease => cases he
      | error e' => cases he; rfl

/-- As long as an acquire is not over, its caller has no result. -/
theorem result?_of_goes (hp : p.result? = none) (h : ∀ n ∈ p.news q s, n.ends = false) :
    (p.step q s).1.result? = none := by
  rw [news_eq q s hp] at h
  cases hresult : (p.step q s).1.result? with
  | none => rfl
  | some result =>
    have hends := h (.ofResult result) (by simp [hresult])
    cases result <;> cases hends

/-- A caller fails with what its call has failed with, or beyond the time line, or because it is out of
time. -/
theorem step_failed {e : Stop} (hp : p.result? = none) (h : (p.step q s).1.result? = some (.error e)) :
    e = .overflow ∨ (∃ op, p.call? q = some op ∧ (s.guarded q.node q.key op).1 = .error e) ∨
      ∃ w, p = .leaving w := by
  cases p with
  | leaving w => exact .inr (.inr ⟨w, rfl⟩)
  | finished result => cases hp
  | taking w lease => cases h
  | waiting w due => cases h
  | starting =>
    simp only [step] at h
    split at h
    · cases h
      exact .inl rfl
    · cases h
  | joining d =>
    simp only [step] at h
    split at h
    · rename_i heq
      cases h
      exact .inr (.inl ⟨_, rfl, congrArg Prod.fst heq⟩)
    · cases h
  | checking w =>
    simp only [step] at h
    split at h
    · rename_i heq
      cases h
      exact .inr (.inl ⟨_, rfl, congrArg Prod.fst heq⟩)
    · cases h
    · rw [result_settle] at h
      cases h
    · split at h
      · rw [result_settle] at h
        cases h
      · cases h
  | granting w =>
    simp only [step] at h
    split at h
    · rename_i heq
      cases h
      exact .inr (.inl ⟨_, rfl, congrArg Prod.fst heq⟩)
    · cases h
    · rw [result_settle] at h
      cases h
  | rejoining w =>
    simp only [step] at h
    split at h
    · rename_i heq
      cases h
      exact .inr (.inl ⟨_, rfl, congrArg Prod.fst heq⟩)
    · rw [result_settle] at h
      cases h

/-- Only a caller that is out of time says that it waited in vain, where no call is made to fail so. -/
theorem leaving_of_contention (hs : s.candid) (hp : p.result? = none) {e : Stop} (he : e.contention)
    (h : (p.step q s).1.result? = some (.error e)) : ∃ w, p = .leaving w := by
  rcases step_failed hp h with rfl | ⟨op, -, hcall⟩ | hleaving
  · cases he
  · rw [guarded_contention hs hcall] at he
    cases he
  · exact hleaving

end AcquirePhase

theorem StepPhase.step_timer (r : StepRequest) (s : Site) (p : StepPhase) :
    (p.step r s).2.1.timer = s.timer := by
  have hrenew (lease : Lease) : (renewLease r s lease).2.timer = s.timer := by
    unfold renewLease
    rw [renew_site]
    exact guarded_timer ..
  cases p with
  | acquiring p => exact (acquiring_site r s p).timer.trans (p.step_timer (acquireRequest r s) s)
  | loading lease => rw [loading_site]; exact repo_timer ..
  | orphaning lease o => rw [orphaning_site]; exact hrenew lease
  | savingOrphan lease o => exact (savingOrphan_site r s lease o).timer.trans (repo_timer ..)
  | renewing lease session c => rw [renewing_site]; exact hrenew lease
  | confirming lease session d => rw [confirming_site]; exact hrenew lease
  | saving lease session d => rw [saving_site]; exact repo_timer ..
  | releasing lease result =>
    have hsite := releasing_site r s lease result
    rw [release_site] at hsite
    exact hsite.timer.trans (unguarded_timer ..)
  | finished o => rfl

namespace Activity

/-- The acquire that a client is at: its request and its phase. -/
def caller? (s : Site) : Activity → Option (AcquireRequest × AcquirePhase)
  | .acquire r p _ => some (r, p)
  | .series x (.acquiring p) => some (StepPhase.acquireRequest x.current s, p)
  | _ => none

variable {s t : Site} {a : Activity} {q : AcquireRequest} {p : AcquirePhase}

theorem step_timer (s : Site) (a : Activity) : (a.step s).2.2.1.timer = s.timer := by
  cases a with
  | acquire r p keep => rw [acquire_site]; exact p.step_timer r s
  | series x p => rw [series_site]; exact p.step_timer x.current s
  | revoke key ticket => exact lease_timer ..
  | pause x due => rfl
  | sleep due => rfl
  | join task => rfl
  | ended => rfl

theorem caller?_settings (h : ∀ n, t.settings n = s.settings n) (a : Activity) : a.caller? t = a.caller? s := by
  have hrequest (r : StepRequest) : StepPhase.acquireRequest r t = StepPhase.acquireRequest r s := by
    unfold StepPhase.acquireRequest
    rw [h]
  cases a with
  | series x p => cases p <;> simp [caller?, hrequest]
  | _ => rfl

theorem caller?_wake (s : Site) (a : Activity) :
    a.wake.caller? s = (a.caller? s).map (Prod.map id AcquirePhase.wake) := by
  cases a with
  | series x p => cases p <;> rfl
  | _ => rfl

theorem caller?_news (h : a.caller? s = some (q, p)) : a.news s = p.news q s := by
  cases a with
  | acquire r p' keep => cases h; rfl
  | series x p' =>
    cases p' with
    | acquiring p' => cases h; rfl
    | _ => cases h
  | _ => cases h

theorem caller?_site (h : a.caller? s = some (q, p)) : Emitted (p.step q s).2.1 (a.step s).2.2.1 := by
  cases a with
  | acquire r p' keep =>
    cases h
    exact .inl (acquire_site s _ _ keep)
  | series x p' =>
    cases p' with
    | acquiring p' =>
      cases h
      rw [series_site]
      exact StepPhase.acquiring_site x.current s _
    | _ => cases h
  | _ => cases h

theorem caller?_parked (h : a.caller? s = some (q, p)) (timer : Nat) :
    a.readiness timer = readiness.ofDue p.parkedUntil? := by
  cases a with
  | acquire r p' keep => cases h; rfl
  | series x p' =>
    cases p' with
    | acquiring p' => cases h; rfl
    | _ => cases h
  | _ => cases h

/-- A client goes on as its caller does, and nobody hears of it. -/
theorem step_caller (h : a.caller? s = some (q, p)) (hon : (p.step q s).1.result? = none) :
    (a.step s).1.caller? s = some (q, (p.step q s).1) ∧ (a.step s).2.2.1 = (p.step q s).2.1 ∧
      (a.step s).2.2.2 = [] := by
  have hquiet : (p.step q s).2.2 = [] := by
    rcases AcquirePhase.step_effects q s p with hquiet | ⟨⟨e, he⟩, -⟩
    · exact hquiet
    · rw [hon] at he
      cases he
  cases a with
  | acquire r p' keep =>
    cases h
    simp only [step, hon]
    exact ⟨rfl, trivial, hquiet⟩
  | series x p' =>
    cases p' with
    | acquiring p' =>
      cases h
      simp only [step, StepPhase.acquiring_goes hon, StepPhase.result?]
      exact ⟨rfl, trivial, trivial⟩
    | _ => cases h
  | _ => cases h

end Activity

namespace Crowd

variable {c : Crowd} {i : Nat} {q : AcquireRequest} {p : AcquirePhase}

/-- The acquire that a client is at, if it is at one. -/
def caller? (c : Crowd) (i : Nat) : Option (AcquireRequest × AcquirePhase) :=
  (c.clients[i]?).bind fun x => x.activity.caller? c.site

theorem act_timer (c : Crowd) (a : Act) : c.site.timer ≤ (c.act a).site.timer := by
  cases a with
  | go i =>
    refine Nat.le_of_eq (?_ : _ = (c.go i).site.timer)
    cases hx : c.clients[i]? with
    | none => rw [c.go_absent hx]
    | some x => rw [c.go_site hx, Activity.step_timer]
  | leave i =>
    refine Nat.le_of_eq (?_ : _ = (c.leave i).site.timer)
    rw [leave_site]
  | create priority metadata => exact Nat.le_of_eq (createSession_timer ..).symm
  | renew node key fence extension =>
    refine Nat.le_of_eq (?_ : _ = (c.site.renew node key fence extension).2.timer)
    rw [renew_site, guarded_timer]
  | release node key fence =>
    have hsite : (c.act (.release node key fence)).site = (c.site.release node key fence).2.1 :=
      foldl_effect_site _ _
    refine Nat.le_of_eq ?_
    rw [hsite, release_site, unguarded_timer]
  | check node key fence =>
    refine Nat.le_of_eq (?_ : _ = (c.site.check node key fence).2.timer)
    rw [check_site, guarded_timer]
  | tick ms => exact Nat.le_add_right ..
  | acquire r => exact Nat.le_refl _
  | steps policy first rest => exact Nat.le_refl _
  | set t => exact Nat.le_refl _
  | disturb plan => exact Nat.le_refl _

/-- A caller goes on, unless its acquire ends. -/
theorem go_caller (h : c.caller? i = some (q, p)) (hon : (p.step q c.site).1.result? = none) :
    (c.act (.go i)).caller? i = some (q, (p.step q c.site).1) ∧ (c.act (.go i)).site = (p.step q c.site).2.1 := by
  obtain ⟨x, hx, hcaller⟩ := Option.bind_eq_some_iff.mp h
  obtain ⟨hnext, hsite, hfx⟩ := Activity.step_caller hcaller hon
  have hact := act_go hx
  rw [hfx, List.foldl_nil] at hact
  have hclient : (c.act (.go i)).clients[i]? = some (c.next i x) := by
    obtain ⟨hi, -⟩ := List.getElem?_eq_some_iff.mp hx
    rw [hact]
    exact List.getElem?_set_self hi
  refine ⟨?_, by rw [hact]; exact hsite⟩
  simp only [caller?, hclient, Option.bind_some, next_activity]
  rw [Activity.caller?_settings (c.act_settings (.go i)), hnext]

/-- What happens to a caller in its next step. -/
theorem news_caller (h : c.caller? i = some (q, p)) :
    c.news (.go i) = (p.news q c.site).map fun n => ⟨i, c.now, n⟩ := by
  obtain ⟨x, hx, hcaller⟩ := Option.bind_eq_some_iff.mp h
  simp only [news, hx, Activity.caller?_news hcaller]

/-- What an act makes of a caller, unless it ends its acquire: it goes on, or it is at most woken. -/
theorem act_caller (h : c.caller? i = some (q, p)) (hon : p.result? = none) {a : Act}
    (hlasts : lasts i (c.news a)) :
    a = .go i ∧ (p.step q c.site).1.result? = none ∧
        (c.act a).caller? i = some (q, (p.step q c.site).1) ∧ (c.act a).site = (p.step q c.site).2.1 ∨
      a ≠ .go i ∧ ∃ p', (c.act a).caller? i = some (q, p') ∧ p'.wake = p.wake := by
  obtain ⟨x, hx, hcaller⟩ := Option.bind_eq_some_iff.mp h
  have hsettings := c.act_settings a
  -- the view is of the caller as it would be if it were woken, which waking it does not change
  obtain ⟨y, hy, hview⟩ := view_act
    (f := fun b => (b.caller? c.site).map (Prod.map id AcquirePhase.wake))
    (fun b => by simp only [Activity.caller?_wake, Option.map_map, Prod.map_comp_map, AcquirePhase.wake_comp_wake,
      Function.comp_id]) hx a
  rcases hview with ⟨rfl, -⟩ | ⟨rfl, -⟩ | ⟨hgo, -, hview⟩
  · left
    have hends : ∀ n ∈ p.news q c.site, n.ends = false := by
      rw [news_caller h] at hlasts
      intro n hn
      have hall := List.all_eq_true.mp hlasts ⟨i, c.now, n⟩ (List.mem_map_of_mem hn)
      simpa using hall
    have hresult := AcquirePhase.result?_of_goes hon hends
    exact ⟨rfl, hresult, go_caller h hresult⟩
  · have hi := (List.getElem?_eq_some_iff.mp hx).1
    simp [news, hi, lasts, News.ends] at hlasts
  · right
    refine ⟨hgo, ?_⟩
    rw [hcaller, Option.map_some] at hview
    obtain ⟨⟨q', p'⟩, hp', heq⟩ := Option.map_eq_some_iff.mp hview
    obtain ⟨rfl, hwake⟩ := Prod.mk.inj heq
    refine ⟨p', ?_, hwake⟩
    simp only [caller?, hy, Option.bind_some]
    rw [Activity.caller?_settings hsettings]
    exact hp'

end Crowd

end FencedSessions
