import FencedSessions.Proofs.Counting

/-! The counters agree with the logs of a crowd, call by call: what an act tells is what it adds to
the logs. -/

namespace FencedSessions

open Site

theorem countP_cons_toNat {α : Type} (p : α → Bool) (a : α) (l : List α) :
    (a :: l).countP p = l.countP p + (p a).toNat := by
  rw [List.countP_cons]
  cases p a <;> rfl

namespace Ending

def answered (e : Ending) : Bool := e.outcome.isSome

def succeeded (e : Ending) : Bool := e.outcome.any Outcome.isSuccess

/-- The step answered that something went wrong. -/
def failed (e : Ending) : Bool := e.outcome.any fun o => !o.isSuccess

/-- The step answered that its event was applied. -/
def applied (e : Ending) : Bool := e.succeeded && e.request.change.any Change.moves

/-- The step answered that its checkpoint was added. -/
def checkpointed (e : Ending) : Bool := e.succeeded && e.request.change.any fun c => !c.moves

/-- The step was asked for no change, and answered that it has looked after the session. -/
def recovered (e : Ending) : Bool := e.succeeded && e.request.change.isNone

/-- A step that has answered has recovered its session, or applied its event, or added its checkpoint,
or failed. -/
theorem answered_cases (e : Ending) :
    (e.answered && !e.recovered).toNat = e.applied.toNat + e.checkpointed.toNat + e.failed.toNat := by
  obtain ⟨client, ⟨node, id, change, timeout⟩, outcome, notes⟩ := e
  unfold answered recovered applied checkpointed failed succeeded
  cases outcome with
  | none => rfl
  | some o =>
    cases hsuccess : o.isSuccess with
    | false => simp [hsuccess]
    | true =>
      cases change with
      | none => simp [hsuccess]
      | some c => cases hmoves : c.moves <;> simp [hsuccess, hmoves]

end Ending

/-- How often what the counters count has happened. -/
@[ext]
structure Tally where
  created : Nat
  applied : Nat
  checkpointed : Nat
  rehydrated : Nat
  failures : Nat

def Counters.tally (k : Counters) : Tally :=
  ⟨k.created, k.applied, k.checkpointed, k.rehydrated, k.failures⟩

/-- Whatever went wrong is counted once. -/
theorem Counters.tally_failure {o : Outcome} (h : o.isSuccess = false) (k : Counters) (id : SessionId)
    (time : Instant) (detail : Option Detail) :
    (k.tell (StepPhase.event? id time o detail)).tally =
      ⟨k.created, k.applied, k.checkpointed, k.rehydrated, k.failures + 1⟩ := by
  have hone {k' : Counters} (hfailures : k'.failures = k.failures + 1) (hsame : k'.tally =
      ⟨k.created, k.applied, k.checkpointed, k.rehydrated, k'.failures⟩) :
      k'.tally = ⟨k.created, k.applied, k.checkpointed, k.rehydrated, k.failures + 1⟩ := by
    rw [hsame, hfailures]
  cases o with
  | success status version => cases h
  | transientError reason => exact hone rfl rfl
  | _ =>
    refine hone ?_ rfl
    simp only [StepPhase.event?, tell, count, failures]
    omega

/-- What is told at the end of a step counts it by its outcome. -/
theorem Ending.tally_tell {e : Ending} {o : Outcome} {detail : Option Detail}
    (ho : e.outcome = some o) (h : Reported e.request o detail) (k : Counters) (id : SessionId)
    (time : Instant) :
    (k.tell (StepPhase.event? id time o detail)).tally =
      ⟨k.created, k.applied + e.applied.toNat, k.checkpointed + e.checkpointed.toNat, k.rehydrated,
        k.failures + e.failed.toNat⟩ := by
  unfold applied checkpointed failed succeeded
  rw [ho]
  cases hsuccess : o.isSuccess with
  | false =>
    rw [Counters.tally_failure hsuccess]
    simp [hsuccess]
  | true =>
    cases o with
    | success status version =>
      cases detail with
      | none =>
        have hnone : e.request.change = none := h rfl
        simp [hsuccess, hnone, StepPhase.event?, Counters.tell, Counters.tally]
      | some d =>
        obtain ⟨-, c, hc, hmoves⟩ := h
        rw [hc]
        cases d with
        | transition event =>
          have hmoves : c.moves = true := hmoves.symm
          simp [hsuccess, hmoves, StepPhase.event?, Counters.tell, Counters.tally, Counters.count,
            Counters.failures]
        | checkpoint n =>
          have hmoves : c.moves = false := hmoves.symm
          simp [hsuccess, hmoves, StepPhase.event?, Counters.tell, Counters.tally, Counters.count,
            Counters.failures]
    | invalidTransition reason => cases hsuccess
    | conflict retryable reason => cases hsuccess
    | notFound => cases hsuccess
    | transientError reason => cases hsuccess

/-- A client that is not at a step tells nothing. -/
theorem Activity.step_counters {s : Site} {a : Activity} (h : a.stepping? = none) :
    (a.step s).2.2.1.counters = s.counters := by
  cases a with
  | acquire r p keep =>
    rw [acquire_site]
    have hcalled := p.step_called r s
    split at hcalled
    · rw [hcalled]
    · obtain ⟨answer, hcalled⟩ := hcalled
      exact hcalled.frame.counters
  | revoke key ticket => exact (Site.lease_called s key (.remove ticket)).frame.counters
  | series x p => cases h
  | pause x due => rfl
  | sleep due => rfl
  | join task => rfl
  | ended => rfl

namespace Crowd

variable {c : Crowd} {staleness : Nat → Int}

/-- How often what the counters count has happened, by the logs. -/
def tally (c : Crowd) : Tally where
  created := c.created.length
  applied := c.endings.countP Ending.applied
  checkpointed := c.endings.countP Ending.checkpointed
  rehydrated := c.saves.countP (·.purpose = .orphaning)
  failures := c.endings.countP Ending.failed

variable (c) in
/-- What an act adds to the logs, and what it tells of it. -/
inductive Counted (a : Act) : Prop where
  | nothing (ws : List Save) (es : List Ending)
    (counters : (c.act a).site.counters = c.site.counters) (created : (c.act a).created = c.created)
    (saves : (c.act a).saves = c.saves ++ ws) (kept : ∀ w ∈ ws, w.purpose = .change)
    (endings : (c.act a).endings = c.endings ++ es) (unanswered : ∀ e ∈ es, e.outcome = none)
  | created (x : Session) (id : SessionId) (time : Instant)
    (counters : (c.act a).site.counters = c.site.counters.count (.created id time))
    (created : (c.act a).created = c.created ++ [x]) (saves : (c.act a).saves = c.saves)
    (endings : (c.act a).endings = c.endings)
  | rehydrated (w : Save) {id : SessionId} {previous : Status} {quietMs : Int} {time : Instant}
    (counters : (c.act a).site.counters =
      c.site.counters.count (.rehydrated id previous quietMs time))
    (created : (c.act a).created = c.created) (saves : (c.act a).saves = c.saves ++ [w])
    (purpose : w.purpose = .orphaning) (endings : (c.act a).endings = c.endings)
  | answered (e : Ending) {o : Outcome} {detail : Option Detail} {id : SessionId} {time : Instant}
    (counters : (c.act a).site.counters =
      c.site.counters.tell (StepPhase.event? id time o detail))
    (created : (c.act a).created = c.created) (saves : (c.act a).saves = c.saves)
    (endings : (c.act a).endings = c.endings ++ [e]) (outcome : e.outcome = some o)
    (reported : Reported e.request o detail)

/-- Every step that is under way will tell what fits. -/
def Reporting (c : Crowd) : Prop :=
  c.Each fun _ x => ∀ r p, x.activity.stepping? = some (r, p) → p.Reporting r

theorem Reporting.act (h : c.Reporting) (ht : c.Told staleness) (a : Act) : (c.act a).Reporting := by
  refine Each.act h a (fun _ _ hx => hx) (fun i b hb r p hp => ?_) (fun i x hx r p hp => ?_)
    fun i x _ hx r p hp => ?_
  · rw [hb r p hp]
    exact trivial
  · obtain ⟨⟨r', p'⟩, hp', heq⟩ := Option.map_eq_some_iff.mp (Activity.stepping_wake.symm.trans hp)
    cases heq
    have hreporting := hx _ p' hp'
    cases p' <;> exact hreporting
  · rcases c.next_cases i x with
      ⟨b, hs, hb, he⟩ | ⟨r', p', b, hs, hon, hb, he⟩ | ⟨r', p', result, b, hs, hr, hb, he⟩
    · rw [he] at hp
      rw [hb r p hp]
      exact trivial
    · rw [he, hb] at hp
      cases hp
      have htold := (Client.told_stepping hs).mp (ht.clients i x hx)
      exact StepPhase.step_reporting htold hon
    · rw [he] at hp
      rw [hb r p hp]
      exact trivial

/-- What a client tells that goes on. -/
theorem go_counted (h : c.Reporting) {i : Nat} {x : Client} (hx : c.clients[i]? = some x) :
    c.Counted (.go i) := by
  obtain ⟨hsaves, hendings, hcreated⟩ := c.go_logs hx
  have hsite := congrArg Site.counters (c.go_site hx)
  cases hs : x.activity.stepping? with
  | none =>
    have hsaving : c.saving i x = [] := by simp only [saving, hs]
    have hending : c.ending i x = [] := by simp only [ending, hs]
    rw [hsaving] at hsaves
    rw [hending] at hendings
    exact .nothing [] [] (hsite.trans (Activity.step_counters hs)) hcreated hsaves
      (fun w hw => absurd hw List.not_mem_nil) hendings fun e he => absurd he List.not_mem_nil
  | some step =>
    obtain ⟨r, p⟩ := step
    have hsaving : c.saving i x = (x.notes.save? i r c.site p).toList := by simp only [saving, hs]
    rw [hsaving] at hsaves
    rw [Activity.step_stepping hs] at hsite
    cases StepPhase.step_tells (s := c.site) (h i x hx r p hs) with
    | nothing hcounters hunanswered hsaved =>
      refine .nothing _ _ (hsite.trans hcounters) hcreated hsaves (fun w hw => ?_) hendings
        fun e he => ?_
      · exact hsaved i x.notes w (Option.mem_toList.mp hw)
      · simp only [ending, hs] at he
        split at he
        · cases he
        · rename_i result hresult
          rw [List.mem_singleton.mp he]
          cases result with
          | error e => rfl
          | ok o => exact absurd hresult (hunanswered o)
    | rehydrated previous quietMs time hcounters hon hsaved =>
      obtain ⟨w, hw, hpurpose⟩ := hsaved i x.notes
      have hending : c.ending i x = [] := by simp only [ending, hs, hon]
      rw [hw] at hsaves
      rw [hending] at hendings
      exact .rehydrated w (hsite.trans hcounters) hcreated hsaves hpurpose
        (hendings.trans (List.append_nil _))
    | answered o detail time hcounters hanswer hreported hunsaved =>
      have hending : c.ending i x = [⟨i, r, some o, x.notes.after i r c.site p⟩] := by
        simp only [ending, hs, hanswer, Except.toOption]
      rw [hunsaved i x.notes] at hsaves
      rw [hending] at hendings
      exact .answered _ (hsite.trans hcounters) hcreated (hsaves.trans (List.append_nil _)) hendings
        rfl hreported

theorem create_counted (priority : Nat) (metadata : List (String × Json)) :
    c.Counted (.create priority metadata) := by
  have hcounters := (Site.repo_asked c.site (.create (c.site.draft priority metadata))).frame.counters
  have hact : c.act (.create priority metadata) = { c with
      site := (c.site.createSession priority metadata).2
      created := c.created ++ (c.site.createSession priority metadata).1.toOption.toList } := rfl
  rw [Site.createSession_eq] at hact
  generalize c.site.repo (.create (c.site.draft priority metadata)) = asked at hcounters hact
  obtain ⟨answer, t⟩ := asked
  cases answer with
  | error e =>
    have hsame : c.act (.create priority metadata) = { c with site := t } := by
      rw [hact]
      simp [Except.toOption]
    refine .nothing [] [] ?_ ?_ ?_ (fun w hw => absurd hw List.not_mem_nil) ?_
      fun e he => absurd he List.not_mem_nil
    · rw [hsame]
      exact hcounters
    · rw [hsame]
    · rw [hsame, List.append_nil]
    · rw [hsame, List.append_nil]
  | ok version =>
    refine .created { c.site.draft priority metadata with version }
      (c.site.draft priority metadata).id c.site.now ?_ ?_ ?_ ?_
    · rw [hact]
      exact congrArg (fun k => k.count (.created (c.site.draft priority metadata).id c.site.now))
        hcounters
    · rw [hact]
      rfl
    · rw [hact]
    · rw [hact]

/-- An act that adds nothing to the logs and tells nothing. -/
theorem counted_apart {a : Act} (hcounters : (c.act a).site.counters = c.site.counters)
    (hcreated : (c.act a).created = c.created) (hsaves : (c.act a).saves = c.saves)
    (hendings : (c.act a).endings = c.endings) : c.Counted a :=
  .nothing [] [] hcounters hcreated (hsaves.trans (List.append_nil _).symm)
    (fun _ hw => absurd hw List.not_mem_nil) (hendings.trans (List.append_nil _).symm)
    fun _ he => absurd he List.not_mem_nil

theorem act_counted (h : c.Reporting) (a : Act) : c.Counted a := by
  cases a with
  | go i =>
    cases hx : c.clients[i]? with
    | none =>
      have hgo : c.act (.go i) = c := c.go_absent hx
      exact counted_apart (by rw [hgo]) (by rw [hgo]) (by rw [hgo]) (by rw [hgo])
    | some x => exact go_counted h hx
  | leave i =>
    have hsite := congrArg Site.counters (c.leave_site i)
    cases hx : c.clients[i]? with
    | none =>
      have hleave : c.act (.leave i) = c := c.leave_absent hx
      exact counted_apart hsite (by rw [hleave]) (by rw [hleave]) (by rw [hleave])
    | some x =>
      obtain ⟨hsaves, hendings, hcreated⟩ := c.leave_logs hx
      refine .nothing [] _ hsite hcreated (hsaves.trans (List.append_nil _).symm)
        (fun w hw => absurd hw List.not_mem_nil) hendings fun e he => (mem_dropping he).2
  | create priority metadata => exact create_counted priority metadata
  | renew node key fence extension =>
    refine counted_apart ?_ rfl rfl rfl
    exact (congrArg Site.counters (renew_site ..)).trans (guarded_called ..).frame.counters
  | check node key fence =>
    refine counted_apart ?_ rfl rfl rfl
    exact (congrArg Site.counters (check_site ..)).trans (guarded_called ..).frame.counters
  | release node key fence =>
    obtain ⟨hsaves, hendings, hcreated⟩ := effects_logs
      { c with site := (c.site.release node key fence).2.1 } (c.site.release node key fence).2.2
    refine counted_apart ?_ hcreated hsaves hendings
    refine (congrArg Site.counters (foldl_effect_site ..)).trans ?_
    exact (congrArg Site.counters (release_site ..)).trans (unguarded_called ..).frame.counters
  | acquire r => exact counted_apart rfl rfl rfl rfl
  | steps policy first rest => exact counted_apart rfl rfl rfl rfl
  | set t => exact counted_apart rfl rfl rfl rfl
  | tick ms => exact counted_apart rfl rfl rfl rfl
  | disturb plan => exact counted_apart rfl rfl rfl rfl

/-- The counters count what is in the logs. -/
structure Tallied (c : Crowd) : Prop where
  reporting : c.Reporting
  balanced : c.site.counters.Balanced
  tally : c.site.counters.tally = c.tally

/-- A step that has not answered is not counted. -/
theorem tally_unanswered {e : Ending} (h : e.outcome = none) :
    e.applied = false ∧ e.checkpointed = false ∧ e.failed = false := by
  unfold Ending.applied Ending.checkpointed Ending.failed Ending.succeeded
  rw [h]
  exact ⟨rfl, rfl, rfl⟩

theorem Counted.tally {a : Act} (h : c.Counted a) (ht : c.site.counters.tally = c.tally) :
    (c.act a).site.counters.tally = (c.act a).tally := by
  have hcreated := congrArg Tally.created ht
  have happlied := congrArg Tally.applied ht
  have hcheckpointed := congrArg Tally.checkpointed ht
  have hrehydrated := congrArg Tally.rehydrated ht
  have hfailures := congrArg Tally.failures ht
  cases h with
  | nothing ws es counters created saves kept endings unanswered =>
    have hnone (p : Ending → Bool) (hp : ∀ e ∈ es, p e = false) : es.countP p = 0 :=
      List.countP_eq_zero.mpr fun e he => by simp [hp e he]
    have hws : ws.countP (·.purpose = .orphaning) = 0 :=
      List.countP_eq_zero.mpr fun w hw => by simp [kept w hw]
    have hes := fun e he => tally_unanswered (unanswered e he)
    rw [counters, ht]
    simp only [Crowd.tally, created, saves, endings, List.countP_append, hws, Nat.add_zero,
      hnone _ fun e he => (hes e he).1, hnone _ fun e he => (hes e he).2.1,
      hnone _ fun e he => (hes e he).2.2]
  | created x id time counters created saves endings =>
    rw [counters]
    simp only [Crowd.tally, created, saves, endings, List.length_append, List.length_singleton]
    exact Tally.ext (congrArg (· + 1) hcreated) happlied hcheckpointed hrehydrated hfailures
  | rehydrated w counters created saves purpose endings =>
    rw [counters]
    simp only [Crowd.tally, created, saves, endings, List.countP_append, List.countP_singleton, purpose]
    exact Tally.ext hcreated happlied hcheckpointed (congrArg (· + 1) hrehydrated) hfailures
  | answered e counters created saves endings outcome reported =>
    rw [counters, Ending.tally_tell outcome reported]
    simp only [Crowd.tally, created, saves, endings, List.countP_append, countP_cons_toNat,
      List.countP_nil, Nat.zero_add]
    exact Tally.ext hcreated (congrArg (· + _) happlied) (congrArg (· + _) hcheckpointed) hrehydrated
      (congrArg (· + _) hfailures)

theorem Counted.balanced {a : Act} (h : c.Counted a) (hb : c.site.counters.Balanced) :
    (c.act a).site.counters.Balanced := by
  cases h with
  | nothing ws es counters created saves kept endings unanswered =>
    rw [counters]
    exact hb
  | created x id time counters created saves endings =>
    rw [counters]
    exact hb.count _
  | rehydrated w counters created saves purpose endings =>
    rw [counters]
    exact hb.count _
  | answered e counters created saves endings outcome reported =>
    rw [counters]
    exact hb.tell _

theorem Tallied.act (h : c.Tallied) (ht : c.Told staleness) (a : Act) : (c.act a).Tallied where
  reporting := h.reporting.act ht a
  balanced := (act_counted h.reporting a).balanced h.balanced
  tally := (act_counted h.reporting a).tally h.tally

theorem Tallied.run (h : c.Tallied) (ht : c.Told staleness) (acts : List Act) :
    (c.run acts).Tallied :=
  (run_invariant (P := fun c => c.Tallied ∧ c.Told staleness)
    (fun _ a h => ⟨h.1.act h.2 a, h.2.act a⟩) ⟨h, ht⟩ acts).1

theorem tallied_crowd {s : Site} (h : s.counters = {}) : s.crowd.Tallied where
  reporting _ _ hx := by cases hx
  balanced := by
    change s.counters.Balanced
    rw [h]
    exact ⟨List.Pairwise.nil, rfl⟩
  tally := by
    change s.counters.tally = _
    rw [h]
    rfl

/-- A step that has answered, and not recovered its session, is counted once. -/
theorem Tallied.answered (h : c.Tallied) :
    c.site.counters.applied + c.site.counters.checkpointed + c.site.counters.failures =
      c.endings.countP fun e => e.answered && !e.recovered := by
  have happlied : c.site.counters.applied = c.endings.countP Ending.applied :=
    congrArg Tally.applied h.tally
  have hcheckpointed : c.site.counters.checkpointed = c.endings.countP Ending.checkpointed :=
    congrArg Tally.checkpointed h.tally
  have hfailures : c.site.counters.failures = c.endings.countP Ending.failed :=
    congrArg Tally.failures h.tally
  rw [happlied, hcheckpointed, hfailures]
  clear happlied hcheckpointed hfailures h
  induction c.endings with
  | nil => rfl
  | cons e es ih =>
    have hcases := e.answered_cases
    simp only [countP_cons_toNat]
    omega

end Crowd

end FencedSessions
