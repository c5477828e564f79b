import FencedSessions.Proofs.Outcomes
import FencedSessions.Proofs.Releases

/-! A change that is retried takes effect at most once. An attempt is followed by another one only if
its outcome is retryable, and such an outcome tells that the change was not saved; so at most the last
attempt has saved it, and then it answers success. -/

namespace FencedSessions

theorem Outcome.not_success {o : Outcome} (h : o.retryable) : o.isSuccess = false := by
  cases o with
  | success status version => cases h
  | invalidTransition reason => rfl
  | conflict retryable reason => rfl
  | notFound => rfl
  | transientError reason => rfl

namespace Notes

variable {client : Nat} {r : StepRequest} {threshold : Int} {n : Notes} {o : Outcome}

theorem orphaned?_purpose {w : Save} (h : n.orphaned? = some w) : w.purpose = .orphaning := by
  simpa using List.find?_some h

theorem changed?_purpose {w : Save} (h : n.changed? = some w) : w.purpose = .change := by
  simpa using List.find?_some h

/-- Among the saves of a step there is at most one of its change. -/
theorem Sound.changes (h : n.Sound client r threshold) :
    n.saves.filter (·.purpose = .change) = n.changed?.toList := by
  rw [h.saves, List.filter_append]
  have horphaned : n.orphaned?.toList.filter (·.purpose = .change) = [] := by
    cases ho : n.orphaned? with
    | none => rfl
    | some w => simp [orphaned?_purpose ho]
  have hchanged : n.changed?.toList.filter (·.purpose = .change) = n.changed?.toList := by
    cases hc : n.changed? with
    | none => rfl
    | some w => simp [changed?_purpose hc]
  rw [horphaned, hchanged, List.nil_append]

/-- A step that was to make a change and does not answer success has not saved it. -/
theorem Truthful.unsaved (h : n.Truthful client r threshold o) (hchange : r.change ≠ none)
    (ho : o.isSuccess = false) : n.changed? = none := by
  cases hc : n.changed? with
  | none => rfl
  | some w =>
    rw [(h.changing hchange _ _).mpr ⟨w, hc, rfl, rfl⟩] at ho
    cases ho

end Notes

namespace Activity

/-- The step that a client makes again and again until it is through with it, if that is all that it
has to do. -/
def retries? : Activity → Option StepRequest
  | .series x _ | .pause x _ => if x.rest = [] then some x.current else none
  | .acquire .. | .sleep _ | .revoke .. | .join _ | .ended => none

theorem retries_wake (a : Activity) : a.wake.retries? = a.retries? := by
  cases a <;> rfl

theorem stepping_of_unserving {a : Activity} (h : a.serves = false) : a.stepping? = none := by
  cases a <;> first | rfl | cases h

end Activity

namespace Crowd

variable {c : Crowd} {i : Nat} {r : StepRequest} {x : Client}

/-- A client that has one step to make goes on with it: its attempt is not over, or it has answered an
outcome that is retryable. Otherwise it is through. -/
theorem ending_retries (h : x.activity.retries? = some r) :
    ((x.activity.step c.site).1.retries? = some r ∧
      ∀ e ∈ c.ending i x, e.request = r ∧ ∃ o, e.outcome = some o ∧ o.retryable) ∨
    (x.activity.step c.site).1.serves = false := by
  obtain ⟨a, notes⟩ := x
  cases a with
  | pause y due => exact Or.inl ⟨h, fun e he => absurd he List.not_mem_nil⟩
  | series y p =>
    have hstep : (if y.rest = [] then some y.current else none) = some r := h
    split at hstep
    · rename_i hrest
      obtain rfl := Option.some.inj hstep
      simp only [Activity.step, ending, Activity.stepping?]
      generalize p.step y.current c.site = stepped
      obtain ⟨p', t, fx⟩ := stepped
      dsimp only
      cases hresult : p'.result? with
      | none => exact Or.inl ⟨h, fun e he => absurd he List.not_mem_nil⟩
      | some result =>
        cases result with
        | error e => exact Or.inr rfl
        | ok o =>
          simp only [Activity.afterStep]
          split
          · rename_i hagain
            left
            refine ⟨by simp [Activity.retries?, hrest], fun e he => ?_⟩
            rw [List.mem_singleton.mp he]
            exact ⟨rfl, o, rfl, ((Bool.and_eq_true _ _).mp hagain).1⟩
          · right
            simp only [hrest]
            rfl
    · cases hstep
  | acquire r p keep => cases h
  | sleep due => cases h
  | revoke key ticket => cases h
  | join task => cases h
  | ended => cases h

/-- What a client that has one step to make answers in the end is the outcome of its last attempt. -/
theorem ending_answered (h : x.activity.retries? = some r) {stored : Nat} {o : Outcome}
    (hanswer : (x.activity.step c.site).2.1 = some (.steps stored (.ok o))) :
    (∃ n, c.ending i x = [⟨i, r, some o, n⟩]) ∧ (x.activity.step c.site).1.serves = false := by
  obtain ⟨a, notes⟩ := x
  cases a with
  | series y p =>
    have hstep : (if y.rest = [] then some y.current else none) = some r := h
    split at hstep
    · rename_i hrest
      obtain rfl := Option.some.inj hstep
      simp only [Activity.step, ending, Activity.stepping?] at hanswer ⊢
      generalize p.step y.current c.site = stepped at hanswer
      obtain ⟨p', t, fx⟩ := stepped
      dsimp only at hanswer ⊢
      cases hresult : p'.result? with
      | none =>
        rw [hresult] at hanswer
        cases hanswer
      | some result =>
        rw [hresult] at hanswer
        cases result with
        | error e => cases hanswer
        | ok o' =>
          simp only [Activity.afterStep, hrest] at hanswer ⊢
          split at hanswer
          · cases hanswer
          · rename_i hthrough
            cases hanswer
            rw [if_neg hthrough]
            exact ⟨⟨_, rfl⟩, rfl⟩
    · cases hstep
  | pause y due => cases hanswer
  | acquire r p keep => cases h
  | sleep due => cases h
  | revoke key ticket => cases h
  | join task => cases h
  | ended => cases h

/-- Only clients that came have ended a step. -/
def Attended (c : Crowd) : Prop := ∀ e ∈ c.endings, ∃ x, c.clients[e.client]? = some x

theorem Attended.act (h : c.Attended) (a : Act) : (c.act a).Attended := by
  intro e he
  have hclient : ∃ x, c.clients[e.client]? = some x := by
    rcases mem_endings he with hold | ⟨x, hx, -⟩
    · exact h e hold
    · exact ⟨x, hx⟩
  obtain ⟨x, hx⟩ := hclient
  obtain ⟨y, hy, -⟩ := view_act (f := fun _ => ()) (fun _ => rfl) hx a
  exact ⟨y, hy⟩

theorem Attended.run (h : c.Attended) (acts : List Act) : (c.run acts).Attended :=
  run_invariant (fun _ a h => h.act a) h acts

/-- How a client fares that came to make one step: it is through with it, or every attempt of it that
is over has answered an outcome that is retryable. -/
def Retrying (c : Crowd) (i : Nat) (r : StepRequest) : Prop :=
  ∃ x, c.clients[i]? = some x ∧ (x.activity.serves = false ∨ x.activity.retries? = some r ∧
    ∀ e ∈ c.endings, e.client = i → e.request = r ∧ ∃ o, e.outcome = some o ∧ o.retryable)

theorem Retrying.act (h : c.Retrying i r) (a : Act) : (c.act a).Retrying i r := by
  obtain ⟨x, hx, hfares⟩ := h
  obtain ⟨y, hy, hview⟩ := view_act (f := fun a => (a.serves, a.retries?))
    (fun a => Prod.ext a.serves_wake a.retries_wake) hx a
  refine ⟨y, hy, ?_⟩
  rcases hview with ⟨rfl, hview⟩ | ⟨rfl, hview⟩ | ⟨hgo, hleave, hview⟩
  · obtain ⟨hserves, hretries⟩ := Prod.mk.inj hview
    rw [hserves, hretries]
    rcases hfares with hthrough | ⟨hretry, hendings⟩
    · left
      cases hnext : (x.activity.step c.site).1.serves with
      | false => rfl
      | true =>
        rw [Activity.serves_step hnext] at hthrough
        cases hthrough
    · rcases ending_retries (c := c) (i := i) hretry with ⟨hretry', hnew⟩ | hthrough
      · refine Or.inr ⟨hretry', fun e he hclient => ?_⟩
        rcases mem_endings he with hold | ⟨z, hz, ⟨-, hmem⟩ | ⟨hact, -⟩⟩
        · exact hendings e hold hclient
        · rw [hclient] at hz hmem
          rw [hx] at hz
          cases hz
          exact hnew e hmem
        · cases hact
      · exact Or.inl hthrough
  · obtain ⟨hserves, -⟩ := Prod.mk.inj hview
    exact Or.inl hserves
  · obtain ⟨hserves, hretries⟩ := Prod.mk.inj hview
    rw [hserves, hretries]
    rcases hfares with hthrough | ⟨hretry, hendings⟩
    · exact Or.inl hthrough
    · refine Or.inr ⟨hretry, fun e he hclient => ?_⟩
      rcases mem_endings he with hold | ⟨z, -, ⟨hact, -⟩ | ⟨hact, -⟩⟩
      · exact hendings e hold hclient
      · rw [hclient] at hact
        exact absurd hact hgo
      · rw [hclient] at hact
        exact absurd hact hleave

theorem Retrying.run (h : c.Retrying i r) (acts : List Act) : (c.run acts).Retrying i r :=
  run_invariant (P := fun c => c.Retrying i r) (fun _ a h => h.act a) h acts

/-- A client that has just come has made no attempt yet. -/
theorem retrying_arrived (h : c.Attended) (policy : RetryPolicy) (r : StepRequest) :
    (c.act (.steps policy r [])).Retrying c.clients.length r := by
  refine ⟨⟨.ofSteps policy r [], {}⟩, ?_, Or.inr ⟨rfl, fun e he hclient => ?_⟩⟩
  · exact List.getElem?_concat_length
  · obtain ⟨x, hx⟩ := h e he
    obtain ⟨hlt, -⟩ := List.getElem?_eq_some_iff.mp hx
    omega

/-- The accepted saves of changes that a client asked for. -/
def changesOf (c : Crowd) (i : Nat) : List Save :=
  c.saves.filter fun w => w.client = i ∧ w.purpose = .change

/-- The changes that a client has saved are those in the notes of its steps. -/
theorem Honest.changesOf {staleness : Nat → Int} (h : c.Honest staleness) (hidle : c.pending i = [])
    (hanswered : ∀ e ∈ c.endings, e.client = i → ∃ o, e.outcome = some o) :
    c.changesOf i = (c.endings.filter (·.client = i)).flatMap (·.notes.changed?.toList) := by
  have hsplit : c.changesOf i = (c.saves.filter (·.client = i)).filter (·.purpose = .change) := by
    simp only [Crowd.changesOf, List.filter_filter, Bool.decide_and, Bool.and_comm]
  rw [hsplit, h.accounted i, hidle, List.append_nil, List.filter_flatMap]
  simp only [List.flatMap_def]
  refine congrArg List.flatten (List.map_congr_left fun e he => ?_)
  obtain ⟨he, hclient⟩ := List.mem_filter.mp he
  obtain ⟨o, ho⟩ := hanswered e he (of_decide_eq_true hclient)
  exact (h.truthful e he o ho).sound.changes

/-- A client that makes no steps any more does not begin again. -/
theorem unserving_act {x : Client} (hx : c.clients[i]? = some x) (h : x.activity.serves = false) (a : Act) :
    ∃ y, (c.act a).clients[i]? = some y ∧ y.activity.serves = false := by
  obtain ⟨y, hy, hview⟩ := view_act (f := Activity.serves) Activity.serves_wake hx a
  refine ⟨y, hy, ?_⟩
  rcases hview with ⟨-, hview⟩ | ⟨-, hview⟩ | ⟨-, -, hview⟩
  · rw [hview]
    cases hnext : (x.activity.step c.site).1.serves with
    | false => rfl
    | true =>
      rw [Activity.serves_step hnext] at h
      cases h
  · exact hview
  · exact hview.trans h

theorem changesOf_act {x : Client} (hx : c.clients[i]? = some x) (h : x.activity.serves = false) (a : Act) :
    (c.act a).changesOf i = c.changesOf i := by
  have hnone : (c.writing a).filter (fun w => w.client = i ∧ w.purpose = .change) = [] := by
    rw [List.filter_eq_nil_iff]
    intro w hw hclient
    obtain ⟨hclient, -⟩ := of_decide_eq_true hclient
    unfold writing at hw
    split at hw
    · split at hw
      · rename_i z hz
        obtain rfl := mem_saving hw
        rw [hclient, hx] at hz
        cases hz
        unfold saving at hw
        rw [Activity.stepping_of_unserving h] at hw
        cases hw
      · cases hw
    · cases hw
  unfold changesOf
  rw [act_saves, List.filter_append, hnone, List.append_nil]

/-- A client that makes no steps any more saves nothing any more. -/
theorem changesOf_through {x : Client} (hx : c.clients[i]? = some x) (h : x.activity.serves = false)
    (acts : List Act) : (c.run acts).changesOf i = c.changesOf i := by
  refine (run_invariant (P := fun d => (∃ y, d.clients[i]? = some y ∧ y.activity.serves = false) ∧
    d.changesOf i = c.changesOf i) ?_ ⟨⟨x, hx, h⟩, rfl⟩ acts).2
  rintro d a ⟨⟨y, hy, h⟩, hsame⟩
  exact ⟨unserving_act hy h a, (changesOf_act hy h a).trans hsame⟩

/-- The saved changes are those that an outcome tells of: a success, that just this change was saved,
with the status and the version that it names; anything else, that none was. -/
structure Once (r : StepRequest) (o : Outcome) (changes : List Save) : Prop where
  success : ∀ status version, o = .success status version → ∃ w b, changes = [w] ∧ w.request = r ∧
    w.replay? b = some w.stored.session ∧ w.stored.session.status = status ∧ w.version = version
  failure : o.isSuccess = false → changes = []

/-- A client that answers a series of steps is at one. -/
theorem answering_serves {s : Site} {a : Activity} {stored : Nat} {last : Except Stop Outcome}
    (h : (a.step s).2.1 = some (.steps stored last)) : a.serves := by
  cases a with
  | series y p => rfl
  | pause y due => rfl
  | acquire r p keep =>
    simp only [Activity.step] at h
    split at h <;> cases h
  | sleep due => cases h
  | revoke key ticket => cases h
  | join task => cases h
  | ended => cases h

/-- What a client that has one step to make has saved when it answers is what its outcome tells. -/
theorem Retrying.answered {staleness : Nat → Int} (h : c.Retrying i r) (hhonest : c.Honest staleness)
    (hchange : r.change ≠ none) (hx : c.clients[i]? = some x) {stored : Nat} {o : Outcome}
    (hanswer : (x.activity.step c.site).2.1 = some (.steps stored (.ok o))) :
    (∃ y, (c.act (.go i)).clients[i]? = some y ∧ y.activity.serves = false) ∧
      Once r o ((c.act (.go i)).changesOf i) := by
  obtain ⟨x', hx', hfares⟩ := h
  rw [hx] at hx'
  cases hx'
  obtain ⟨hretry, hearlier⟩ : x.activity.retries? = some r ∧
      ∀ e ∈ c.endings, e.client = i → e.request = r ∧ ∃ o, e.outcome = some o ∧ o.retryable := by
    rcases hfares with hthrough | hfares
    · rw [answering_serves hanswer] at hthrough
      cases hthrough
    · exact hfares
  obtain ⟨⟨n, hlast⟩, hthrough⟩ := ending_answered (i := i) hretry hanswer
  have hhonest' := hhonest.act (.go i)
  have hendings : (c.act (.go i)).endings = c.endings ++ [⟨i, r, some o, n⟩] := by
    rw [← hlast]
    exact (c.go_logs hx).2.1
  obtain ⟨y, hy, hview⟩ := view_act (f := Activity.serves) Activity.serves_wake hx (.go i)
  have hserves : y.activity.serves = false := by
    rcases hview with ⟨-, hview⟩ | ⟨hact, -⟩ | ⟨hact, -⟩
    · exact hview.trans hthrough
    · cases hact
    · exact absurd rfl hact
  have hidle : (c.act (.go i)).pending i = [] :=
    hhonest'.told.pending_fresh hy (Activity.fresh_of_idle (Activity.stepping_of_unserving hserves))
  -- the attempts before the last one have saved nothing, as their outcomes were retryable
  have hunsaved : (c.endings.filter (·.client = i)).flatMap (·.notes.changed?.toList) = [] := by
    refine List.flatMap_eq_nil_iff.mpr fun e he => ?_
    obtain ⟨he, hclient⟩ := List.mem_filter.mp he
    obtain ⟨hrequest, o', ho, hretryable⟩ := hearlier e he (of_decide_eq_true hclient)
    have htruthful := hhonest.truthful e he o' ho
    rw [htruthful.unsaved (by rw [hrequest]; exact hchange) (Outcome.not_success hretryable)]
    rfl
  have hchanges : (c.act (.go i)).changesOf i = n.changed?.toList := by
    rw [hhonest'.changesOf hidle, hendings, List.filter_append, List.flatMap_append, hunsaved]
    · simp
    · intro e he hclient
      rcases List.mem_append.mp (hendings ▸ he) with hold | hnew
      · obtain ⟨-, o', ho, -⟩ := hearlier e hold hclient
        exact ⟨o', ho⟩
      · rw [List.mem_singleton.mp hnew]
        exact ⟨o, rfl⟩
  have htruthful := hhonest'.truthful ⟨i, r, some o, n⟩
    (by rw [hendings]; exact List.mem_append_right _ (List.mem_singleton_self _)) o rfl
  refine ⟨⟨y, hy, hserves⟩, fun status version ho => ?_, fun ho => ?_⟩
  · obtain ⟨w, hw, hstatus, hversion⟩ := (htruthful.changing hchange status version).mp ho
    obtain ⟨-, b, -, hreplay⟩ := htruthful.sound.changed w hw
    refine ⟨w, b, by rw [hchanges, hw]; rfl, ?_, hreplay, hstatus, hversion⟩
    exact (htruthful.sound.own w (List.mem_of_find?_eq_some hw)).2.1
  · rw [hchanges, htruthful.unsaved hchange ho]
    rfl

/-- What a client that goes on answers of the last of the steps that it came to make. -/
def answer? (c : Crowd) (i : Nat) : Option Outcome :=
  match c.clients[i]? with
  | some x =>
    match (x.activity.step c.site).2.1 with
    | some (.steps _ last) => last.toOption
    | _ => none
  | none => none

theorem answer?_some {o : Outcome} (h : c.answer? i = some o) : ∃ x stored,
    c.clients[i]? = some x ∧ (x.activity.step c.site).2.1 = some (.steps stored (.ok o)) := by
  unfold answer? at h
  split at h
  · rename_i x hx
    split at h
    · rename_i stored last hanswer
      cases last with
      | error e => cases h
      | ok o' =>
        cases h
        exact ⟨x, stored, hx, hanswer⟩
    · cases h
  · cases h

/-- A change that is retried takes effect at most once. In every run, when a client answers that came
to make one change, under whatever policy, its change was saved as the outcome tells, once or not at
all, and it never is again. And the saves are what is stored: a repository that held nothing at first
holds what was saved last. -/
theorem retried_once (s : Site) (policy : RetryPolicy) (r : StepRequest) (hchange : r.change ≠ none)
    (before during after : List Act) :
    let c := s.crowd.run before
    let i := c.clients.length
    let d := (c.act (.steps policy r [])).run during
    let e := (d.act (.go i)).run after
    (∀ o, d.answer? i = some o → Once r o (e.changesOf i)) ∧
      (s.Unwritten → e.InRange → ∃ m, e.Written m) := by
  intro c i d e
  have hattended : c.Attended := by
    have hnone : s.crowd.Attended := fun e he => absurd he List.not_mem_nil
    exact hnone.run before
  refine ⟨fun o ho => ?_, fun hunwritten hrange => ?_⟩
  · obtain ⟨x, stored, hx, hanswer⟩ := answer?_some ho
    have hretrying : d.Retrying i r := (retrying_arrived hattended policy r).run during
    have hhonest := (((honest_crowd s).run before).act (.steps policy r [])).run during
    obtain ⟨⟨y, hy, hthrough⟩, honce⟩ := hretrying.answered hhonest hchange hx hanswer
    rw [show e.changesOf i = _ from changesOf_through hy hthrough after]
    exact honce
  · have hrun : e = s.crowd.run (before ++ .steps policy r [] :: during ++ .go i :: after) := by
      simp only [Crowd.run, List.foldl_append, List.foldl_cons, e, d, c]
    rw [hrun] at hrange ⊢
    exact (Site.written_crowd hunwritten).run hrange

set_option maxRecDepth 8192 in
/-- The first attempt finds the session abandoned and saves it so, but the save of its change fails;
the second one retries the session. -/
theorem retried_once_abandoned :
    let id := SessionId.fresh 1
    let r (event : SessionEvent) : StepRequest := ⟨0, id, some (.transition event none), ⟨1000000000⟩⟩
    let before := [.create 3 [], .steps {} (r .start) []] ++ List.replicate 12 (.go 0) ++
      [.set ⟨400000000000000⟩, .disturb [⟨"repo.save", 1, 1, some (.unavailable "down"), none⟩]]
    let c := Site.single.crowd.run before
    let d := (c.act (.steps {} (r .retry) [])).run (List.replicate 22 (.go 1))
    let e := (d.act (.go 1)).run []
    (r .retry).change ≠ none ∧ d.answer? 1 = some (.success .pending 4) ∧
      e.endings.map (fun e => (e.outcome, e.notes.saves.map (·.version))) =
        [(some (.success .running 2), [2]),
          (some (.transientError "Backend unavailable: down"), [3]),
          (some (.success .pending 4), [4])] ∧
      Once (r .retry) (.success .pending 4) (e.changesOf 1) := by
  intro id r before c d e
  have hchange : (r .retry).change ≠ none := by decide
  have hanswer : d.answer? 1 = some (.success .pending 4) := by decide +kernel
  have hnew : c.clients.length = 1 := by decide +kernel
  have honce : d.answer? c.clients.length = some (.success .pending 4) → Once (r .retry) _
      (((d.act (.go c.clients.length)).run []).changesOf c.clients.length) :=
    (retried_once Site.single {} (r .retry) hchange before (List.replicate 22 (.go 1)) []).1 _
  rw [hnew] at honce
  exact ⟨hchange, hanswer, by decide +kernel, honce hanswer⟩

end Crowd

end FencedSessions
