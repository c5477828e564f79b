import FencedSessions.Proofs.Logs

/-! Outcomes tell the truth. Whatever the clients of a crowd do, whichever calls fail and wherever
steps are dropped, a step that answers success has stored exactly what it answers, and a step that
answers anything else has stored nothing but, perhaps, the session as abandoned. -/

namespace FencedSessions

namespace Client

/-- The notes of a client fit the step that it is at. -/
def Told (staleness : Nat → Int) (i : Nat) (x : Client) : Prop :=
  match x.activity.stepping? with
  | none => x.notes = {}
  | some (r, p) => p.Told i (staleness r.node) r x.notes

variable {staleness : Nat → Int} {i : Nat}

theorem told_idle {x : Client} (h : x.activity.stepping? = none) :
    x.Told staleness i ↔ x.notes = {} := by
  unfold Told
  rw [h]

theorem told_stepping {x : Client} {r : StepRequest} {p : StepPhase}
    (h : x.activity.stepping? = some (r, p)) :
    x.Told staleness i ↔ p.Told i (staleness r.node) r x.notes := by
  unfold Told
  rw [h]

theorem told_fresh {a : Activity} (h : a.Fresh) : Told staleness i ⟨a, {}⟩ := by
  cases hs : a.stepping? with
  | none => exact (told_idle hs).mpr rfl
  | some step =>
    obtain ⟨r, p⟩ := step
    rw [told_stepping hs, h r p hs]
    exact StepPhase.told_initial

/-- A client that is not in the middle of a step has no notes. -/
theorem notes_fresh {x : Client} (h : x.Told staleness i) (hfresh : x.activity.Fresh) : x.notes = {} := by
  cases hs : x.activity.stepping? with
  | none => exact (told_idle hs).mp h
  | some step =>
    obtain ⟨r, p⟩ := step
    rw [told_stepping hs, hfresh r p hs] at h
    exact h

theorem told_wake {x : Client} (h : x.Told staleness i) :
    Told staleness i { x with activity := x.activity.wake } := by
  have hwake := Activity.stepping_wake (a := x.activity)
  cases hs : x.activity.stepping? with
  | none =>
    rw [hs, Option.map_none] at hwake
    exact (told_idle hwake).mpr ((told_idle hs).mp h)
  | some step =>
    obtain ⟨r, p⟩ := step
    rw [hs, Option.map_some] at hwake
    rw [told_stepping hwake]
    have hp := (told_stepping hs).mp h
    cases p <;> exact hp

end Client

namespace Crowd

variable {staleness : Nat → Int} {c : Crowd}

theorem told_next (hset : ∀ n, (c.site.settings n).orchestrator.staleness = staleness n) {i : Nat}
    {x : Client} (h : x.Told staleness i) : (c.next i x).Told staleness i := by
  rcases c.next_cases i x with ⟨b, hs, hb, he⟩ | ⟨r, p, b, hs, -, hb, he⟩ | ⟨r, p, -, b, -, -, hb, he⟩
  · rw [he, (Client.told_idle hs).mp h]
    exact Client.told_fresh hb
  · rw [he, Client.told_stepping hb]
    exact StepPhase.told_step (hset r.node) ((Client.told_stepping hs).mp h)
  · rw [he]
    exact Client.told_fresh hb

/-- The notes of every client fit the step that it is at. -/
structure Told (staleness : Nat → Int) (c : Crowd) : Prop where
  settings : ∀ n, (c.site.settings n).orchestrator.staleness = staleness n
  clients : c.Each (Client.Told staleness)

theorem Told.act (h : c.Told staleness) (a : Act) : (c.act a).Told staleness where
  settings n := by
    rw [c.act_settings]
    exact h.settings n
  clients := h.clients.act a (fun _ _ hx => hx) (fun _ _ hb => Client.told_fresh hb)
    (fun _ _ hx => Client.told_wake hx) fun _ _ _ hx => told_next h.settings (h.clients _ _ hx)

/-- What ends with a step's next call is true. -/
theorem truthful_ending (h : c.Told staleness) {i : Nat} {x : Client} (hx : c.clients[i]? = some x)
    {e : Ending} (he : e ∈ c.ending i x) {o : Outcome} (ho : e.outcome = some o) :
    e.notes.Truthful e.client e.request (staleness e.request.node) o := by
  unfold ending at he
  cases hs : x.activity.stepping? with
  | none => simp only [hs] at he; cases he
  | some step =>
    obtain ⟨r, p⟩ := step
    have htold := StepPhase.told_step (h.settings r.node)
      ((Client.told_stepping hs).mp (h.clients i x hx))
    simp only [hs] at he
    generalize (p.step r c.site).1 = p' at he htold
    cases p' with
    | finished answer =>
      obtain rfl := List.mem_singleton.mp he
      cases answer with
      | error e => cases ho
      | ok o' => cases ho; exact htold o rfl
    | acquiring p => cases he
    | loading lease => cases he
    | orphaning lease o => cases he
    | savingOrphan lease o => cases he
    | renewing lease x c => cases he
    | confirming lease x d => cases he
    | saving lease x d => cases he
    | releasing lease result => cases he

/-- The saves of the step that a client is at. -/
def pending (c : Crowd) (i : Nat) : List Save := (c.clients[i]?.map (·.notes.saves)).getD []

theorem Told.pending_fresh (h : c.Told staleness) {i : Nat} {x : Client}
    (hx : c.clients[i]? = some x) (hfresh : x.activity.Fresh) : c.pending i = [] := by
  have hnotes := Client.notes_fresh (h.clients i x hx) hfresh
  simp only [pending, hx, hnotes, Option.map_some, Option.getD_some]

/-- Every save of a client is in the notes of exactly one of its steps. -/
def Accounted (c : Crowd) : Prop := ∀ i, c.saves.filter (·.client = i) =
  (c.endings.filter (·.client = i)).flatMap (·.notes.saves) ++ c.pending i

theorem pending_enter (a : Activity) (i : Nat) : (c.enter a).pending i = c.pending i := by
  unfold pending enter
  rw [List.getElem?_append]
  split
  · rfl
  · rename_i hi
    rw [List.getElem?_eq_none (Nat.not_lt.mp hi), List.getElem?_singleton]
    split <;> rfl

theorem pending_effects (fx : List Effect) (c : Crowd) (i : Nat) :
    (fx.foldl effect c).pending i = c.pending i := by
  induction fx generalizing c with
  | nil => rfl
  | cons e fx ih =>
    rw [List.foldl_cons, ih]
    cases e with
    | revoke key ticket => exact pending_enter _ i
    | wake node key =>
      simp only [pending, effect, List.getElem?_map, Option.map_map]
      congr 2
      funext x
      dsimp only [Function.comp]
      split <;> rfl

theorem pending_set {i : Nat} {x : Client} (h : c.clients[i]? = some x) (y : Client) (j : Nat) :
    (c.setClient i y).pending j = if i = j then y.notes.saves else c.pending j := by
  have hi : i < c.clients.length := (List.getElem?_eq_some_iff.mp h).1
  simp only [pending, setClient, List.getElem?_set, hi, if_true]
  split <;> rfl

/-- Only a client that goes on or is dropped adds to the logs of steps. -/
theorem act_cases (c : Crowd) (a : Act) :
    (∃ i x, a = .go i ∧ c.clients[i]? = some x) ∨ (∃ i x, a = .leave i ∧ c.clients[i]? = some x) ∨
    ((c.act a).saves = c.saves ∧ (c.act a).endings = c.endings ∧
      ∀ i, (c.act a).pending i = c.pending i) := by
  cases a with
  | go i =>
    cases hx : c.clients[i]? with
    | some x => exact Or.inl ⟨i, x, rfl, hx⟩
    | none =>
      have hgo : c.act (.go i) = c := c.go_absent hx
      rw [hgo]
      exact Or.inr (Or.inr ⟨rfl, rfl, fun _ => rfl⟩)
  | leave i =>
    cases hx : c.clients[i]? with
    | some x => exact Or.inr (Or.inl ⟨i, x, rfl, hx⟩)
    | none =>
      have hleave : c.act (.leave i) = c := c.leave_absent hx
      rw [hleave]
      exact Or.inr (Or.inr ⟨rfl, rfl, fun _ => rfl⟩)
  | release node key fence =>
    have hact : c.act (.release node key fence) = (c.site.release node key fence).2.2.foldl effect
      { c with site := (c.site.release node key fence).2.1 } := rfl
    obtain ⟨hsaves, hendings, -⟩ := effects_logs
      { c with site := (c.site.release node key fence).2.1 } (c.site.release node key fence).2.2
    rw [hact]
    exact Or.inr (Or.inr ⟨hsaves, hendings, pending_effects _ _⟩)
  | acquire r => exact Or.inr (Or.inr ⟨rfl, rfl, pending_enter _⟩)
  | steps policy first rest => exact Or.inr (Or.inr ⟨rfl, rfl, pending_enter _⟩)
  | _ => exact Or.inr (Or.inr ⟨rfl, rfl, fun _ => rfl⟩)

theorem mem_saving {i : Nat} {x : Client} {w : Save} (h : w ∈ c.saving i x) : w.client = i := by
  unfold saving at h
  split at h
  · cases h
  · exact (Notes.save?_some (Option.mem_toList.mp h)).1

theorem mem_ending {i : Nat} {x : Client} {e : Ending} (h : e ∈ c.ending i x) : e.client = i := by
  unfold ending at h
  split at h
  · cases h
  · split at h
    · cases h
    · rw [List.mem_singleton.mp h]

theorem mem_dropping {i : Nat} {x : Client} {e : Ending} (h : e ∈ dropping i x) :
    e.client = i ∧ e.outcome = none := by
  unfold dropping at h
  split at h
  · cases h
  · cases List.mem_singleton.mp h
    exact ⟨rfl, rfl⟩

/-- The notes of a step are complete. -/
theorem saves_next (i : Nat) (x : Client) :
    x.notes.saves ++ c.saving i x =
      (c.ending i x).flatMap (·.notes.saves) ++ (c.next i x).notes.saves := by
  rcases c.next_cases i x with
    ⟨b, hs, -, he⟩ | ⟨r, p, b, hs, hr, -, he⟩ | ⟨r, p, result, b, hs, hr, -, he⟩
  · simp [saving, ending, hs, he]
  · simp [saving, ending, hs, hr, he, Notes.after_saves]
  · simp [saving, ending, hs, hr, he, Notes.after_saves]

theorem Accounted.go (h : c.Accounted) {i : Nat} {x : Client} (hx : c.clients[i]? = some x) :
    (c.go i).Accounted := by
  obtain ⟨hsaves, hendings, -⟩ := c.go_logs hx
  have hpending (j : Nat) : (c.go i).pending j =
      if i = j then (c.next i x).notes.saves else c.pending j := by
    rw [← pending_set hx]
    unfold Crowd.go
    simp only [hx]
    exact pending_effects _ _ j
  intro j
  rw [hsaves, hendings, hpending, List.filter_append, List.filter_append, List.flatMap_append, h j]
  -- the saves of the client that goes on move to its notes; nobody else has one
  by_cases hj : i = j
  · subst hj
    have hown : (c.saving i x).filter (·.client = i) = c.saving i x :=
      List.filter_eq_self.mpr fun w hw => decide_eq_true (mem_saving hw)
    have hown' : (c.ending i x).filter (·.client = i) = c.ending i x :=
      List.filter_eq_self.mpr fun e he => decide_eq_true (mem_ending he)
    have hnext := saves_next (c := c) i x
    have hbefore : c.pending i = x.notes.saves := by simp [pending, hx]
    rw [hown, hown', hbefore, if_pos rfl, List.append_assoc, hnext, List.append_assoc]
  · have hother : (c.saving i x).filter (·.client = j) = [] :=
      List.filter_eq_nil_iff.mpr fun w hw => by simp [mem_saving hw, hj]
    have hother' : (c.ending i x).filter (·.client = j) = [] :=
      List.filter_eq_nil_iff.mpr fun e he => by simp [mem_ending he, hj]
    rw [hother, hother', if_neg hj, List.append_nil, List.flatMap_nil, List.append_nil]

theorem Accounted.leave (h : c.Accounted) (ht : c.Told staleness) {i : Nat} {x : Client}
    (hx : c.clients[i]? = some x) : (c.leave i).Accounted := by
  obtain ⟨hsaves, hendings, -⟩ := c.leave_logs hx
  have hpending (j : Nat) : (c.leave i).pending j = if i = j then [] else c.pending j := by
    have hset := pending_set hx ⟨.ended, {}⟩ j
    unfold Crowd.leave
    simp only [hx]
    exact (pending_effects _ _ j).trans hset
  have hdropped : (dropping i x).flatMap (·.notes.saves) = x.notes.saves := by
    unfold dropping
    cases hs : x.activity.stepping? with
    | none =>
      rw [(Client.told_idle hs).mp (ht.clients i x hx)]
      rfl
    | some step => simp
  intro j
  rw [hsaves, hendings, hpending, List.filter_append, List.flatMap_append, h j]
  by_cases hj : i = j
  · subst hj
    have hown : (dropping i x).filter (·.client = i) = dropping i x :=
      List.filter_eq_self.mpr fun e he => decide_eq_true (mem_dropping he).1
    have hbefore : c.pending i = x.notes.saves := by simp [pending, hx]
    rw [hown, hbefore, if_pos rfl, List.append_nil, hdropped]
  · have hother : (dropping i x).filter (·.client = j) = [] :=
      List.filter_eq_nil_iff.mpr fun e he => by simp [(mem_dropping he).1, hj]
    rw [hother, if_neg hj, List.flatMap_nil, List.append_nil]

/-- Each act keeps the account of the saves. -/
theorem Accounted.act (h : c.Accounted) (ht : c.Told staleness) (a : Act) : (c.act a).Accounted := by
  rcases c.act_cases a with ⟨i, x, rfl, hx⟩ | ⟨i, x, rfl, hx⟩ | ⟨hsaves, hendings, hpending⟩
  · exact h.go hx
  · exact h.leave ht hx
  · intro i
    rw [hsaves, hendings, hpending]
    exact h i

/-- What ends with an act is the step of a client that goes on, or one that is dropped. -/
theorem mem_endings {a : Act} {e : Ending} (h : e ∈ (c.act a).endings) :
    e ∈ c.endings ∨ ∃ x, c.clients[e.client]? = some x ∧
      (a = .go e.client ∧ e ∈ c.ending e.client x ∨ a = .leave e.client ∧ e.outcome = none) := by
  rw [act_endings, List.mem_append] at h
  refine h.imp_right fun hnew => ?_
  cases a with
  | go i =>
    simp only [closing] at hnew
    split at hnew
    · obtain rfl := mem_ending hnew
      exact ⟨_, ‹_›, .inl ⟨rfl, hnew⟩⟩
    · cases hnew
  | leave i =>
    simp only [closing] at hnew
    split at hnew
    · obtain ⟨rfl, hnone⟩ := mem_dropping hnew
      exact ⟨_, ‹_›, .inr ⟨rfl, hnone⟩⟩
    · cases hnew
  | _ => cases hnew

/-- What holds of the steps of a crowd at any time. -/
structure Honest (staleness : Nat → Int) (c : Crowd) : Prop where
  told : c.Told staleness
  accounted : c.Accounted
  truthful : ∀ e ∈ c.endings, ∀ o, e.outcome = some o →
    e.notes.Truthful e.client e.request (staleness e.request.node) o

theorem Honest.act (h : c.Honest staleness) (a : Act) : (c.act a).Honest staleness where
  told := h.told.act a
  accounted := h.accounted.act h.told a
  truthful e he o ho := by
    rcases mem_endings he with hold | ⟨x, hx, ⟨-, hnew⟩ | ⟨-, hnone⟩⟩
    · exact h.truthful e hold o ho
    · exact truthful_ending h.told hx hnew ho
    · rw [hnone] at ho
      cases ho

theorem Honest.run (h : c.Honest staleness) (acts : List Act) : (c.run acts).Honest staleness :=
  run_invariant (fun _ a h => h.act a) h acts

theorem honest_crowd (s : Site) :
    s.crowd.Honest fun n => (s.settings n).orchestrator.staleness where
  told := ⟨fun _ => rfl, fun _ _ hx => by cases hx⟩
  accounted _ := rfl
  truthful _ he := by cases he

end Crowd

/-- However the release goes, a step ends with the outcome it had before, unless time overflows. -/
theorem StepPhase.releasing_outcome (r : StepRequest) (s : Site) (lease : Lease)
    (result : StepResult) :
    ((releasing lease result).step r s).1 = match (s.release r.node lease.resource lease.fence).1 with
      | .error .overflow => .finished (.error .overflow)
      | _ => .finished (.ok result.outcome) := by
  simp only [step]
  generalize s.release r.node lease.resource lease.fence = released
  obtain ⟨answer, t, fx⟩ := released
  cases answer with
  | ok u => cases result <;> exact report_phase ..
  | error e =>
    cases e with
    | overflow => rfl
    | error e => cases result <;> exact report_phase ..

namespace Crowd

/-- The end of a step that is about to release its lock. -/
def released (c : Crowd) (i : Nat) (r : StepRequest) (lease : Lease) (result : StepResult)
    (n : Notes) : Ending :=
  ⟨i, r, match (c.site.release r.node lease.resource lease.fence).1 with
    | .error .overflow => none
    | _ => some result.outcome, n⟩

theorem endings_releasing {c : Crowd} {i : Nat} {x : Series} {lease : Lease} {result : StepResult}
    {n : Notes} (h : c.clients[i]? = some ⟨.series x (.releasing lease result), n⟩) :
    (c.act (.go i)).endings = c.endings ++ [c.released i x.current lease result n] := by
  obtain ⟨-, hendings, -⟩ := c.go_logs h
  have hout := StepPhase.releasing_outcome x.current c.site lease result
  have hnotes : n.after i x.current c.site (.releasing lease result) = n := by
    simp [Notes.after, Notes.save?]
  change (c.go i).endings = _
  rw [hendings]
  simp only [ending, Activity.stepping?, hout, hnotes, released]
  generalize (c.site.release x.current.node lease.resource lease.fence).1 = answer
  cases answer with
  | ok u => rfl
  | error e => cases e <;> rfl

/-- Outcomes are true and failures are atomic. In every run: each step that is over has told what it
has saved; each save of a client is in the notes of exactly one of its steps; a repository in memory
holds what was saved last; and no release that fails changes what the step answers. -/
theorem outcomes_truthful (s : Site) (acts : List Act) :
    let c := s.crowd.run acts
    (∀ e ∈ c.endings, ∀ o, e.outcome = some o → e.notes.Truthful e.client e.request
      (s.settings e.request.node).orchestrator.staleness o) ∧
    c.Accounted ∧
    (s.repository = .memory {} → ∀ id, c.site.record? id = c.written? id) ∧
    ∀ i x lease result n, c.clients[i]? = some ⟨.series x (.releasing lease result), n⟩ →
      (c.act (.go i)).endings = c.endings ++ [c.released i x.current lease result n] := by
  intro c
  have hhonest := (honest_crowd s).run acts
  refine ⟨hhonest.truthful, hhonest.accounted, fun h => ?_, fun _ _ _ _ _ hx => endings_releasing hx⟩
  obtain ⟨m, hrecorded⟩ := (Site.recorded_crowd h).run acts
  exact hrecorded.record

set_option maxRecDepth 4096 in
/-- A step that stores its change, and one that finds the session abandoned and is refused. -/
theorem outcomes_truthful_single :
    let step (event : SessionEvent) : Act := .steps { maxRetries := 0 }
      ⟨0, SessionId.fresh 1, some (.transition event none), ⟨1000000000⟩⟩ []
    let acts := [.create 3 [], step .start] ++ List.replicate 12 (.go 0) ++
      [.set ⟨400000000000000⟩, step .complete] ++ List.replicate 14 (.go 1)
    let c := Site.single.crowd.run acts
    c.endings.map (fun e => (e.outcome, e.notes.saves.map (·.version))) =
      [(some (.success .running 2), [2]),
        (some (.invalidTransition "illegal transition ORPHANED -> COMPLETED"), [3])] ∧
    (∀ e ∈ c.endings, ∀ o, e.outcome = some o → e.notes.Truthful e.client e.request
      (Site.single.settings e.request.node).orchestrator.staleness o) ∧
    c.Accounted ∧
    ∀ id, c.site.record? id = c.written? id := by
  intro step acts c
  obtain ⟨htruthful, haccounted, hrecorded, -⟩ := outcomes_truthful Site.single acts
  exact ⟨by decide +kernel, htruthful, haccounted, hrecorded rfl⟩

end Crowd

end FencedSessions
