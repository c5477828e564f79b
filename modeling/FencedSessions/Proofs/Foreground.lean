import FencedSessions.Proofs.Runs
import FencedSessions.Proofs.Uncontended

/-! A step in the foreground of a world at rest, with as much fuel as it takes: it has its run, and when
that is over the world is at rest again. -/

namespace FencedSessions

/-- Has ended, and waits for nothing. -/
structure Task.Over (a : Task) : Prop where
  result : a.result.isSome
  activity : a.activity = .ended

namespace World

/-- A step that is made once. -/
def single (r : StepRequest) : Series := ⟨{ maxRetries := 0 }, r, 0, [], 0⟩

/-- Takes a task away from the foreground. -/
def dismiss (w : World) (id : Nat) : World :=
  { w with foreground := none, foregroundReady := false, tasks := w.tasks.filter fun t => t.id ≠ id }

/-- Performs a step in the foreground, with so much fuel. -/
def performIn (fuel : Nat) (w : World) (r : StepRequest) : Option Result × World :=
  let v := (w.begun (.ofStep r)).await w.nextTask fuel
  (v.result? w.nextTask, v.dismiss w.nextTask)

theorem perform_single (w : World) (r : StepRequest) : w.perform (.ofStep r) = w.performIn patience r := rfl

/-- Performs a step, and all that it leaves to be done in the background. -/
def carryOut (fuel : Nat) (w : World) (r : StepRequest) : Option Result × World :=
  ((w.performIn fuel r).1, (w.performIn fuel r).2.settle fuel)

/-- With enough fuel a step is carried out, with this outcome and this world after it. -/
def Completes (w : World) (r : StepRequest) (o : Except Stop Outcome) (w' : World) : Prop :=
  ∃ enough stored, ∀ fuel ≥ enough, w.carryOut fuel r = (some (.steps stored o), w')

/-- A step comes to one outcome, and leaves one world. -/
theorem Completes.unique {w a b : World} {r : StepRequest} {o o' : Except Stop Outcome} (ha : w.Completes r o a)
    (hb : w.Completes r o' b) : o = o' ∧ a = b := by
  obtain ⟨n, stored, hn⟩ := ha
  obtain ⟨m, stored', hm⟩ := hb
  have hsame := (hn (max n m) (Nat.le_max_left n m)).symm.trans (hm (max n m) (Nat.le_max_right n m))
  cases hsame
  exact ⟨rfl, rfl⟩

/-- Every task has ended. -/
structure AtRest (w : World) : Prop where
  idle : w.current = none
  ready : w.ready = []
  ended : ∀ a ∈ w.tasks, a.Over
  fresh : ∀ a ∈ w.tasks, a.id < w.nextTask

/-- The task of a step that comes next. -/
def comer (w : World) (r : StepRequest) (p : StepPhase) (parked : Nat) : Task :=
  { id := w.nextTask, activity := .series (single r) p, parked }

/-- A task that comes next to remove a ticket. -/
def remover (w : World) (key : String) (ticket : Nat) : Task :=
  { id := w.nextTask, activity := .revoke key ticket }

/-- A world with one more task, whose turn it is. -/
def engaged (w : World) (a : Task) (s : Site) (parkings : Nat) : World :=
  { w with
    site := s
    tasks := w.tasks ++ [a]
    nextTask := w.nextTask + 1
    foregroundReady := false
    current := some w.nextTask
    round := true
    parkings }

/-- The same while the task waits. -/
def dormant (w : World) (a : Task) (s : Site) (parkings : Nat) : World :=
  { w.engaged a s parkings with current := none }

/-- The same once the task can go on. -/
def roused (w : World) (a : Task) (s : Site) (parkings : Nat) : World :=
  { w.engaged a s parkings with current := none, foregroundReady := true, round := false }

/-- A world whose next task is to run in the foreground. -/
def fronted (w : World) : World := { w with foreground := some w.nextTask }

variable {w : World} {a b : Task} {s t : Site} {n : Nat}

namespace AtRest

variable (h : w.AtRest)
include h

theorem find_next : w.tasks.find? (fun b => b.id = w.nextTask) = none :=
  List.find?_eq_none.mpr fun b hb => by simpa using Nat.ne_of_lt (h.fresh b hb)

theorem engaged_task (ha : a.id = w.nextTask) : (w.engaged a s n).task? w.nextTask = some a := by
  simp [task?, engaged, h.find_next, ha]

theorem setTask_engaged (ha : a.id = w.nextTask) (hb : b.id = w.nextTask) :
    (w.engaged a s n).setTask b = w.engaged b s n := by
  have hkept : w.tasks.map (fun c => if c.id = b.id then b else c) = w.tasks := by
    refine (List.map_congr_left fun c hc => ?_).trans (List.map_id w.tasks)
    have hne := Nat.ne_of_lt (h.fresh c hc)
    rw [hb, if_neg hne]
    rfl
  simp only [setTask, engaged, List.map_append, hkept, List.map_singleton]
  rw [if_pos (ha.trans hb.symm)]

variable {r : StepRequest} {p q : StepPhase} {parked : Nat}

theorem unfinished (ha : a.id = w.nextTask) (hresult : a.result = none) :
    (w.engaged a s n).result? w.nextTask = none := by
  unfold result?
  rw [h.engaged_task ha, Option.bind_some, hresult]

theorem micro_engaged (ha : a.id = w.nextTask) :
    (w.engaged a s n).micro = some ((w.engaged a s n).stepTask a) := by
  have hcurrent : (w.engaged a s n).current = some w.nextTask := rfl
  simp only [micro, hcurrent, h.engaged_task ha]

theorem await_engaged (ha : a.id = w.nextTask) (hresult : a.result = none) (fuel : Nat) :
    (w.engaged a s n).await w.nextTask (fuel + 1) =
      ((w.engaged a s n).stepTask a).await w.nextTask fuel := by
  simp [await, h.unfinished ha hresult, advance, h.micro_engaged ha]

omit h in
/-- A step that goes on keeps its turn, unless its next phase is to wait. -/
theorem stepTask_goes (hstep : p.step r s = (q, t, [])) (hon : q.result? = none) :
    (w.engaged (w.comer r p parked) s n).stepTask (w.comer r p parked) =
      match q.parkedUntil? with
      | none => (w.engaged (w.comer r p parked) t n).setTask (w.comer r q parked)
      | some _ => (w.engaged (w.comer r p parked) t n).park (w.comer r q parked) := by
  simp only [stepTask, comer, single, Option.isSome_none, Bool.false_eq_true, if_false, Activity.step]
  simp only [engaged, hstep, hon, Activity.readiness, Activity.readiness.ofDue, List.foldl_nil]
  cases q.parkedUntil? <;> rfl

theorem await_goes (hstep : p.step r s = (q, t, [])) (hon : q.result? = none) (hpark : q.parkedUntil? = none)
    (fuel : Nat) : (w.engaged (w.comer r p parked) s n).await w.nextTask (fuel + 1) =
      (w.engaged (w.comer r q parked) t n).await w.nextTask fuel := by
  rw [h.await_engaged rfl rfl, stepTask_goes hstep hon, hpark]
  dsimp only
  rw [h.setTask_engaged rfl rfl]

theorem park_engaged (ha : a.id = w.nextTask) (hb : b.id = w.nextTask) :
    (w.engaged a s n).park b = w.dormant { b with parked := n + 1 } s (n + 1) := by
  change ({ (w.engaged a s n).setTask { b with parked := n + 1 } with
    current := none, parkings := n + 1 } : World) = _
  rw [h.setTask_engaged ha (b := { b with parked := n + 1 }) hb]
  rfl

theorem await_waits {due : Nat} (hstep : p.step r s = (q, t, [])) (hon : q.result? = none)
    (hpark : q.parkedUntil? = some due) (fuel : Nat) :
    (w.engaged (w.comer r p parked) s n).await w.nextTask (fuel + 1) =
      (w.dormant (w.comer r q (n + 1)) t (n + 1)).await w.nextTask fuel := by
  rw [h.await_engaged rfl rfl, stepTask_goes hstep hon, hpark]
  dsimp only
  rw [h.park_engaged rfl rfl]
  rfl

/-- Nothing but the waiting task is due. -/
theorem filter_waiting {f : Task → Bool} (hover : ∀ c, c.Over → f c = false) (ha : f a = true) :
    (w.tasks ++ [a]).filter f = [a] := by
  have hnone : w.tasks.filter f = [] := List.filter_eq_nil_iff.mpr fun c hc => by
    simp [hover c (h.ended c hc)]
  simp [List.filter_append, hnone, ha]

theorem filterMap_waiting {α : Type} {f : Task → Option α} {x : α} (hover : ∀ c, c.Over → f c = none)
    (ha : f a = some x) : (w.tasks ++ [a]).filterMap f = [x] := by
  have hnone : w.tasks.filterMap f = [] := List.filterMap_eq_nil_iff.mpr fun c hc => hover c (h.ended c hc)
  simp [List.filterMap_append, hnone, ha]

omit h in
theorem advance_roused (hfront : w.foreground = some w.nextTask) :
    (w.roused a s n).advance = some (w.engaged a s n) := by
  simp [advance, micro, roused, engaged, hfront, turn]

/-- Time passes until the one task that waits is due, and it is its turn again. -/
theorem await_dormant {due : Nat} (hfront : w.foreground = some w.nextTask)
    (hpark : q.parkedUntil? = some due) (fuel : Nat) :
    (w.dormant (w.comer r q parked) t n).await w.nextTask (fuel + 2) =
      (w.engaged (w.comer r q parked) (t.waited (some due)) n).await w.nextTask fuel := by
  have hdueOf (timer : Nat) : dueOf timer (w.comer r q parked) = some due := by
    simp [dueOf, comer, Activity.readiness, Activity.readiness.ofDue, hpark]
  have hover (timer : Nat) (c : Task) (hc : c.Over) : dueOf timer c = none := by
    unfold dueOf
    rw [if_pos hc.result]
  have hdues : (w.tasks ++ [w.comer r q parked]).filterMap (dueOf t.timer) = [due] :=
    h.filterMap_waiting (hover t.timer) (hdueOf t.timer)
  have helapse : (w.dormant (w.comer r q parked) t n).advance =
      some (w.roused (w.comer r q parked) (t.waited (some due)) n) := by
    simp only [advance, micro, dormant, engaged, h.ready, elapse, hdues, waitingTasks, List.foldl_nil, if_true]
    rw [h.filter_waiting (a := w.comer r q parked) (fun c hc => by rw [hover t.timer c hc])
      (by rw [hdueOf]; exact decide_eq_true (Nat.le_max_right ..))]
    simp [comer, rouse, roused, engaged, h.ready, hfront, Site.waited]
  have hturn : (w.roused (w.comer r q parked) (t.waited (some due)) n).advance =
    some (w.engaged (w.comer r q parked) (t.waited (some due)) n) := advance_roused hfront
  have hdormant : (w.dormant (w.comer r q parked) t n).result? w.nextTask = none :=
    h.unfinished (a := w.comer r q parked) (s := t) (n := n) rfl rfl
  have hroused : (w.roused (w.comer r q parked) (t.waited (some due)) n).result? w.nextTask = none :=
    h.unfinished (a := w.comer r q parked) (s := t.waited (some due)) (n := n) rfl rfl
  simp [await, hdormant, helapse, hroused, hturn]

/-- When all has ended, there is no task that something could concern. -/
theorem filter_dormant (ha : a.Over) {f : Task → Bool} (hf : ∀ c, c.Over → f c = false) :
    (w.dormant a s n).tasks.filter f = [] := by
  refine List.filter_eq_nil_iff.mpr fun c hc => ?_
  rcases List.mem_append.mp hc with hc | hc
  · simp [hf c (h.ended c hc)]
  · obtain rfl := List.mem_singleton.mp hc
    simp [hf c ha]

theorem announce_dormant (ha : a.Over) (id : Nat) : (w.dormant a s n).announce id = w.dormant a s n := by
  unfold announce
  rw [h.filter_dormant ha fun c hc => by simp [hc.activity]]
  rfl

theorem effect_wake (ha : a.Over) (node : Nat) (key : String) :
    (w.dormant a s n).effect (.wake node key) = w.dormant a s n := by
  unfold effect waitingTasks
  dsimp only
  rw [h.filter_dormant ha fun c hc => by simp [Option.isNone_eq_false_iff.mpr hc.result], List.mergeSort_nil]
  rfl

/-- A task that keeps no lease ends. -/
theorem finish_engaged (ha : a.id = w.nextTask) {result : Result}
    (hkeep : ∀ q p name, a.activity ≠ .acquire q p (some name)) :
    (w.engaged a s n).finish a result =
      w.dormant { a with result := some result, activity := .ended } s n := by
  have hset := h.setTask_engaged (s := s) (n := n) (b := { a with result := some result, activity := .ended })
    ha ha
  have hannounce := h.announce_dormant (s := s) (n := n)
    (a := { a with result := some result, activity := .ended }) ⟨rfl, rfl⟩ a.id
  unfold finish
  rw [hset]
  split
  · rename_i hactivity
    exact absurd hactivity (hkeep _ _ _)
  · exact hannounce

omit h in
/-- A step that has its outcome ends its task. -/
theorem stepTask_over {fx : List Effect} {o : Except Stop Outcome} (hstep : p.step r s = (.finished o, t, fx))
    (w : World) (parked n : Nat) : ∃ stored, (w.engaged (w.comer r p parked) s n).stepTask (w.comer r p parked) =
      fx.foldl effect ((w.engaged (w.comer r p parked) t n).finish (w.comer r p parked) (.steps stored o)) := by
  cases o with
  | error e =>
    refine ⟨0, ?_⟩
    simp only [stepTask, comer, single, Option.isSome_none, Bool.false_eq_true, if_false, Activity.step]
    simp only [engaged, hstep, StepPhase.result?]
  | ok o =>
    refine ⟨if o.isSuccess then 1 else 0, ?_⟩
    simp only [stepTask, comer, single, Option.isSome_none, Bool.false_eq_true, if_false, Activity.step]
    simp only [engaged, hstep, StepPhase.result?, Activity.afterStep]
    simp

end AtRest

/-- A world once the task that came next has been put away. -/
def relieved (w : World) (s : Site) (parkings : Nat) : World :=
  { w with
    site := s
    nextTask := w.nextTask + 1
    foreground := none
    foregroundReady := false
    current := none
    round := true
    parkings }

/-- Where nothing is left to be done, nothing is done. -/
theorem settle_idle {v : World} (hcurrent : v.current = none) (hready : v.ready = []) (hround : v.round = true)
    (hfront : v.foregroundReady = false) {fuel : Nat} (hfuel : 0 < fuel) :
    v.settle fuel = { v with round := false } := by
  obtain ⟨fuel, rfl⟩ := Nat.exists_eq_succ_of_ne_zero (Nat.pos_iff_ne_zero.mp hfuel)
  simp [settle, micro, hcurrent, hround, hready, hfront]

/-- The world of a foreground task that has ended with an outcome. What it leaves to be done takes a site to
its last state, and the world to rest. -/
structure Answered (v : World) (id : Nat) (o : Except Stop Outcome) (u : Site) : Prop where
  current : v.current = none
  result : ∃ stored, v.result? id = some (.steps stored o)
  rest : ∃ v', v'.AtRest ∧ v'.site = u ∧ ∀ fuel ≥ 3, (v.dismiss id).settle fuel = v'

namespace AtRest

variable (h : w.AtRest)
include h

theorem filter_tasks : w.tasks.filter (fun c => c.id ≠ w.nextTask) = w.tasks :=
  List.filter_eq_self.mpr fun c hc => by simpa using Nat.ne_of_lt (h.fresh c hc)

/-- A task that is over can be put away. -/
theorem dismiss_dormant (ha : a.id = w.nextTask) :
    (w.dormant a s n).dismiss w.nextTask = w.relieved s n := by
  have hkept : (w.tasks ++ [a]).filter (fun c => c.id ≠ w.nextTask) = w.tasks := by
    rw [List.filter_append, h.filter_tasks]
    simp [ha]
  simp only [dismiss, dormant, engaged, hkept, relieved]

theorem relieved_rest (s : Site) (n : Nat) : ({ w.relieved s n with round := false } : World).AtRest where
  idle := rfl
  ready := h.ready
  ended := h.ended
  fresh c hc := Nat.lt_succ_of_lt (h.fresh c hc)

theorem dormant_answered {stored : Nat} {o : Except Stop Outcome} (ha : a.id = w.nextTask)
    (hresult : a.result = some (.steps stored o)) : (w.dormant a s n).Answered w.nextTask o s where
  current := rfl
  result := by
    refine ⟨stored, ?_⟩
    have htask : (w.dormant a s n).task? w.nextTask = some a := h.engaged_task (s := s) (n := n) ha
    unfold result?
    rw [htask, Option.bind_some, hresult]
  rest := by
    refine ⟨_, h.relieved_rest s n, rfl, fun fuel hfuel => ?_⟩
    rw [h.dismiss_dormant ha]
    exact settle_idle (v := w.relieved s n) rfl h.ready rfl rfl (Nat.lt_of_lt_of_le (by decide) hfuel)

/-- The removal of a ticket takes a task of its own. -/
theorem settle_remover (key : String) (ticket : Nat) :
    ∃ v', v'.AtRest ∧ v'.site = (s.lease key (.remove ticket)).2 ∧
      ∀ fuel ≥ 2, (w.engaged (w.remover key ticket) s n).settle fuel = v' := by
  let b : Task := { w.remover key ticket with result := some .revoked, activity := .ended }
  let t := (s.lease key (.remove ticket)).2
  have hfinish : (w.engaged (w.remover key ticket) t n).finish (w.remover key ticket) .revoked =
      w.dormant b t n :=
    h.finish_engaged rfl (by simp [remover])
  have hstep : (w.engaged (w.remover key ticket) s n).stepTask (w.remover key ticket) = w.dormant b t n := by
    rw [← hfinish]
    rfl
  refine ⟨{ w.dormant b t n with round := false }, ⟨rfl, h.ready, fun c hc => ?_, fun c hc => ?_⟩, rfl,
    fun fuel hfuel => ?_⟩
  · rcases List.mem_append.mp hc with hc | hc
    · exact h.ended c hc
    · obtain rfl := List.mem_singleton.mp hc
      exact ⟨rfl, rfl⟩
  · rcases List.mem_append.mp hc with hc | hc
    · exact Nat.lt_succ_of_lt (h.fresh c hc)
    · obtain rfl := List.mem_singleton.mp hc
      exact Nat.lt_succ_self _
  · obtain ⟨fuel, rfl⟩ := Nat.exists_eq_add_of_le' (Nat.le_of_succ_le hfuel)
    rw [settle, h.micro_engaged rfl]
    dsimp only
    rw [hstep]
    exact settle_idle (v := w.dormant b t n) rfl h.ready rfl rfl (Nat.le_of_succ_le_succ hfuel)

/-- A ticket that a task leaves behind is removed in the background. -/
theorem revoke_answered {stored : Nat} {o : Except Stop Outcome} (ha : a.id = w.nextTask)
    (hfront : w.foreground = some w.nextTask) (hresult : a.result = some (.steps stored o)) (key : String)
    (ticket : Nat) :
    ((w.dormant a s n).effect (.revoke key ticket)).Answered w.nextTask o (s.lease key (.remove ticket)).2 := by
  let v : World := { w.relieved s n with round := false }
  have hv : v.AtRest := h.relieved_rest s n
  have heffect : (w.dormant a s n).effect (.revoke key ticket) =
      { w.dormant a s n with
        tasks := w.tasks ++ [a] ++ [v.remover key ticket]
        nextTask := w.nextTask + 2
        ready := [w.nextTask + 1] } := by
    simp [effect, spawn, rouse, dormant, engaged, hfront, h.ready, v, remover, relieved]
  have hdismiss : ((w.dormant a s n).effect (.revoke key ticket)).dismiss w.nextTask =
      { w.relieved s n with
        tasks := w.tasks ++ [v.remover key ticket]
        nextTask := w.nextTask + 2
        ready := [w.nextTask + 1] } := by
    have hkept : (w.tasks ++ [a] ++ [v.remover key ticket]).filter (fun c => c.id ≠ w.nextTask) =
        w.tasks ++ [v.remover key ticket] := by
      rw [List.filter_append, List.filter_append, h.filter_tasks]
      simp [ha, v, remover, relieved]
    rw [heffect]
    simp only [dismiss, hkept]
    rfl
  obtain ⟨v', hrest, hsite, hsettle⟩ := hv.settle_remover (s := s) (n := n) key ticket
  refine ⟨by rw [heffect]; rfl, ⟨stored, ?_⟩, v', hrest, hsite, fun fuel hfuel => ?_⟩
  · rw [heffect]
    simp [result?, task?, h.find_next, ha, hresult]
  · obtain ⟨fuel, rfl⟩ := Nat.exists_eq_add_of_le' (Nat.le_of_succ_le hfuel)
    rw [hdismiss, settle]
    refine Eq.trans ?_ (hsettle (fuel + 1) (Nat.le_of_succ_le_succ hfuel))
    simp [micro, relieved, turn, engaged, v, h.ready, remover]

open StepPhase in
/-- A step whose turn it is comes to the end of its run. -/
theorem await_runs (hfront : w.foreground = some w.nextTask) {o : Except Stop Outcome} {u : Site}
    (hrun : Runs r p s o u) (parked n : Nat) : ∃ v enough, v.Answered w.nextTask o u ∧
      ∀ fuel ≥ enough, (w.engaged (w.comer r p parked) s n).await w.nextTask fuel = v := by
  -- the step that ends the run, by what it leaves to be done
  have hlast {p : StepPhase} {s t u : Site} {o : Except Stop Outcome} {fx : List Effect} {parked n : Nat}
      (hstep : p.step r s = (.finished o, t, fx))
      (hended : ∀ b : Task, b.id = w.nextTask → b.Over → ∀ stored, b.result = some (.steps stored o) →
        (fx.foldl effect (w.dormant b t n)).Answered w.nextTask o u) :
      ∃ v enough, v.Answered w.nextTask o u ∧
        ∀ fuel ≥ enough, (w.engaged (w.comer r p parked) s n).await w.nextTask fuel = v := by
    obtain ⟨stored, hover⟩ := stepTask_over hstep w parked n
    rw [h.finish_engaged rfl (by simp [comer])] at hover
    have hend := hended { w.comer r p parked with result := some (.steps stored o), activity := .ended } rfl
      ⟨rfl, rfl⟩ stored rfl
    refine ⟨_, 1, hend, fun fuel hfuel => ?_⟩
    obtain ⟨fuel, rfl⟩ := Nat.exists_eq_add_of_le' hfuel
    obtain ⟨stored', hresult⟩ := hend.result
    rw [h.await_engaged rfl rfl, hover, await_over (by rw [hresult]; rfl) hend.current]
  induction hrun generalizing parked n with
  | ends hstep hfx =>
    refine hlast hstep fun b hb hover stored hresult => ?_
    rcases hfx with rfl | ⟨node, key, rfl⟩
    · exact h.dormant_answered hb hresult
    · rw [List.foldl_cons, h.effect_wake hover]
      exact h.dormant_answered hb hresult
  | drops hstep => exact hlast hstep fun b hb _ stored hresult => h.revoke_answered hb hfront hresult _ _
  | @goes p q s t u o hstep hon rest ih =>
    cases hpark : q.parkedUntil? with
    | none =>
      rw [hpark] at ih
      obtain ⟨v, enough, hend, hawait⟩ := ih parked n
      refine ⟨v, enough + 1, hend, fun fuel hfuel => ?_⟩
      obtain ⟨fuel, rfl⟩ := Nat.exists_eq_add_of_le' (Nat.le_of_add_left_le hfuel)
      rw [h.await_goes hstep hon hpark]
      exact hawait fuel (Nat.le_of_add_le_add_right hfuel)
    | some due =>
      rw [hpark] at ih
      obtain ⟨v, enough, hend, hawait⟩ := ih (n + 1) (n + 1)
      refine ⟨v, enough + 3, hend, fun fuel hfuel => ?_⟩
      obtain ⟨fuel, rfl⟩ := Nat.exists_eq_add_of_le' (Nat.le_of_add_left_le hfuel)
      rw [h.await_waits hstep hon hpark (fuel + 2), h.await_dormant hfront hpark]
      exact hawait fuel (Nat.le_of_add_le_add_right hfuel)

theorem front : w.fronted.AtRest := ⟨h.idle, h.ready, h.ended, h.fresh⟩

/-- A step that comes next starts at once. -/
theorem await_first (r : StepRequest) (fuel : Nat) :
    (w.begun (.ofStep r)).await w.nextTask (fuel + 1) =
      (w.fronted.engaged (w.fronted.comer r .initial 0) w.site w.parkings).await w.fronted.nextTask fuel := by
  have hbegun : w.begun (.ofStep r) = w.fronted.roused (w.comer r .initial 0) w.site w.parkings := by
    simp [begun, Activity.ofStep, Activity.ofSteps, single, roused, engaged, comer, fronted, h.idle]
  have hresult : (w.begun (.ofStep r)).result? w.nextTask = none := by
    rw [hbegun]
    exact h.front.unfinished (a := w.comer r .initial 0) (s := w.site) (n := w.parkings) rfl rfl
  have hturn : (w.fronted.roused (w.comer r .initial 0) w.site w.parkings).advance =
      some (w.fronted.engaged (w.comer r .initial 0) w.site w.parkings) := advance_roused rfl
  rw [hbegun] at hresult ⊢
  simp only [await, hresult, hturn]
  rfl

/-- A step in the foreground comes to the end of its run, and leaves the world at rest. -/
theorem completes {o : Except Stop Outcome} {u : Site} (hrun : StepPhase.Runs r .initial w.site o u) :
    ∃ w', w.Completes r o w' ∧ w'.AtRest ∧ w'.site = u := by
  obtain ⟨v, enough, hend, hawait⟩ := h.front.await_runs rfl hrun 0 w.parkings
  obtain ⟨stored, hresult⟩ := hend.result
  obtain ⟨v', hrest, hsite, hsettle⟩ := hend.rest
  refine ⟨v', ⟨enough + 3, stored, fun fuel hfuel => ?_⟩, hrest, hsite⟩
  obtain ⟨fuel, rfl⟩ := Nat.exists_eq_add_of_le' (Nat.le_of_add_left_le hfuel)
  have hv := (h.await_first r (fuel + 2)).trans (hawait (fuel + 2) (by omega))
  have hperformed : w.performIn (fuel + 3) r = (some (.steps stored o), v.dismiss w.nextTask) := by
    unfold performIn
    dsimp only
    rw [hv]
    exact congrArg (·, v.dismiss w.nextTask) hresult
  unfold carryOut
  rw [hperformed]
  exact congrArg (_, ·) (hsettle (fuel + 3) (Nat.le_add_left 3 fuel))

end AtRest

end World

end FencedSessions
