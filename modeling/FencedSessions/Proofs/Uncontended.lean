import FencedSessions.Proofs.Alone
import FencedSessions.Site.Scheduler

/-! A step in the foreground of a site where nobody else wants its session: what its caller is told and what
the stores hold afterwards is what the step comes to as a function of what was stored. -/

namespace FencedSessions

namespace World

variable {w : World} {id : Nat} {x : Series} {p q : StepPhase} {s t : Site} {n : Nat}

theorem task?_setTask_self {a b : Task} (h : w.task? a.id = some b) :
    (w.setTask a).task? a.id = some a := by
  have hb : b.id = a.id := by simpa using List.find?_some h
  unfold task? setTask at *
  rw [List.find?_map]
  have hsame : (fun c => decide (c.id = a.id)) ∘ (fun c : Task => if c.id = a.id then a else c) =
      fun c => decide (c.id = a.id) := by
    funext c
    by_cases hc : c.id = a.id <;> simp [hc]
  rw [hsame, h]
  simp [hb]

theorem task?_setTask_ne {a : Task} (h : a.id ≠ id) (w : World) :
    (w.setTask a).task? id = w.task? id := by
  unfold task? setTask
  induction w.tasks with
  | nil => rfl
  | cons c rest ih =>
    rw [List.map_cons, List.find?_cons, List.find?_cons, ih]
    by_cases hc : c.id = a.id
    · have hid : c.id ≠ id := hc ▸ h
      simp [hc, h]
    · simp [hc]

theorem mem_setTask {a b : Task} (h : b ∈ (w.setTask a).tasks) : b = a ∨ b ∈ w.tasks ∧ b.id ≠ a.id := by
  obtain ⟨c, hc, rfl⟩ := List.mem_map.mp h
  by_cases hid : c.id = a.id
  · exact .inl (if_pos hid)
  · rw [if_neg hid]
    exact .inr ⟨hc, hid⟩

/-- A task, the site and whose turn it is are as before. -/
structure Leaves (id : Nat) (w w' : World) : Prop where
  task : w'.task? id = w.task? id
  own : ∀ a ∈ w'.tasks, a.id = id → a ∈ w.tasks
  site : w'.site = w.site
  current : w'.current = w.current

theorem Leaves.refl (id : Nat) (w : World) : Leaves id w w := ⟨rfl, fun _ ha _ => ha, rfl, rfl⟩

theorem Leaves.trans {a b c : World} (h : Leaves id a b) (h' : Leaves id b c) : Leaves id a c where
  task := h'.task.trans h.task
  own o ho hid := h.own o (h'.own o ho hid) hid
  site := h'.site.trans h.site
  current := h'.current.trans h.current

theorem Leaves.foldl {f : World → Task → World} {tasks : List Task}
    (h : ∀ w, ∀ a ∈ tasks, Leaves id w (f w a)) (w : World) : Leaves id w (tasks.foldl f w) := by
  induction tasks generalizing w with
  | nil => exact .refl id w
  | cons a rest ih =>
    exact (h w a (by simp)).trans (ih (fun w b hb => h w b (by simp [hb])) (f w a))

theorem leaves_rouse (id : Nat) (w : World) (other : Nat) : Leaves id w (w.rouse other) := by
  unfold rouse
  split
  · exact ⟨rfl, fun _ ha _ => ha, rfl, rfl⟩
  · split <;> exact ⟨rfl, fun _ ha _ => ha, rfl, rfl⟩

theorem leaves_setTask {a : Task} (h : a.id ≠ id) (w : World) : Leaves id w (w.setTask a) where
  task := task?_setTask_ne h w
  own b hb hid := by
    rcases mem_setTask hb with rfl | ⟨hmem, -⟩
    · exact absurd hid h
    · exact hmem
  site := rfl
  current := rfl

theorem leaves_announce (id : Nat) (w : World) (other : Nat) : Leaves id w (w.announce other) :=
  .foldl (fun w a _ => leaves_rouse id w a.id) w

/-- A wake-up concerns tasks that have not ended. -/
theorem leaves_wake (h : ∀ a ∈ w.tasks, a.id = id → a.result.isSome) (node : Nat) (key : String) :
    Leaves id w (w.effect (.wake node key)) := by
  refine .foldl (fun w' a ha => ?_) w
  -- the woken tasks are chosen before the first is woken, and none of them has ended
  have hne : a.id ≠ id := by
    intro heq
    obtain ⟨hmem, hwaits⟩ := List.mem_filter.mp (List.mem_mergeSort.mp ha)
    have hended := h a hmem heq
    cases hresult : a.result <;> simp [hresult] at hwaits hended
  have hset := leaves_setTask (a := { a with activity := a.activity.wake }) hne w'
  dsimp only
  split
  · exact hset.trans (leaves_rouse id _ a.id)
  · exact hset

/-- It is the turn of a task, and the site is as it left it. -/
structure HasTurn (w : World) (id : Nat) (a : Activity) (s : Site) : Prop where
  current : w.current = some id
  task : w.task? id = some { id, activity := a }
  site : w.site = s

section HasTurn

variable {a b : Activity} (h : w.HasTurn id a s)
include h

theorem HasTurn.await_step (fuel : Nat) :
    w.await id (fuel + 1) = (w.stepTask { id, activity := a }).await id fuel := by
  have hresult : w.result? id = none := by
    unfold result?
    rw [h.task]
    rfl
  have hadvance : w.advance = some (w.stepTask { id, activity := a }) := by
    simp only [advance, micro, h.current, h.task]
  simp [await, hresult, hadvance]

/-- A step after which the task can go on takes one unit of fuel and leaves the turn with the task. -/
theorem HasTurn.goes (hstep : a.step s = (b, none, t, [])) (hready : b.readiness t.timer = .now) :
    ∃ w' : World, w'.HasTurn id b t ∧ ∀ fuel, w.await id (fuel + 1) = w'.await id fuel := by
  have hdone : w.stepTask { id, activity := a } =
      ({ w with site := t } : World).setTask { id, activity := b } := by
    simp [stepTask, h.site, hstep, hready]
  have hturn : (({ w with site := t } : World).setTask { id, activity := b }).HasTurn id b t :=
    ⟨h.current, task?_setTask_self h.task, rfl⟩
  refine ⟨_, hturn, fun fuel => ?_⟩
  rw [h.await_step, hdone]

end HasTurn

/-- A task that makes steps goes on as long as they do. -/
theorem HasTurn.await_leads (h : w.HasTurn id (.series x p) s) (hleads : StepPhase.Leads x.current n p s q t) :
    ∃ w' : World, w'.HasTurn id (.series x q) t ∧ ∀ fuel, w.await id (fuel + n) = w'.await id fuel := by
  induction hleads generalizing w with
  | refl p s => exact ⟨w, h, fun _ => rfl⟩
  | @step n p q z s t u hstep hon rest ih =>
    have hgoes : (Activity.series x p).step s = (.series x q, none, t, []) := by
      simp [Activity.step, hstep, hon.1]
    obtain ⟨w₁, hw₁, hfirst⟩ := h.goes hgoes (congrArg Activity.readiness.ofDue hon.2)
    obtain ⟨w', hw', hawait⟩ := ih hw₁
    exact ⟨w', hw', fun fuel => (hfirst (fuel + n)).trans (hawait fuel)⟩

/-- A task has ended, and nobody has the turn. -/
structure Ended (w : World) (id : Nat) (result : Result) : Prop where
  result : w.result? id = some result
  own : ∀ a ∈ w.tasks, a.id = id → a.result.isSome
  idle : w.current = none

variable {result : Result}

theorem Ended.leaves {w' : World} (h : w.Ended id result) (hleaves : Leaves id w w') :
    w'.Ended id result where
  result := by
    have hresult := h.result
    unfold result? at hresult ⊢
    rw [hleaves.task, hresult]
  own a ha hid := h.own a (hleaves.own a ha hid) hid
  idle := hleaves.current.trans h.idle

/-- A task that is over is not waited for. -/
theorem await_over (hresult : (w.result? id).isSome) (hidle : w.current = none) (fuel : Nat) :
    w.await id fuel = w := by
  cases fuel with
  | zero => rfl
  | succ fuel => simp [await, hresult, hidle]

theorem finish_ends {a b : Task} (htask : w.task? a.id = some b) (result : Result) :
    (w.finish a result).Ended a.id result ∧ (w.finish a result).site = w.site := by
  have hset := task?_setTask_self (a := { a with result := some result, activity := .ended }) htask
  -- what is kept of a lease does not concern the tasks
  have hended (guards : List (String × Lease)) :
      ({ w.setTask { a with result := some result, activity := .ended } with
        current := none, guards } : World).Ended a.id result := by
    refine ⟨?_, fun c hc hid => ?_, rfl⟩
    · change ((w.setTask _).task? a.id).bind (·.result) = some result
      rw [hset]
      rfl
    · rcases mem_setTask hc with rfl | ⟨-, hne⟩
      · rfl
      · exact absurd hid hne
  have hleaves (guards : List (String × Lease)) := leaves_announce a.id
    ({ w.setTask { a with result := some result, activity := .ended } with current := none, guards }) a.id
  unfold finish
  dsimp only
  split
  · exact ⟨(hended _).leaves (hleaves _), (hleaves _).site⟩
  · exact ⟨(hended _).leaves (hleaves _), (hleaves _).site⟩

/-- A task ends with its last step, and with it the wait for it. -/
theorem HasTurn.ends {a b : Activity} {fx : List Effect} (h : w.HasTurn id a s)
    (hstep : a.step s = (b, some result, t, fx)) (hfx : fx = [] ∨ ∃ node key, fx = [.wake node key]) :
    ∃ w' : World, (∀ fuel, w.await id (fuel + 1) = w') ∧ w'.result? id = some result ∧ w'.site = t := by
  obtain ⟨hended, hsite⟩ := finish_ends (w := { w with site := t })
    (a := { id, activity := a }) h.task result
  have hdone : w.stepTask { id, activity := a } =
      fx.foldl effect (World.finish { w with site := t } { id, activity := a } result) := by
    simp [stepTask, h.site, hstep]
  have hleaves : Leaves id (World.finish { w with site := t } { id, activity := a } result)
      (w.stepTask { id, activity := a }) := by
    rw [hdone]
    rcases hfx with rfl | ⟨node, key, rfl⟩
    · exact .refl id _
    · exact leaves_wake hended.own node key
  have hended' := hended.leaves hleaves
  refine ⟨_, fun fuel => ?_, hended'.result, hleaves.site.trans hsite⟩
  rw [h.await_step, await_over (by rw [hended'.result]; rfl) hended'.idle]

/-- The world once a task that can run is started in the foreground. -/
def begun (w : World) (a : Activity) : World :=
  { w with
    tasks := w.tasks ++ [{ id := w.nextTask, activity := a }]
    nextTask := w.nextTask + 1
    foreground := some w.nextTask
    foregroundReady := true
    round := false }

/-- What is started in the foreground has its turn before all others. -/
theorem await_begun (hidle : w.current = none) (hfresh : ∀ a ∈ w.tasks, a.id ≠ w.nextTask) (a : Activity) :
    ∃ w' : World, w'.HasTurn w.nextTask a w.site ∧
      ∀ fuel, (w.begun a).await w.nextTask (fuel + 1) = w'.await w.nextTask fuel := by
  have htask : (w.begun a).task? w.nextTask = some { id := w.nextTask, activity := a } := by
    have hnone : w.tasks.find? (fun a => a.id = w.nextTask) = none :=
      List.find?_eq_none.mpr fun a ha => by simpa using hfresh a ha
    simp [task?, begun, hnone]
  have hresult : (w.begun a).result? w.nextTask = none := by
    unfold result?
    rw [htask]
    rfl
  have hturn : (w.begun a).advance =
      some ({ w.begun a with foregroundReady := false, round := true }.turn w.nextTask) := by
    simp [advance, micro, begun, hidle]
  refine ⟨{ w.begun a with foregroundReady := false, round := true }.turn w.nextTask,
    ⟨rfl, htask, rfl⟩, fun fuel => ?_⟩
  simp [await, hresult, hturn]

theorem perform_begun (w : World) {a : Activity} (hready : a.readiness w.site.timer = .now) :
    let after := (w.begun a).await w.nextTask patience
    w.perform a = (after.result? w.nextTask,
      { after with
        foreground := none
        foregroundReady := false
        tasks := after.tasks.filter fun a => a.id ≠ w.nextTask }) := by
  have hstart : (!isParked w.site.timer { id := w.nextTask, activity := a }) = true := by
    simp [isParked, hready]
  simp only [perform, hstart]
  rfl

/-- A task that goes on at once from step to step, so many times, and then ends, has its result as soon as it is
begun. -/
theorem perform_ends {a b c : Activity} {fx : List Effect} (hidle : w.current = none)
    (hfresh : ∀ a ∈ w.tasks, a.id ≠ w.nextTask) (hready : a.readiness w.site.timer = .now)
    (hgoes : ∀ w₁ : World, w₁.HasTurn w.nextTask a w.site → ∃ w₂ : World, w₂.HasTurn w.nextTask b s ∧
      ∀ fuel, w₁.await w.nextTask (fuel + n) = w₂.await w.nextTask fuel)
    (hn : n + 2 ≤ patience) (hstep : b.step s = (c, some result, t, fx))
    (hfx : fx = [] ∨ ∃ node key, fx = [.wake node key]) :
    ∃ after : World, w.perform a = (some result, after) ∧ after.site = t := by
  obtain ⟨fuel, hfuel⟩ : ∃ fuel, patience = fuel + 1 + n + 1 := ⟨patience - (n + 2), by omega⟩
  obtain ⟨w₁, hw₁, hbegun⟩ := await_begun hidle hfresh a
  obtain ⟨w₂, hw₂, hsteps⟩ := hgoes w₁ hw₁
  obtain ⟨w₃, hends, hresult, hsite⟩ := hw₂.ends hstep hfx
  have hrun : (w.begun a).await w.nextTask patience = w₃ := by
    rw [hfuel, hbegun, hsteps, hends]
  have hperform := perform_begun w hready
  dsimp only at hperform
  rw [hrun, hresult] at hperform
  exact ⟨_, hperform, hsite⟩

/-- A step whose phases follow one another at once runs to its end as soon as it is asked for. -/
theorem perform_step {r : StepRequest} {o : Outcome} {node : Nat} {key : String}
    (hidle : w.current = none) (hfresh : ∀ a ∈ w.tasks, a.id ≠ w.nextTask)
    (hleads : StepPhase.Leads r n .initial w.site p s) (hn : n + 2 ≤ patience)
    (hstep : p.step r s = (.finished (.ok o), t, [.wake node key])) :
    ∃ after : World, w.perform (.ofStep r) =
        (some (.steps (if o.isSuccess then 1 else 0) (.ok o)), after) ∧
      after.site = t := by
  have hend : (Activity.series ⟨{ maxRetries := 0 }, r, 0, [], 0⟩ p).step s =
      (.ended, some (.steps (if o.isSuccess then 1 else 0) (.ok o)), t, [.wake node key]) := by
    simp [Activity.step, hstep, StepPhase.result?, Activity.afterStep]
  exact perform_ends hidle hfresh rfl (fun _ hw₁ => hw₁.await_leads hleads) hn hend (.inr ⟨node, key, rfl⟩)

end World

/-- What a step comes to at a site, when a key is in this state and these are the stored sessions. -/
def StepRequest.upshot (r : StepRequest) (s : Site) (k : KeyState) (m : MemoryRepository) : Upshot :=
  .ofStored ((m.find? r.id).map (·.session)) r.change (s.settings r.node).orchestrator.staleness s.now
    k.lastFence.next

/-- The state of a key once a holder that was alone with it has come and gone. -/
def KeyState.visited (k : KeyState) : KeyState := ⟨none, k.lastFence.next, [], k.lastTicket + 1⟩

namespace Site

/-- Nobody and nothing is in the way of the steps on a session: no call is disturbed, the breaker is closed,
the key of the session has no live lease, nobody queues for it, and no lease expires beyond the time line. -/
structure Clear (s : Site) (node : Nat) (id : SessionId) (k : KeyState) (m : MemoryRepository) : Prop where
  quiet : s.Quiet node
  free : k.liveLease s.now = none
  alone : (k.prune s.now).tickets = []
  expiry : (s.now.after? (s.settings node).lock.leaseDuration).isSome
  duration : 0 < (s.settings node).lock.leaseDurationMs
  /-- A session is stored under its own number. -/
  named : ∀ old, m.find? id = some old → old.session.id = id
  /-- The next holder of the lease may save it. -/
  fenced : ∀ old, m.find? id = some old → old.fence ≤ k.lastFence.next
  readable : s.sessionDirectory? ≠ none → ∀ old, m.find? id = some old → old.session.Shallow

open StepPhase in
/-- A step that nobody is in the way of goes from phase to phase until it is over: it has come to its upshot, and
has left the key free. -/
theorem Clear.leads {r : StepRequest} {k : KeyState} {m : MemoryRepository} (h : s.Clear r.node r.id k m)
    (hprovides : s.Provides r.id (n + 8) k m)
    (hdeadlines : (AcquirePhase.deadlines? s (acquireRequest r s)).isSome)
    (hadmits : ∀ record ∈ (r.upshot s k m).writes, s.Admits record) :
    ∃ i j p t u key, j ≤ 11 ∧ Leads r j .initial s p t ∧
      p.step r t = (.finished (.ok (r.upshot s k m).outcome), u, [.wake r.node key]) ∧
      s.Amid r i k.visited (written r m (r.upshot s k m).writes) u := by
  obtain ⟨l, s₁, hacquires, h₁, hl, hfence⟩ :=
    acquires ⟨.refl r.node s, h.quiet, hprovides⟩ h.free h.alone hdeadlines h.expiry h.duration
  unfold StepRequest.upshot at hadmits ⊢
  unfold KeyState.visited
  rw [← hfence] at hadmits ⊢
  have hopen (old : StoredSession) (hold : m.find? r.id = some old) : StepPhase.Open s r l old := by
    refine ⟨h.named old hold, ?_, fun hd => h.readable hd old hold⟩
    rw [hfence]
    exact h.fenced old hold
  obtain ⟨j, i, detail, s₂, hj, hsettles, h₂⟩ := settles h₁ hl hopen hadmits
  generalize Upshot.ofStored ((m.find? r.id).map (·.session)) r.change
    (s.settings r.node).orchestrator.staleness s.now l.fence = upshot at hsettles h₂ ⊢
  obtain ⟨s₃, hstep, h₃⟩ := finishes h₂ hl upshot.outcome detail
  exact ⟨i, 5 + j, _, s₂, s₃, _, Nat.add_le_add_left hj 5, hacquires.trans hsettles, hstep, h₃⟩

end Site

namespace World

/-- Nobody and nothing is in the way of a step that is asked for in the foreground, and no deadline leaves the
time line. -/
structure Uncontended (w : World) (r : StepRequest) (k : KeyState) (m : MemoryRepository) : Prop
    extends Site.Clear w.site r.node r.id k m where
  idle : w.current = none
  fresh : ∀ a ∈ w.tasks, a.id ≠ w.nextTask
  provides : w.site.Provides r.id 8 k m
  deadlines : (AcquirePhase.deadlines? w.site (StepPhase.acquireRequest r w.site)).isSome
  /-- What the step writes can be put down. -/
  admitted : ∀ record ∈ (r.upshot w.site k m).writes, w.site.Admits record

/-- An uncontended step answers and stores what it comes to as a function of what is stored, and leaves the key
free, with nobody in its queue, one fence on. -/
theorem perform_uncontended {w : World} {r : StepRequest} {k : KeyState} {m : MemoryRepository}
    (h : w.Uncontended r k m) :
    ∃ after : World, w.perform (.ofStep r) =
        (some (.steps (if (r.upshot w.site k m).outcome.isSuccess then 1 else 0)
          (.ok (r.upshot w.site k m).outcome)), after) ∧
      after.site.Holds (StepPhase.written r m (r.upshot w.site k m).writes) ∧
      after.site.keyState r.id.text = ⟨none, k.lastFence.next, [], k.lastTicket + 1⟩ := by
  obtain ⟨i, j, p, t, u, key, hj, hleads, hstep, hamid⟩ :=
    h.toClear.leads (n := 0) h.provides h.deadlines h.admitted
  have hpatience : j + 2 ≤ patience := by
    unfold patience
    omega
  obtain ⟨after, hperform, rfl⟩ := perform_step h.idle h.fresh hleads hpatience hstep
  exact ⟨after, hperform, hamid.provides.holds, hamid.provides.keeps.keyState⟩

/-- A session left behind by a worker whose lease and place in the queue have run out is orphaned, and
reopened by the retry that found it, in two writes. -/
theorem perform_abandoned :
    let start : Instant := ⟨0⟩
    let running : Session := { Session.create .nil 0 start with
      status := .running
      history := [⟨.pending, .running, start, false⟩]
      version := 2 }
    let m : MemoryRepository := MemoryRepository.put {} .nil ⟨⟨2⟩, running⟩
    let lease : Lease := ⟨SessionId.nil.text, "doomed-worker", ⟨2⟩, ⟨5000000000⟩, 0⟩
    let k : KeyState := ⟨some lease, ⟨2⟩, [⟨4, "doomed-worker", ⟨5000000000⟩, 0⟩], 4⟩
    let w : World := { site := {
      clock := ⟨11000000000⟩
      leases := .memory (MemoryLeases.setState {} SessionId.nil.text k)
      repository := .memory m
      nodes := [{ settings := { orchestrator := ⟨"worker", 10000⟩ } }] } }
    let r : StepRequest := ⟨0, .nil, some (.transition .retry none), .ofMillis 1000⟩
    let writes := (r.upshot w.site k m).writes
    w.Uncontended r k m ∧
      (∃ after : World, w.perform (.ofStep r) = (some (.steps 1 (.ok (.success .pending 4))), after) ∧
        after.site.Holds (StepPhase.written r m writes) ∧
        after.site.keyState SessionId.nil.text = ⟨none, ⟨3⟩, [], 5⟩) ∧
      writes.map (fun record => (record.fence, record.session.version, record.session.status,
          record.session.checkpoints.map (·.reason))) =
        [(⟨3⟩, 3, .orphaned, ["orphaned by rehydration"]),
          (⟨3⟩, 4, .pending, ["orphaned by rehydration", "retry from ORPHANED"])] := by
  intro start running m lease k w r writes
  have hfind : m.find? r.id = some ⟨⟨2⟩, running⟩ := MemoryRepository.find?_put_self {} .nil _
  have hmemory : w.site.sessionDirectory? = none := rfl
  have huncontended : w.Uncontended r k m := {
    idle := rfl
    fresh := fun a ha => absurd ha (List.not_mem_nil)
    quiet := ⟨fun _ _ d hd => absurd hd (List.not_mem_nil), 0, rfl⟩
    provides := {
      keeps := MemoryLeases.state_setState_self {} SessionId.nil.text k
      holds := rfl
      housed := fun d hd => by cases hd
      allowed := fun d hd => by cases hd }
    free := by decide
    alone := by decide
    deadlines := by decide
    expiry := by decide
    duration := by decide
    named := fun old hold => by cases hfind.symm.trans hold; rfl
    fenced := fun old hold => by cases hfind.symm.trans hold; decide
    readable := fun hd => absurd hmemory hd
    admitted := fun _ _ hd => absurd hmemory hd }
  have hstale : running.isStale w.site.now (w.site.settings r.node).orchestrator.staleness = true := by
    decide
  obtain ⟨orphan, horphan⟩ : ∃ orphan : Session,
    orphan = { running.orphan w.site.now ⟨3⟩ with version := 3 } := ⟨_, rfl⟩
  have hupshot : r.upshot w.site k m = { Upshot.ofFound orphan r.change w.site.now ⟨3⟩ with
      writes := ⟨⟨3⟩, orphan⟩ :: (Upshot.ofFound orphan r.change w.site.now ⟨3⟩).writes } := by
    unfold StepRequest.upshot
    rw [hfind, horphan]
    simp only [Option.map_some, Upshot.ofStored, hstale, if_true]
    rfl
  have hwrites : writes.map (fun record => (record.fence, record.session.version,
      record.session.status, record.session.checkpoints.map (·.reason))) =
        [(⟨3⟩, 3, .orphaned, ["orphaned by rehydration"]),
          (⟨3⟩, 4, .pending, ["orphaned by rehydration", "retry from ORPHANED"])] := by
    simp only [writes, hupshot]
    rw [horphan]
    rfl
  have houtcome : (r.upshot w.site k m).outcome = .success .pending 4 := by
    rw [hupshot, horphan]
    rfl
  have hperform := perform_uncontended huncontended
  rw [houtcome] at hperform
  exact ⟨huncontended, hperform, hwrites⟩

end World

end FencedSessions
