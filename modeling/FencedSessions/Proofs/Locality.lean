import FencedSessions.Proofs.Grants
import FencedSessions.Proofs.Quiet
import FencedSessions.Proofs.Runs
import FencedSessions.Proofs.Serial

/-! What a step can reach while its calls are carried out on stores in memory: the key and the record of its
session, and nothing else that the stores hold. -/

namespace FencedSessions

/-- An operation on a key fails in one way only. -/
theorem KeyState.run_stop {k : KeyState} {key : String} {now : Instant} {op : LeaseOp} {e : Stop}
    (h : (k.run key now op).1 = .error e) : e = .overflow := by
  cases op with
  | grant expected holder position ttl =>
    change (k.grant key now expected holder position ttl).1 = _ at h
    unfold grant at h
    split at h
    · cases h
    · dsimp only at h
      split at h <;> cases h
      rfl
  | extend fence ttl =>
    change (k.extend now fence ttl).1 = _ at h
    unfold extend at h
    split at h
    · split at h
      · split at h <;> cases h
        rfl
      · cases h
    · cases h
  | _ => cases h

/-- Whatever is asked of a repository, it keeps each session under its own number. -/
theorem MemoryRepository.Keyed.run {m : MemoryRepository} (h : m.Keyed) (op : RepositoryOp) :
    (m.run op).2.Keyed := by
  cases op with
  | load id => exact h
  | list => exact h
  | create x =>
    change (m.create x).2.Keyed
    rcases m.create_cases x with ⟨e, hc⟩ | ⟨-, hc⟩ <;> rw [hc]
    · exact h
    · exact h.put (.initial x)
  | save x expected fence =>
    change (m.save x expected fence).2.Keyed
    rcases m.save_cases x expected fence with ⟨e, hc⟩ | ⟨-, -, -, -, hc⟩ <;> rw [hc]
    · exact h
    · exact h.put (.saved x expected fence)

/-- Whether steps make calls of this kind to the lease store. -/
def LeaseOp.inStep : LeaseOp → Bool
  | .get | .queueLength => false
  | _ => true

namespace Site

variable {s t u : Site} {n : Nat} {key : String} {op : LeaseOp}

theorem Quiet.lease (h : s.Quiet n) (hop : op.inStep) : s.Undisturbed op.callName := by
  refine h.undisturbed _ ?_
  cases op with
  | get => cases hop
  | queueLength => cases hop
  | _ => simp [stepCalls, LeaseOp.callName]

theorem Quiet.load (h : s.Quiet n) (id : SessionId) : s.Undisturbed (RepositoryOp.load id).callName :=
  h.undisturbed _ (by simp [stepCalls, RepositoryOp.callName])

theorem Quiet.save (h : s.Quiet n) (x : Session) (expected : Nat) (fence : Fence) :
    s.Undisturbed (RepositoryOp.save x expected fence).callName :=
  h.undisturbed _ (by simp [stepCalls, RepositoryOp.callName])

/-- Both stores are in memory, each session is stored under its own number, and the clock stands still. -/
structure Plain (s : Site) : Prop where
  leases : ∃ m, s.leases = .memory m
  repository : ∃ m : MemoryRepository, s.repository = .memory m ∧ m.Keyed
  still : s.running = false

theorem Plain.now (h : s.Plain) : s.now = s.clock := by simp [Site.now, h.still]

theorem Plain.emit (h : s.Plain) (e : Event) : (s.emit e).Plain := ⟨h.leases, h.repository, h.still⟩

theorem Plain.waited (h : s.Plain) (due : Option Nat) : (s.waited due).Plain := by
  cases due <;> exact ⟨h.leases, h.repository, h.still⟩

theorem Quiet.waited (h : s.Quiet n) (due : Option Nat) : (s.waited due).Quiet n := by
  cases due <;> exact ⟨h.undisturbed, h.closed⟩

/-- The time and the settings are the same, and where it was quiet it still is. -/
structure Constant (s t : Site) : Prop where
  clock : t.clock = s.clock
  running : t.running = s.running
  timer : t.timer = s.timer
  settings : ∀ n, t.settings n = s.settings n
  quiet : ∀ n, s.Quiet n → t.Quiet n

theorem Constant.refl (s : Site) : Constant s s := ⟨rfl, rfl, rfl, fun _ => rfl, fun _ h => h⟩

theorem Constant.trans (h : Constant s t) (h' : Constant t u) : Constant s u where
  clock := h'.clock.trans h.clock
  running := h'.running.trans h.running
  timer := h'.timer.trans h.timer
  settings n := (h'.settings n).trans (h.settings n)
  quiet n hq := h'.quiet n (h.quiet n hq)

theorem constant_emit (s : Site) (e : Event) : Constant s (s.emit e) :=
  ⟨rfl, rfl, rfl, fun _ => rfl, fun _ h => ⟨h.undisturbed, h.closed⟩⟩

theorem constant_closed (s : Site) (n : Nat) : Constant s (s.setBreaker n (.closed 0)) where
  clock := rfl
  running := rfl
  timer := rfl
  settings i := settings_setBreaker s n i _
  quiet i hq := by
    refine ⟨hq.undisturbed, ?_⟩
    obtain ⟨failures, hclosed⟩ := hq.closed
    unfold breaker node? setBreaker at *
    rw [List.getElem?_modify]
    cases hnode : s.nodes[i]? with
    | none => exact ⟨0, rfl⟩
    | some node =>
      rw [hnode] at hclosed
      by_cases hi : n = i
      · exact ⟨0, by simp [hi]⟩
      · exact ⟨failures, by simpa [hi] using hclosed⟩

/-- A call about a key is carried out: it is answered from the state of the key, and all that changes is this
state. -/
structure CarriedOut (s : Site) (key : String) (op : LeaseOp) (answer : Except Stop op.Answer) (t : Site) :
    Prop where
  answer : answer = ((s.keyState key).run key s.now op).1
  changed : t.keyState key = ((s.keyState key).run key s.now op).2
  others : ∀ other, other ≠ key → t.keyState other = s.keyState other
  leases : ∃ m, t.leases = .memory m
  repository : t.repository = s.repository
  constant : Constant s t

theorem lease_carriedOut (hs : s.Plain) (hq : s.Quiet n) (key : String) (hop : op.inStep) :
    CarriedOut s key op (s.lease key op).1 (s.lease key op).2 := by
  obtain ⟨m, hm⟩ := hs.leases
  have hlease : s.lease key op = ((m.run s.now key op).1,
      { s with leases := .memory (m.run s.now key op).2, calls := (s.note op.callName).2.calls }) := by
    unfold lease disturbed
    rw [(hq.lease hop).note]
    dsimp only
    exact leaseRun_memory (s := { s with calls := (s.note op.callName).2.calls }) hm key op
  have hstate (other : String) : s.keyState other = m.state other := by
    unfold keyState
    rw [hm]
  rw [hlease]
  refine ⟨?_, ?_, fun other hother => ?_, ⟨_, rfl⟩, rfl, rfl, rfl, rfl, fun _ => rfl, fun _ hq => ?_⟩
  · rw [hstate]
    rfl
  · rw [hstate]
    exact m.run_state s.now key op
  · rw [hstate]
    exact m.run_state_other s.now op hother
  · exact ⟨hq.undisturbed, hq.closed⟩

theorem CarriedOut.closed {answer : Except Stop op.Answer} (h : CarriedOut s key op answer t) (n : Nat) :
    CarriedOut s key op answer (t.setBreaker n (.closed 0)) :=
  ⟨h.answer, h.changed, h.others, h.leases, h.repository, h.constant.trans (constant_closed t n)⟩

theorem unguarded_carriedOut (hs : s.Plain) (hq : s.Quiet n) (key : String) (hop : op.inStep) :
    CarriedOut s key op (s.unguarded n key op).1 (s.unguarded n key op).2 := by
  have hlease := lease_carriedOut hs hq key hop
  unfold unguarded
  generalize s.lease key op = done at hlease
  obtain ⟨answer, t⟩ := done
  cases answer with
  | ok a => exact hlease.closed n
  | error e =>
    -- the breaker does not count what the time line has no room for
    obtain rfl := KeyState.run_stop hlease.answer.symm
    dsimp only [observed, Breaker.observe]
    rw [setBreaker_self]
    exact hlease

theorem guarded_carriedOut (hs : s.Plain) (hq : s.Quiet n) (key : String) (hop : op.inStep) :
    CarriedOut s key op (s.guarded n key op).1 (s.guarded n key op).2 := by
  obtain ⟨failures, hclosed⟩ := hq.closed
  have hself := setBreaker_self s n
  rw [hclosed] at hself
  unfold guarded
  rw [hclosed]
  dsimp only [Breaker.pass]
  rw [hself]
  exact unguarded_carriedOut hs hq key hop

/-- A call to the repository is carried out on the stored sessions, and changes nothing else. -/
structure Served (s : Site) (m : MemoryRepository) (op : RepositoryOp) (answer : Except Stop op.Answer)
    (t : Site) : Prop where
  answer : answer = (m.run op).1.mapError .error
  repository : t.repository = .memory (m.run op).2
  leases : t.leases = s.leases
  constant : Constant s t

theorem repo_carried {m : MemoryRepository} (hm : s.repository = .memory m) (op : RepositoryOp)
    (h : s.Undisturbed op.callName) : Served s m op (s.repo op).1 (s.repo op).2 := by
  have hrepo : s.repo op = ((m.run op).1.mapError .error,
      { s with repository := .memory (m.run op).2, calls := (s.note op.callName).2.calls }) := by
    unfold repo disturbed repositoryRun
    rw [h.note]
    simp only [hm]
  rw [hrepo]
  exact ⟨rfl, rfl, rfl, rfl, rfl, rfl, fun _ => rfl, fun _ hq => ⟨hq.undisturbed, hq.closed⟩⟩

/-- All that the stores hold of other sessions, and of their keys, is as it was. Time may have passed on the
timer. -/
structure Beside (id : SessionId) (s t : Site) : Prop where
  plain : t.Plain
  clock : t.clock = s.clock
  timer : s.timer ≤ t.timer
  settings : ∀ n, t.settings n = s.settings n
  quiet : ∀ n, s.Quiet n → t.Quiet n
  keys : ∀ key, key ≠ id.text → t.keyState key = s.keyState key
  records : ∀ other, other ≠ id → t.record? other = s.record? other

variable {id : SessionId}

theorem Beside.trans (h : Beside id s t) (h' : Beside id t u) : Beside id s u where
  plain := h'.plain
  clock := h'.clock.trans h.clock
  timer := Nat.le_trans h.timer h'.timer
  settings n := (h'.settings n).trans (h.settings n)
  quiet n hq := h'.quiet n (h.quiet n hq)
  keys key hkey := (h'.keys key hkey).trans (h.keys key hkey)
  records other hother := (h'.records other hother).trans (h.records other hother)

theorem beside_constant (hs : t.Plain) (h : Constant s t)
    (hkeys : ∀ key, key ≠ id.text → t.keyState key = s.keyState key)
    (hrecords : ∀ other, other ≠ id → t.record? other = s.record? other) : Beside id s t :=
  ⟨hs, h.clock, Nat.le_of_eq h.timer.symm, h.settings, h.quiet, hkeys, hrecords⟩

theorem Plain.beside_refl (hs : s.Plain) (id : SessionId) : Beside id s s :=
  beside_constant hs (.refl s) (fun _ _ => rfl) fun _ _ => rfl

theorem Beside.emit (h : Beside id s t) (e : Event) : Beside id s (t.emit e) :=
  h.trans (beside_constant (h.plain.emit e) (constant_emit t e) (fun _ _ => rfl) fun _ _ => rfl)

theorem Beside.emitted (h : Beside id s t) (he : Emitted t u) : Beside id s u := by
  rcases he with rfl | ⟨e, rfl⟩
  · exact h
  · exact h.emit e

theorem Beside.waited (h : Beside id s t) (due : Option Nat) : Beside id s (t.waited due) := by
  cases due with
  | none => exact h
  | some due =>
    exact ⟨h.plain.waited (some due), h.clock, Nat.le_trans h.timer (Nat.le_max_left ..), h.settings,
      fun n hq => (h.quiet n hq).waited (some due), h.keys, h.records⟩

theorem CarriedOut.record? {answer : Except Stop op.Answer} (h : CarriedOut s key op answer t) (hs : s.Plain)
    (id : SessionId) : t.record? id = s.record? id := by
  obtain ⟨m, hm, -⟩ := hs.repository
  unfold Site.record?
  rw [h.repository, hm]

theorem CarriedOut.beside {answer : Except Stop op.Answer} (h : CarriedOut s id.text op answer t)
    (hs : s.Plain) : Beside id s t := by
  obtain ⟨m, hm, hkeyed⟩ := hs.repository
  have hplain : t.Plain :=
    ⟨h.leases, ⟨m, h.repository.trans hm, hkeyed⟩, h.constant.running.trans hs.still⟩
  exact beside_constant hplain h.constant h.others fun other _ => h.record? hs other

section Served

variable {m : MemoryRepository} {o : RepositoryOp} {answer : Except Stop o.Answer} (h : Served s m o answer t)
  (hs : s.Plain)
include h hs

theorem Served.plain (hkeyed : m.Keyed) : t.Plain :=
  ⟨h.leases ▸ hs.leases, ⟨_, h.repository, hkeyed.run o⟩, h.constant.running.trans hs.still⟩

theorem Served.keyState (key : String) : t.keyState key = s.keyState key := by
  obtain ⟨leases, hleases⟩ := hs.leases
  unfold Site.keyState
  rw [h.leases, hleases]

/-- A call that leaves the records of other sessions alone. -/
theorem Served.beside (hm : s.repository = .memory m) (hkeyed : m.Keyed)
    (hrecords : ∀ other, other ≠ id → (m.run o).2.find? other = m.find? other) : Beside id s t := by
  refine beside_constant (h.plain hs hkeyed) h.constant (fun key _ => h.keyState hs key) fun other hother => ?_
  unfold Site.record?
  rw [h.repository, hm]
  exact hrecords other hother

end Served

theorem load_beside (hs : s.Plain) (hq : s.Quiet n) (id asked : SessionId) :
    Beside id s (s.repo (.load asked)).2 := by
  obtain ⟨m, hm, hkeyed⟩ := hs.repository
  exact (repo_carried hm _ (hq.load asked)).beside hs hm hkeyed fun _ _ => rfl

/-- A save reaches the record of its session only. -/
theorem save_beside (hs : s.Plain) (hq : s.Quiet n) (x : Session) (expected : Nat) (fence : Fence) :
    Beside x.id s (s.repo (.save x expected fence)).2 := by
  obtain ⟨m, hm, hkeyed⟩ := hs.repository
  refine (repo_carried hm _ (hq.save x expected fence)).beside hs hm hkeyed fun other hother => ?_
  change (m.save x expected fence).2.find? other = _
  rcases m.save_cases x expected fence with ⟨e, hc⟩ | ⟨-, -, -, -, hc⟩ <;> rw [hc]
  exact m.find?_put_other _ hother

end Site

open Site

namespace AcquirePhase

variable {s : Site} {r : StepRequest} {p : AcquirePhase}

/-- A caller reaches the key of its session only. -/
theorem step_beside (hs : s.Plain) (hq : s.Quiet r.node) (p : AcquirePhase) :
    Beside r.id s (p.step (StepPhase.acquireRequest r s) s).2.1 := by
  have hguarded (op : LeaseOp) (hop : op.inStep) :
      Beside r.id s (s.guarded r.node r.id.text op).2 :=
    (guarded_carriedOut hs hq r.id.text hop).beside hs
  have hlease (op : LeaseOp) (hop : op.inStep) : Beside r.id s (s.lease r.id.text op).2 :=
    (lease_carriedOut hs hq r.id.text hop).beside hs
  rw [step_site]
  cases p with
  | starting => exact hs.beside_refl r.id
  | waiting w due => exact hs.beside_refl r.id
  | finished result => exact hs.beside_refl r.id
  | joining d => exact hguarded _ rfl
  | checking w => exact hguarded _ rfl
  | granting w => exact hguarded _ rfl
  | rejoining w => exact hguarded _ rfl
  | taking w lease => exact hlease _ rfl
  | leaving w => exact hlease _ rfl

/-- A lease bears the key that it was asked for. -/
theorem step_resource (hs : s.Plain) (hq : s.Quiet r.node)
    (h : ∀ l, p.granted? = some l → l.resource = r.id.text) (l : Lease)
    (hl : (p.step (StepPhase.acquireRequest r s) s).1.granted? = some l) : l.resource = r.id.text := by
  rcases step_granted _ s hl with hgranted | ⟨w, -, hanswer⟩
  · exact h l hgranted
  · have hdone := (guarded_carriedOut hs hq r.id.text rfl).answer.symm.trans hanswer
    exact (KeyState.grant_some hdone).1

end AcquirePhase

namespace StepPhase

variable {r : StepRequest} {s t u : Site} {p q : StepPhase} {o : Except Stop Outcome}

/-- All that a step carries along is of its own session. -/
def About (r : StepRequest) : StepPhase → Prop
  | .acquiring p => ∀ l, p.granted? = some l → l.resource = r.id.text
  | .loading lease | .releasing lease _ => lease.resource = r.id.text
  | .orphaning lease o | .savingOrphan lease o => lease.resource = r.id.text ∧ o.session.id = r.id
  | .renewing lease x _ | .confirming lease x _ | .saving lease x _ => lease.resource = r.id.text ∧ x.id = r.id
  | .finished _ => True

theorem about_initial (r : StepRequest) : initial.About r := fun _ h => by cases h

theorem failWith_about {lease : Lease} (h : lease.resource = r.id.text) (s : Site) (e : Stop) :
    (failWith lease s e).1.About r := by
  cases e with
  | overflow => trivial
  | error e => exact h

theorem proceed_about {lease : Lease} {x : Session} (h : lease.resource = r.id.text) (hx : x.id = r.id) :
    (proceed r lease x).About r := by
  unfold proceed
  split
  · exact h
  · exact ⟨h, hx⟩

theorem acquiring_about (hs : s.Plain) (hq : s.Quiet r.node) {p : AcquirePhase}
    (h : (acquiring p).About r) : ((acquiring p).step r s).1.About r := by
  have hresource := AcquirePhase.step_resource hs hq h
  simp only [step]
  generalize p.step (acquireRequest r s) s = done at hresource
  obtain ⟨p', t, fx⟩ := done
  cases p' with
  | finished result =>
    rcases result with (e | _) | lease
    · dsimp only
      rw [report_phase]
      trivial
    · trivial
    · exact hresource lease rfl
  | _ => exact hresource

/-- A session is loaded from its own record. -/
theorem loading_about (hs : s.Plain) (hq : s.Quiet r.node) {lease : Lease} (h : lease.resource = r.id.text) :
    ((loading lease).step r s).1.About r := by
  obtain ⟨m, hm, hkeyed⟩ := hs.repository
  have hserved := repo_carried hm (.load r.id) (hq.load r.id)
  simp only [step]
  generalize s.repo (.load r.id) = done at hserved
  obtain ⟨answer, t⟩ := done
  have hanswer : answer = .ok ((m.find? r.id).map (·.session)) := hserved.answer
  rw [hanswer]
  cases hfound : m.find? r.id with
  | none => exact h
  | some old =>
    have hid : old.session.id = r.id := hkeyed r.id old hfound
    dsimp only [Option.map_some]
    split
    · exact h
    · rename_i o ho
      exact ⟨h, (Orphaning.grows_of? ho).id.trans hid⟩
    · exact proceed_about h hid

theorem renewing_about {lease : Lease} {x : Session} (c : Change) (h : lease.resource = r.id.text)
    (hx : x.id = r.id) (s : Site) : ((renewing lease x c).step r s).1.About r := by
  simp only [step]
  split
  · exact failWith_about h ..
  · split
    · exact h
    · rename_i happly
      exact ⟨h, (Change.grows_apply happly).id.trans hx⟩

theorem step_about (hs : s.Plain) (hq : s.Quiet r.node) (h : p.About r) : (p.step r s).1.About r := by
  cases p with
  | acquiring p => exact acquiring_about hs hq h
  | loading lease => exact loading_about hs hq h
  | renewing lease x c => exact renewing_about c h.1 h.2 s
  | orphaning lease o =>
    simp only [step]
    split
    · exact failWith_about h.1 ..
    · exact h
  | savingOrphan lease o =>
    simp only [step]
    split
    · exact failWith_about h.1 ..
    · exact proceed_about h.1 h.2
  | confirming lease x d =>
    simp only [step]
    split
    · exact failWith_about h.1 ..
    · exact h
  | saving lease x d =>
    simp only [step]
    split
    · exact failWith_about h.1 ..
    · exact h.1
  | releasing lease result =>
    have hover := releasing_over r s lease result
    generalize ((releasing lease result).step r s).1 = q at hover
    cases q with
    | finished o => trivial
    | _ => cases hover
  | finished o => trivial

/-- A step reaches the key and the record of its session only. -/
theorem step_beside (hs : s.Plain) (hq : s.Quiet r.node) (h : p.About r) : Beside r.id s (p.step r s).2.1 := by
  have hrenew (lease : Lease) (hl : lease.resource = r.id.text) : Beside r.id s (renewLease r s lease).2 := by
    unfold renewLease
    rw [renew_site, hl]
    exact (guarded_carriedOut hs hq r.id.text rfl).beside hs
  have hsave (x : Session) (hx : x.id = r.id) (expected : Nat) (fence : Fence) :
      Beside r.id s (s.repo (.save x expected fence)).2 := by
    rw [← hx]
    exact save_beside hs hq x expected fence
  cases p with
  | acquiring p => exact (AcquirePhase.step_beside hs hq p).emitted (acquiring_site r s p)
  | loading lease =>
    rw [loading_site]
    exact load_beside hs hq r.id r.id
  | orphaning lease o =>
    rw [orphaning_site]
    exact hrenew lease h.1
  | savingOrphan lease o => exact (hsave _ h.2 _ _).emitted (savingOrphan_site r s lease o)
  | renewing lease x c =>
    rw [renewing_site]
    exact hrenew lease h.1
  | confirming lease x d =>
    rw [confirming_site]
    exact hrenew lease h.1
  | saving lease x d =>
    rw [saving_site]
    exact hsave x h.2 _ _
  | releasing lease result =>
    refine Beside.emitted ?_ (releasing_site r s lease result)
    rw [release_site, show lease.resource = r.id.text from h]
    exact (unguarded_carriedOut hs hq r.id.text rfl).beside hs
  | finished o => exact hs.beside_refl r.id

/-- However long it takes, a step leaves the other sessions and their keys alone. -/
theorem Runs.beside (hrun : Runs r p s o u) (hs : s.Plain) (hq : s.Quiet r.node) (h : p.About r) :
    Beside r.id s u := by
  induction hrun with
  | @ends p s t o fx hstep hfx =>
    have hbeside := step_beside hs hq h
    rw [hstep] at hbeside
    exact hbeside
  | @drops p s t o ticket hstep =>
    have hbeside := step_beside hs hq h
    rw [hstep] at hbeside
    have hquiet := hbeside.quiet r.node hq
    exact hbeside.trans ((lease_carriedOut hbeside.plain hquiet r.id.text rfl).beside hbeside.plain)
  | @goes p q s t u o hstep hon rest ih =>
    have hbeside := step_beside hs hq h
    have habout := step_about hs hq h
    rw [hstep] at hbeside habout
    have hwaited := hbeside.waited q.parkedUntil?
    exact hwaited.trans (ih hwaited.plain (hwaited.quiet r.node hq) habout)

end StepPhase

end FencedSessions
