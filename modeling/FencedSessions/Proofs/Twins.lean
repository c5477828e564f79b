import FencedSessions.Proofs.Locality

/-! One step at two sites that agree on the key and the record of its session and on the reading of the clock,
while the timer of one is ahead: it does the same at both, and what it does keeps them in agreement. -/

namespace FencedSessions

open Site

theorem MemoryRepository.save_congr {m m' : MemoryRepository} {x : Session} (h : m'.find? x.id = m.find? x.id)
    (expected : Nat) (fence : Fence) : (m'.save x expected fence).1 = (m.save x expected fence).1 ∧
      (m'.save x expected fence).2.find? x.id = (m.save x expected fence).2.find? x.id := by
  unfold save
  rw [h]
  cases hold : m.find? x.id with
  | none => exact ⟨rfl, h⟩
  | some old =>
    dsimp only
    split
    · exact ⟨rfl, h⟩
    · exact ⟨rfl, by rw [find?_put_self, find?_put_self]⟩

namespace Site

variable {s t s' t' : Site} {r : StepRequest} {late : Nat} {op : LeaseOp}

/-- Two sites in which a step finds the same, but for the timer, which is ahead in the second. -/
structure Twins (r : StepRequest) (late : Nat) (s t : Site) : Prop where
  plain : s.Plain ∧ t.Plain
  quiet : s.Quiet r.node ∧ t.Quiet r.node
  key : t.keyState r.id.text = s.keyState r.id.text
  record : t.record? r.id = s.record? r.id
  clock : t.clock = s.clock
  timer : t.timer = s.timer + late
  settings : t.settings r.node = s.settings r.node

namespace Twins

variable (h : Twins r late s t)
include h

theorem now : t.now = s.now := by rw [h.plain.1.now, h.plain.2.now, h.clock]

theorem constant (hs : Constant s s') (ht : Constant t t') (hplain : s'.Plain ∧ t'.Plain)
    (hkey : t'.keyState r.id.text = s'.keyState r.id.text) (hrecord : t'.record? r.id = s'.record? r.id) :
    Twins r late s' t' where
  plain := hplain
  quiet := ⟨hs.quiet r.node h.quiet.1, ht.quiet r.node h.quiet.2⟩
  key := hkey
  record := hrecord
  clock := by rw [hs.clock, ht.clock, h.clock]
  timer := by rw [hs.timer, ht.timer, h.timer]
  settings := by rw [hs.settings, ht.settings, h.settings]

theorem emit (e : Event) : Twins r late (s.emit e) (t.emit e) :=
  h.constant (constant_emit s e) (constant_emit t e)
    ⟨h.plain.1.emit e, h.plain.2.emit e⟩ h.key h.record

theorem waited (due : Option Nat) : Twins r late (s.waited due) (t.waited (due.map (· + late))) := by
  have hplain := And.intro (h.plain.1.waited due) (h.plain.2.waited (due.map (· + late)))
  have hquiet := And.intro (h.quiet.1.waited due) (h.quiet.2.waited (due.map (· + late)))
  cases due with
  | none => exact h
  | some due =>
    refine ⟨hplain, hquiet, h.key, h.record, h.clock, ?_, h.settings⟩
    change max t.timer (due + late) = max s.timer due + late
    rw [h.timer, Nat.add_max_add_right]

/-- A call about the key of the session has the same answer, and does the same to the key. -/
theorem carriedOut {x y : Except Stop op.Answer × Site} (hs : CarriedOut s r.id.text op x.1 x.2)
    (ht : CarriedOut t r.id.text op y.1 y.2) : ∃ a s' t', x = (a, s') ∧ y = (a, t') ∧ Twins r late s' t' := by
  have hanswer : y.1 = x.1 := by rw [hs.answer, ht.answer, h.key, h.now]
  have hkey : y.2.keyState r.id.text = x.2.keyState r.id.text := by rw [hs.changed, ht.changed, h.key, h.now]
  have hrecord : y.2.record? r.id = x.2.record? r.id := by
    rw [hs.record? h.plain.1, ht.record? h.plain.2, h.record]
  have hplain := And.intro (hs.beside h.plain.1).plain (ht.beside h.plain.2).plain
  exact ⟨x.1, x.2, y.2, rfl, Prod.ext hanswer rfl, h.constant hs.constant ht.constant hplain hkey hrecord⟩

theorem lease (op : LeaseOp) (hop : op.inStep) : ∃ a s' t',
    s.lease r.id.text op = (a, s') ∧ t.lease r.id.text op = (a, t') ∧ Twins r late s' t' :=
  h.carriedOut (lease_carriedOut h.plain.1 h.quiet.1 r.id.text hop)
    (lease_carriedOut h.plain.2 h.quiet.2 r.id.text hop)

theorem unguarded (op : LeaseOp) (hop : op.inStep) : ∃ a s' t',
    s.unguarded r.node r.id.text op = (a, s') ∧ t.unguarded r.node r.id.text op = (a, t') ∧
      Twins r late s' t' :=
  h.carriedOut (unguarded_carriedOut h.plain.1 h.quiet.1 r.id.text hop)
    (unguarded_carriedOut h.plain.2 h.quiet.2 r.id.text hop)

theorem guarded (op : LeaseOp) (hop : op.inStep) : ∃ a s' t',
    s.guarded r.node r.id.text op = (a, s') ∧ t.guarded r.node r.id.text op = (a, t') ∧ Twins r late s' t' :=
  h.carriedOut (guarded_carriedOut h.plain.1 h.quiet.1 r.id.text hop)
    (guarded_carriedOut h.plain.2 h.quiet.2 r.id.text hop)

/-- Whatever memory holds of the session, two calls to the repository that are answered alike and leave the same
record leave twins. -/
theorem served {m m' : MemoryRepository} {o : RepositoryOp} {x y : Except Stop o.Answer × Site}
    (hs : Served s m o x.1 x.2) (ht : Served t m' o y.1 y.2) (hkeyed : m.Keyed ∧ m'.Keyed)
    (hanswer : (m'.run o).1 = (m.run o).1) (hfind : (m'.run o).2.find? r.id = (m.run o).2.find? r.id) :
    ∃ a s' t', x = (a, s') ∧ y = (a, t') ∧ Twins r late s' t' := by
  have hplain := And.intro (hs.plain h.plain.1 hkeyed.1) (ht.plain h.plain.2 hkeyed.2)
  refine ⟨x.1, x.2, y.2, rfl, Prod.ext ?_ rfl, h.constant hs.constant ht.constant hplain ?_ ?_⟩
  · rw [hs.answer, ht.answer, hanswer]
  · rw [hs.keyState h.plain.1, ht.keyState h.plain.2, h.key]
  · unfold record?
    rw [hs.repository, ht.repository]
    exact hfind

/-- Both repositories, and that they hold the same of the session. -/
theorem repositories : ∃ m m' : MemoryRepository, s.repository = .memory m ∧ t.repository = .memory m' ∧
    (m.Keyed ∧ m'.Keyed) ∧ m'.find? r.id = m.find? r.id := by
  obtain ⟨m, hm, hkeyed⟩ := h.plain.1.repository
  obtain ⟨m', hm', hkeyed'⟩ := h.plain.2.repository
  have hrecord := h.record
  unfold record? at hrecord
  rw [hm, hm'] at hrecord
  exact ⟨m, m', hm, hm', ⟨hkeyed, hkeyed'⟩, hrecord⟩

theorem load : ∃ a s' t', s.repo (.load r.id) = (a, s') ∧ t.repo (.load r.id) = (a, t') ∧
    Twins r late s' t' := by
  obtain ⟨m, m', hm, hm', hkeyed, hfind⟩ := h.repositories
  have hs := repo_carried hm _ (h.quiet.1.load r.id)
  have ht := repo_carried hm' _ (h.quiet.2.load r.id)
  exact h.served hs ht hkeyed (by simp only [MemoryRepository.run, hfind]) hfind

theorem save {x : Session} (hx : x.id = r.id) (expected : Nat) (fence : Fence) : ∃ a s' t',
    s.repo (.save x expected fence) = (a, s') ∧ t.repo (.save x expected fence) = (a, t') ∧
      Twins r late s' t' := by
  obtain ⟨m, m', hm, hm', hkeyed, hfind⟩ := h.repositories
  have hs := repo_carried hm _ (h.quiet.1.save x expected fence)
  have ht := repo_carried hm' _ (h.quiet.2.save x expected fence)
  rw [← hx] at hfind
  obtain ⟨hanswer, hfound⟩ := MemoryRepository.save_congr hfind expected fence
  exact h.served hs ht hkeyed hanswer (hx ▸ hfound)

end Twins

/-- What a step does at two sites is the same, but for the times on the timer that it carries along. -/
structure Mirrored {P : Type} (r : StepRequest) (late : Nat) (delay : P → P) (x y : P × Site × List Effect) :
    Prop where
  phase : y.1 = delay x.1
  site : Twins r late x.2.1 y.2.1
  effects : y.2.2 = x.2.2

end Site

/-- The same deadlines for a caller that starts so much later on the timer. -/
def Deadlines.delay (late : Nat) (d : Deadlines) : Deadlines :=
  { d with started := d.started + late, giveUp := d.giveUp + late * AcquirePhase.nanosPerMilli }

def Waiter.delay (late : Nat) (w : Waiter) : Waiter := { w with deadlines := w.deadlines.delay late }

namespace AcquirePhase

def delay (late : Nat) : AcquirePhase → AcquirePhase
  | .starting => .starting
  | .joining d => .joining (d.delay late)
  | .checking w => .checking (w.delay late)
  | .granting w => .granting (w.delay late)
  | .rejoining w => .rejoining (w.delay late)
  | .waiting w due => .waiting (w.delay late) (due + late)
  | .taking w lease => .taking (w.delay late) lease
  | .leaving w => .leaving (w.delay late)
  | .finished result => .finished result

variable {s t : Site} {r : StepRequest} {late : Nat} {q : AcquireRequest}

theorem delay_result (p : AcquirePhase) : (p.delay late).result? = p.result? := by cases p <;> rfl

theorem delay_parked (p : AcquirePhase) : (p.delay late).parkedUntil? = p.parkedUntil?.map (· + late) := by
  cases p with
  | waiting w due =>
    simp only [delay, parkedUntil?, Waiter.delay]
    split <;> rfl
  | _ => rfl

section Twins

variable (h : Twins r late s t) (hnode : q.node = r.node)
include h hnode

theorem deadlines_twins : deadlines? t q = (deadlines? s q).map (·.delay late) := by
  unfold deadlines?
  rw [h.now, hnode, h.settings, h.timer]
  cases s.now.after? q.timeout with
  | none => rfl
  | some clockGiveUp =>
    dsimp only [Option.bind_eq_bind, Option.bind_some]
    cases clockGiveUp.after? (s.settings r.node).lock.pollInterval with
    | none => rfl
    | some ticketDeadline =>
      simp [Deadlines.delay, Nat.add_mul, Nat.add_right_comm]

theorem settle_twins (w : Waiter) : settle t q (w.delay late) = (settle s q w).delay late := by
  have hout : timedOut t (w.delay late).deadlines = timedOut s w.deadlines := by
    simp [timedOut, Waiter.delay, Deadlines.delay, h.timer, h.now, Nat.add_mul]
  have hdue : dueAt t q (w.delay late).deadlines = dueAt s q w.deadlines + late := by
    simp only [dueAt, Waiter.delay, Deadlines.delay, h.timer, hnode, h.settings, Nat.add_mul,
      Nat.add_sub_add_right]
    omega
  unfold settle
  rw [hout, hdue]
  split <;> rfl

omit hnode in
theorem timeoutError_twins (q : AcquireRequest) (d : Deadlines) :
    timeoutError t q (d.delay late) = timeoutError s q d := by
  simp [timeoutError, Deadlines.delay, h.timer, Nat.add_sub_add_right]

omit hnode in
theorem acquireRequest_twins : StepPhase.acquireRequest r t = StepPhase.acquireRequest r s := by
  unfold StepPhase.acquireRequest
  rw [h.settings]

variable (hkey : q.key = r.id.text)
include hkey

theorem joining_twins (d : Deadlines) : Mirrored r late (delay late) ((joining d).step q s)
    (((joining d).delay late).step q t) := by
  obtain ⟨a, s', t', hs, ht, h'⟩ := h.guarded (.enqueue q.holder d.ticketDeadline) rfl
  simp only [step, delay, Deadlines.delay, hnode, hkey, hs, ht]
  cases a <;> exact ⟨rfl, h', rfl⟩

theorem checking_twins (w : Waiter) : Mirrored r late (delay late) ((checking w).step q s)
    (((checking w).delay late).step q t) := by
  obtain ⟨a, s', t', hs, ht, h'⟩ := h.guarded (.position w.ticket.number) rfl
  have hsettle := settle_twins h' hnode w
  simp only [step, delay, Waiter.delay, hnode, hkey, hs, ht] at hsettle ⊢
  rcases a with e | _ | _ | place
  · exact ⟨rfl, h', rfl⟩
  · simp only [h'.now, Deadlines.delay]
    split
    · exact ⟨hsettle, h', rfl⟩
    · exact ⟨rfl, h', rfl⟩
  · exact ⟨rfl, h', rfl⟩
  · exact ⟨hsettle, h', rfl⟩

theorem granting_twins (w : Waiter) : Mirrored r late (delay late) ((granting w).step q s)
    (((granting w).delay late).step q t) := by
  obtain ⟨a, s', t', hs, ht, h'⟩ := h.guarded (.grant none q.holder w.ticket.position q.ttl) rfl
  have hsettle := settle_twins h' hnode w
  simp only [step, delay, Waiter.delay, hnode, hkey, hs, ht] at hsettle ⊢
  rcases a with e | _ | lease
  · exact ⟨rfl, h', rfl⟩
  · exact ⟨hsettle, h', rfl⟩
  · exact ⟨rfl, h', rfl⟩

theorem rejoining_twins (w : Waiter) : Mirrored r late (delay late) ((rejoining w).step q s)
    (((rejoining w).delay late).step q t) := by
  obtain ⟨a, s', t', hs, ht, h'⟩ := h.guarded (.enqueue q.holder w.deadlines.ticketDeadline) rfl
  have hsettle (ticket : Ticket) := settle_twins h' hnode { w with ticket }
  simp only [step, delay, Waiter.delay, Deadlines.delay, hnode, hkey, hs, ht] at hsettle ⊢
  cases a with
  | error e => exact ⟨rfl, h', rfl⟩
  | ok ticket => exact ⟨hsettle ticket, h', rfl⟩

omit hnode in
theorem taking_twins (w : Waiter) (lease : Lease) : Mirrored r late (delay late) ((taking w lease).step q s)
    (((taking w lease).delay late).step q t) := by
  obtain ⟨a, s', t', hs, ht, h'⟩ := h.lease (.remove w.ticket.number) rfl
  simp only [step, delay, Waiter.delay, hkey, hs, ht]
  exact ⟨rfl, h', rfl⟩

omit hnode in
theorem leaving_twins (w : Waiter) : Mirrored r late (delay late) ((leaving w).step q s)
    (((leaving w).delay late).step q t) := by
  obtain ⟨a, s', t', hs, ht, h'⟩ := h.lease (.remove w.ticket.number) rfl
  simp only [step, delay, Waiter.delay, hkey, hs, ht, timeoutError_twins h']
  exact ⟨rfl, h', rfl⟩

end Twins

/-- A caller does the same at both sites. -/
theorem step_twins (h : Twins r late s t) (p : AcquirePhase) :
    Mirrored r late (delay late) (p.step (StepPhase.acquireRequest r s) s)
      ((p.delay late).step (StepPhase.acquireRequest r t) t) := by
  rw [acquireRequest_twins h]
  generalize hq : StepPhase.acquireRequest r s = q
  have hnode : q.node = r.node := by rw [← hq]; rfl
  have hkey : q.key = r.id.text := by rw [← hq]; rfl
  clear hq
  cases p with
  | starting =>
    simp only [step, delay]
    rw [deadlines_twins h hnode]
    cases deadlines? s q <;> exact ⟨rfl, h, rfl⟩
  | joining d => exact joining_twins h hnode hkey d
  | checking w => exact checking_twins h hnode hkey w
  | granting w => exact granting_twins h hnode hkey w
  | rejoining w => exact rejoining_twins h hnode hkey w
  | waiting w due => exact ⟨rfl, h, rfl⟩
  | taking w lease => exact taking_twins h hkey w lease
  | leaving w => exact leaving_twins h hkey w
  | finished result => exact ⟨rfl, h, rfl⟩

end AcquirePhase

namespace StepPhase

/-- The same phase of a step that starts so much later on the timer. -/
def delay (late : Nat) : StepPhase → StepPhase
  | .acquiring p => .acquiring (p.delay late)
  | p => p

variable {s t u : Site} {r : StepRequest} {late : Nat} {p : StepPhase} {o : Except Stop Outcome}

theorem delay_result (p : StepPhase) : (p.delay late).result? = p.result? := by cases p <;> rfl

theorem delay_parked (p : StepPhase) : (p.delay late).parkedUntil? = p.parkedUntil?.map (· + late) := by
  cases p with
  | acquiring p => exact p.delay_parked
  | _ => rfl

theorem delay_proceed (r : StepRequest) (lease : Lease) (x : Session) :
    (proceed r lease x).delay late = proceed r lease x := by
  unfold proceed
  split <;> rfl

section Twins

variable (h : Twins r late s t)
include h

theorem report_twins (o : Outcome) (detail : Option Detail) :
    Mirrored r late (delay late) (report r s o detail) (report r t o detail) := by
  unfold report
  rw [h.now]
  split
  · exact ⟨rfl, h, rfl⟩
  · exact ⟨rfl, h.emit _, rfl⟩

theorem failWith_twins (lease : Lease) (e : Stop) :
    Mirrored r late (delay late) (failWith lease s e) (failWith lease t e) := by
  cases e <;> exact ⟨rfl, h, rfl⟩

theorem renewLease_twins {lease : Lease} (hl : lease.resource = r.id.text) : ∃ a s' t',
    renewLease r s lease = (a, s') ∧ renewLease r t lease = (a, t') ∧ Twins r late s' t' := by
  obtain ⟨a, s', t', hs, ht, h'⟩ :=
    h.guarded (.extend lease.fence (s.settings r.node).lock.leaseDuration) rfl
  unfold renewLease renew
  rw [hl, h.settings, hs, ht]
  rcases a with e | _ | renewed <;> exact ⟨_, s', t', rfl, rfl, h'⟩

theorem release_twins {key : String} (hkey : key = r.id.text) (fence : Fence) : ∃ a s' t' fx,
    s.release r.node key fence = (a, s', fx) ∧ t.release r.node key fence = (a, t', fx) ∧
      Twins r late s' t' := by
  obtain ⟨a, s', t', hs, ht, h'⟩ := h.unguarded (.delete fence) rfl
  unfold release
  rw [hkey, hs, ht]
  cases a <;> exact ⟨_, s', t', _, rfl, rfl, h'⟩

theorem acquiring_twins (p : AcquirePhase) :
    Mirrored r late (delay late) ((acquiring p).step r s) (((acquiring p).delay late).step r t) := by
  obtain ⟨hphase, hsite, heffects⟩ := AcquirePhase.step_twins h p
  simp only [step, delay]
  generalize p.step (acquireRequest r s) s = x at hphase hsite heffects
  generalize (p.delay late).step (acquireRequest r t) t = y at hphase hsite heffects
  obtain ⟨p', s', fx⟩ := x
  obtain ⟨q', t', fx'⟩ := y
  obtain rfl : q' = p'.delay late := hphase
  obtain rfl : fx' = fx := heffects
  cases p' with
  | finished result =>
    rcases result with (e | _) | lease
    · obtain ⟨hphase, hsite, heffects⟩ := report_twins hsite (.ofError e) none
      exact ⟨hphase, hsite, congrArg (fx' ++ ·) heffects⟩
    · exact ⟨rfl, hsite, rfl⟩
    · exact ⟨rfl, hsite, rfl⟩
  | _ => exact ⟨rfl, hsite, rfl⟩

theorem loading_twins (lease : Lease) :
    Mirrored r late (delay late) ((loading lease).step r s) ((loading lease).step r t) := by
  obtain ⟨a, s', t', hs, ht, h'⟩ := h.load
  simp only [step, hs, ht]
  rcases a with e | _ | x
  · exact failWith_twins h' lease e
  · exact ⟨rfl, h', rfl⟩
  · simp only [h'.now, h'.settings]
    split
    · exact ⟨rfl, h', rfl⟩
    · exact ⟨rfl, h', rfl⟩
    · exact ⟨(delay_proceed ..).symm, h', rfl⟩

theorem renewing_twins {lease : Lease} (hl : lease.resource = r.id.text) (x : Session) (c : Change) :
    Mirrored r late (delay late) ((renewing lease x c).step r s) ((renewing lease x c).step r t) := by
  obtain ⟨a, s', t', hs, ht, h'⟩ := renewLease_twins h hl
  simp only [step, hs, ht]
  cases a with
  | error e => exact failWith_twins h' lease e
  | ok renewed =>
    simp only [h'.now]
    split <;> exact ⟨rfl, h', rfl⟩

theorem releasing_twins {lease : Lease} (hl : lease.resource = r.id.text)
    (result : Except Error (Outcome × Option Detail)) :
    Mirrored r late (delay late) ((releasing lease result).step r s) ((releasing lease result).step r t) := by
  obtain ⟨a, s', t', fx, hs, ht, h'⟩ := release_twins h hl lease.fence
  simp only [step, hs, ht]
  have hreport (o : Outcome) (detail : Option Detail) : Mirrored r late (delay late)
      ((report r s' o detail).1, (report r s' o detail).2.1, fx ++ (report r s' o detail).2.2)
      ((report r t' o detail).1, (report r t' o detail).2.1, fx ++ (report r t' o detail).2.2) :=
    have hreported := report_twins h' o detail
    ⟨hreported.phase, hreported.site, congrArg (fx ++ ·) hreported.effects⟩
  rcases a with (e | _) | _
  · cases result <;> exact hreport ..
  · exact ⟨rfl, h', rfl⟩
  · cases result <;> exact hreport ..

/-- A step does the same at both sites. -/
theorem step_twins (habout : p.About r) :
    Mirrored r late (delay late) (p.step r s) ((p.delay late).step r t) := by
  cases p with
  | acquiring p => exact acquiring_twins h p
  | loading lease => exact loading_twins h lease
  | renewing lease x c => exact renewing_twins h habout.1 x c
  | releasing lease result => exact releasing_twins h habout result
  | orphaning lease o =>
    obtain ⟨a, s', t', hs, ht, h'⟩ := renewLease_twins h habout.1
    simp only [step, delay, hs, ht]
    cases a with
    | error e => exact failWith_twins h' lease e
    | ok renewed => exact ⟨rfl, h', rfl⟩
  | savingOrphan lease o =>
    obtain ⟨a, s', t', hs, ht, h'⟩ := h.save habout.2 o.session.version lease.fence
    simp only [step, delay, hs, ht]
    cases a with
    | error e => exact failWith_twins h' lease e
    | ok version => exact ⟨(delay_proceed ..).symm, h'.emit _, rfl⟩
  | confirming lease x d =>
    obtain ⟨a, s', t', hs, ht, h'⟩ := renewLease_twins h habout.1
    simp only [step, delay, hs, ht]
    cases a with
    | error e => exact failWith_twins h' lease e
    | ok renewed => exact ⟨rfl, h', rfl⟩
  | saving lease x d =>
    obtain ⟨a, s', t', hs, ht, h'⟩ := h.save habout.2 x.version lease.fence
    simp only [step, delay, hs, ht]
    cases a with
    | error e => exact failWith_twins h' lease e
    | ok version => exact ⟨rfl, h', rfl⟩
  | finished o => exact ⟨rfl, h, rfl⟩

theorem step_delayed (habout : p.About r) {q : StepPhase} {s' : Site} {fx : List Effect}
    (hstep : p.step r s = (q, s', fx)) :
    ∃ t', (p.delay late).step r t = (q.delay late, t', fx) ∧ Twins r late s' t' := by
  obtain ⟨hphase, hsite, heffects⟩ := step_twins h habout
  rw [hstep] at hphase hsite heffects
  exact ⟨_, Prod.ext hphase (Prod.ext rfl heffects), hsite⟩

end Twins

/-- The run of a step is the same at both sites. -/
theorem Runs.twins (hrun : Runs r p s o u) (h : Twins r late s t) (habout : p.About r) :
    ∃ u', Runs r (p.delay late) t o u' ∧ Twins r late u u' := by
  induction hrun generalizing t with
  | ends hstep hfx =>
    obtain ⟨t', hstep', h'⟩ := step_delayed h habout hstep
    exact ⟨t', .ends hstep' hfx, h'⟩
  | @drops p s s' o ticket hstep =>
    obtain ⟨t', hstep', h'⟩ := step_delayed h habout hstep
    obtain ⟨a, u, u', hs, ht, hu⟩ := h'.lease (.remove ticket) rfl
    refine ⟨_, .drops hstep', ?_⟩
    rw [hs, ht]
    exact hu
  | @goes p q s s' u o hstep hon rest ih =>
    have hnext := step_about h.plain.1 h.quiet.1 habout
    rw [hstep] at hnext
    obtain ⟨t', hstep', h'⟩ := step_delayed h habout hstep
    obtain ⟨u', hrest, hu⟩ := ih (h'.waited q.parkedUntil?) hnext
    rw [← delay_parked] at hrest
    exact ⟨u', .goes hstep' ((delay_result q).trans hon) hrest, hu⟩

end StepPhase

end FencedSessions
