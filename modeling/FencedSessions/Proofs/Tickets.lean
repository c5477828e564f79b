import FencedSessions.Proofs.Keeping

/-! The ticket queue of a key. Tickets are numbered in the order of their issue and stand in that
order; a call appends a ticket, drops the ones whose deadline has come, removes one, or leaves the
queue as it is. -/

namespace FencedSessions

namespace KeyState

/-- Tickets stand in the order of their numbers, none of which is still to be issued. -/
structure Numbered (k : KeyState) : Prop where
  ascending : k.tickets.Pairwise (·.number < ·.number)
  issued : ∀ t ∈ k.tickets, t.number ≤ k.lastTicket

variable {k : KeyState} {key : String} {now : Instant}

theorem numbered_empty : Numbered {} := ⟨.nil, by simp⟩

theorem Numbered.filter (h : k.Numbered) {k' : KeyState} {p : Ticket → Bool}
    (htickets : k'.tickets = k.tickets.filter p) (hlast : k'.lastTicket = k.lastTicket) :
    k'.Numbered := by
  constructor
  · rw [htickets]
    exact h.ascending.filter p
  · intro t ht
    rw [htickets] at ht
    rw [hlast]
    exact h.issued t (List.mem_filter.mp ht).1

theorem Numbered.prune (h : k.Numbered) (now : Instant) : (k.prune now).Numbered := h.filter rfl rfl

theorem Numbered.enqueue (h : k.Numbered) (now : Instant) (holder : String) (deadline : Instant) :
    (k.enqueue now holder deadline).2.Numbered := by
  have hpruned := h.prune now
  constructor
  · refine List.pairwise_append.mpr ⟨hpruned.ascending, List.pairwise_singleton _ _, ?_⟩
    intro t ht u hu
    rw [List.mem_singleton.mp hu]
    exact Nat.lt_succ_of_le (hpruned.issued t ht)
  · intro t ht
    rcases List.mem_append.mp ht with ht | ht
    · exact Nat.le_succ_of_le (hpruned.issued t ht)
    · rw [List.mem_singleton.mp ht]
      exact Nat.le_refl _

/-- The numbers in a queue are not before the one that stands first. -/
theorem Numbered.first_le (h : k.Numbered) {t : Ticket} {ts : List Ticket} (hk : k.tickets = t :: ts) :
    ∀ u ∈ k.tickets, t.number ≤ u.number := by
  have hsorted := h.ascending
  rw [hk] at hsorted ⊢
  intro u hu
  rcases List.mem_cons.mp hu with rfl | hu
  · exact Nat.le_refl _
  · exact Nat.le_of_lt ((List.pairwise_cons.mp hsorted).1 u hu)

theorem mem_prune {t : Ticket} : t ∈ (k.prune now).tickets ↔ t ∈ k.tickets ∧ now < t.deadline := by
  simp [prune]

theorem mem_enqueue {holder : String} {deadline : Instant} {t : Ticket} :
    t ∈ (k.enqueue now holder deadline).2.tickets ↔
      (t ∈ k.tickets ∧ now < t.deadline) ∨ t = (k.enqueue now holder deadline).1 := by
  rw [← mem_prune]
  simp [enqueue]

theorem mem_remove {n : Nat} {t : Ticket} :
    t ∈ (k.remove n).2.tickets ↔ t ∈ k.tickets ∧ t.number ≠ n := by
  simp [remove]

/-- A ticket with none before it is the first of a queue. -/
theorem position_first {n : Nat} (h : (k.position now n).1 = some 0) :
    ∃ t ts, (k.prune now).tickets = t :: ts ∧ t.number = n := by
  unfold position at h
  dsimp only at h
  cases hts : (k.prune now).tickets with
  | nil => simp [hts] at h
  | cons t ts =>
    rw [hts, List.findIdx?_cons] at h
    split at h
    · rename_i hn
      exact ⟨t, ts, rfl, by simpa using hn⟩
    · simp at h

theorem position_none {n : Nat} (h : (k.position now n).1 = none) :
    ∀ t ∈ (k.prune now).tickets, t.number ≠ n := by
  unfold position at h
  rw [List.findIdx?_eq_none_iff] at h
  intro t ht
  simpa using h t ht

/-- The queues of two states are the same. -/
def SameQueue (k k' : KeyState) : Prop := k'.tickets = k.tickets ∧ k'.lastTicket = k.lastTicket

theorem SameQueue.refl (k : KeyState) : SameQueue k k := ⟨rfl, rfl⟩

theorem SameQueue.trans {a b c : KeyState} (h : SameQueue a b) (h' : SameQueue b c) :
    SameQueue a c := ⟨h'.1.trans h.1, h'.2.trans h.2⟩

theorem Numbered.of_same {k' : KeyState} (h : k.Numbered) (hk : SameQueue k k') : k'.Numbered where
  ascending := by
    rw [hk.1]
    exact h.ascending
  issued := by
    rw [hk.1, hk.2]
    exact h.issued

theorem sameQueue_grant (k : KeyState) (key : String) (now : Instant) (expected : Option Fence)
    (holder : String) (position : Nat) (ttl : Span) :
    SameQueue k (k.grant key now expected holder position ttl).2 := by
  unfold grant
  split
  · exact .refl k
  · dsimp only
    split <;> exact .refl _

theorem sameQueue_extend (k : KeyState) (now : Instant) (fence : Fence) (ttl : Span) :
    SameQueue k (k.extend now fence ttl).2 := by
  unfold extend
  split
  · split
    · split <;> exact .refl _
    · exact .refl k
  · exact .refl k

theorem sameQueue_delete (k : KeyState) (now : Instant) (fence : Fence) :
    SameQueue k (k.delete now fence).2 := by
  unfold delete
  split
  · split <;> exact .refl _
  · exact .refl k

end KeyState

/-- Whether an operation is about the queue of a key. -/
def LeaseOp.queues : LeaseOp → Bool
  | .enqueue .. | .position _ | .remove _ | .queueLength => true
  | .grant .. | .extend .. | .delete _ | .get => false

namespace KeyState

variable {k : KeyState} {key : String} {now : Instant}

/-- An operation that is not about the queue leaves it. -/
theorem sameQueue_run (k : KeyState) (key : String) (now : Instant) {op : LeaseOp}
    (h : op.queues = false) : SameQueue k (k.run key now op).2 := by
  cases op with
  | grant expected holder position ttl => exact sameQueue_grant ..
  | extend fence ttl => exact sameQueue_extend ..
  | delete fence => exact sameQueue_delete ..
  | get => exact .refl k
  | enqueue holder deadline => cases h
  | position ticket => cases h
  | remove ticket => cases h
  | queueLength => cases h

/-- An operation that comes to a stop is not about the queue. -/
theorem queues_of_error {op : LeaseOp} {e : Stop} (h : (k.run key now op).1 = .error e) :
    op.queues = false := by
  cases op with
  | grant expected holder position ttl => rfl
  | extend fence ttl => rfl
  | delete fence => rfl
  | get => rfl
  | enqueue holder deadline => cases h
  | position ticket => cases h
  | remove ticket => cases h
  | queueLength => cases h

theorem Numbered.run (h : k.Numbered) (key : String) (now : Instant) (op : LeaseOp) :
    (k.run key now op).2.Numbered := by
  by_cases hop : op.queues
  · cases op with
    | enqueue holder deadline => exact h.enqueue now holder deadline
    | position ticket => exact h.prune now
    | remove ticket => exact h.filter rfl rfl
    | queueLength => exact h.prune now
    | grant expected holder position ttl => cases hop
    | extend fence ttl => cases hop
    | delete fence => cases hop
    | get => cases hop
  · have hop : op.queues = false := by simpa using hop
    exact h.of_same (sameQueue_run k key now hop)

end KeyState

namespace Site

variable {s s' s'' : Site} {key : String}

/-- All queues are as they were. -/
def Untouched (s s' : Site) : Prop := ∀ q, KeyState.SameQueue (s.keyState q) (s'.keyState q)

/-- The queue of one key is now that of `k`, and the other queues are as they were. -/
structure Requeued (s s' : Site) (key : String) (k : KeyState) : Prop where
  here : KeyState.SameQueue k (s'.keyState key)
  others : ∀ q, q ≠ key → KeyState.SameQueue (s.keyState q) (s'.keyState q)

theorem Untouched.refl (s : Site) : Untouched s s := fun _ => .refl _

theorem Untouched.trans (h : Untouched s s') (h' : Untouched s' s'') : Untouched s s'' :=
  fun q => (h q).trans (h' q)

theorem Alike.untouched (h : Alike s s') : Untouched s s' := by
  intro q
  rw [h.keyState]
  exact .refl _

theorem Requeued.trans {k : KeyState} (h : Requeued s s' key k) (h' : Untouched s' s'') :
    Requeued s s'' key k where
  here := h.here.trans (h' key)
  others q hq := (h.others q hq).trans (h' q)

theorem Requeued.untouched {k : KeyState} (h : Requeued s s' key k)
    (hk : KeyState.SameQueue (s.keyState key) k) : Untouched s s' := by
  intro q
  by_cases hq : q = key
  · subst hq
    exact hk.trans h.here
  · exact h.others q hq

theorem leaseRun_requeued {m : MemoryLeases} (hm : s.leases = .memory m) (key : String)
    (op : LeaseOp) : (s.leaseRun key op).1 = ((s.keyState key).run key s.now op).1 ∧
      Requeued s (s.leaseRun key op).2 key ((s.keyState key).run key s.now op).2 := by
  have hkey (q : String) : s.keyState q = m.state q := by simp only [keyState, hm]
  rw [leaseRun_memory hm, hkey]
  refine ⟨rfl, ?_, fun q hq => ?_⟩
  · simp only [keyState]
    rw [m.run_state]
    exact .refl _
  · rw [hkey]
    simp only [keyState]
    rw [m.run_state_other s.now op hq]
    exact .refl _

/-- What a call does to the queues: it fails and leaves them, or it is answered and does to them what
its operation does. -/
theorem Called.queues {op : LeaseOp} {answer : Except Stop op.Answer}
    (hc : Called s key op answer s') {m : MemoryLeases} (hm : s.leases = .memory m) :
    ((∃ e, answer = .error e) ∧ Untouched s s') ∨
      ∃ a, answer = .ok a ∧ ((s.keyState key).run key s.now op).1 = .ok a ∧
        Requeued s s' key ((s.keyState key).run key s.now op).2 := by
  obtain ⟨hanswer, hrun⟩ := leaseRun_requeued hm key op
  cases hc with
  | failed calm => exact Or.inl ⟨⟨_, rfl⟩, calm.alike.untouched⟩
  | answered ran calm =>
    exact Or.inr ⟨_, rfl, hanswer.symm.trans ran, hrun.trans calm.alike.untouched⟩
  | stopped ran calm =>
    have hop := KeyState.queues_of_error (hanswer.symm.trans ran)
    exact Or.inl ⟨⟨_, rfl⟩, (hrun.trans calm.alike.untouched).untouched (KeyState.sameQueue_run _ _ _ hop)⟩

/-- A call that is not about queues leaves them. -/
theorem Called.untouched {op : LeaseOp} {answer : Except Stop op.Answer}
    (hc : Called s key op answer s') {m : MemoryLeases} (hm : s.leases = .memory m)
    (hop : op.queues = false) : Untouched s s' := by
  rcases hc.queues hm with ⟨-, h⟩ | ⟨a, -, -, h⟩
  · exact h
  · exact h.untouched (KeyState.sameQueue_run _ _ _ hop)

theorem Asked.untouched {op : RepositoryOp} {answer : Except Stop op.Answer}
    (ha : Asked s op answer s') {m : MemoryLeases} (hm : s.leases = .memory m) : Untouched s s' := by
  intro q
  unfold keyState
  rw [ha.leases, hm]
  exact .refl _

/-- Whether a call would not be made to fail. -/
def spares (s : Site) (op : LeaseOp) : Bool :=
  match (s.note op.callName).1 with
  | none => true
  | some d => d.error.isNone

/-- A call that is not made to fail is answered as its operation is. -/
theorem lease_of_spares {op : LeaseOp} (h : s.spares op) :
    (s.lease key op).1 = (s.leaseRun key op).1 := by
  have hrun := (leaseRun_calm key op (calm_note s op.callName) rfl).1
  unfold spares at h
  unfold lease disturbed
  generalize s.note op.callName = noted at h hrun
  obtain ⟨found, t⟩ := noted
  cases found with
  | none => exact hrun
  | some d =>
    simp only [Option.isNone_iff_eq_none.mp h]
    dsimp only at hrun
    generalize t.leaseRun key op = ran at hrun
    obtain ⟨answer, u⟩ := ran
    split
    · exact hrun
    · exact hrun
    · exact hrun

/-- A call that is not made to fail is answered, if its operation is. -/
theorem lease_spared {m : MemoryLeases} (hm : s.leases = .memory m) {op : LeaseOp} {a : op.Answer}
    (h : s.spares op) (ha : ((s.keyState key).run key s.now op).1 = .ok a) :
    (s.lease key op).1 = .ok a :=
  (lease_of_spares h).trans ((leaseRun_requeued hm key op).1.trans ha)

end Site

end FencedSessions
