import FencedSessions.Proofs.Isolation
import FencedSessions.Proofs.Tickets

/-! The queue of a key, told from the operations that have run on its state. A ticket is queued from the
operation that issued it on, until it is removed or an operation that looks at the queue finds its deadline
come. Who is queued stands in the order of issue, so a place in the queue is the number of earlier tickets
that are still there, and can only get better. -/

namespace FencedSessions

/-- Whether a queued ticket stays when a request is carried out. Those that look at the queue drop the
tickets whose deadline has come, and the others do not, whatever the time. -/
def LeaseRequest.leaves (r : LeaseRequest) (t : Ticket) : Bool :=
  match r.op with
  | .enqueue .. | .position _ | .queueLength => r.time < t.deadline
  | .remove number => t.number ≠ number
  | .grant .. | .extend .. | .delete _ | .get => true

/-- How many tickets of a queue have smaller numbers than a ticket, if the ticket is in the queue. -/
def place (queue : List Ticket) (number : Nat) : Option Nat :=
  if queue.any (·.number = number) then some (queue.countP (·.number < number)) else none

theorem place_eq_some {queue : List Ticket} {number p : Nat} :
    place queue number = some p ↔
      (∃ t ∈ queue, t.number = number) ∧ queue.countP (·.number < number) = p := by
  unfold place
  split
  · rename_i h
    simp_all
  · rename_i h
    simp_all

/-- Where numbers ascend, the index of a number is its place. -/
theorem findIdx?_place {queue : List Ticket} (h : queue.Pairwise (·.number < ·.number)) (number : Nat) :
    queue.findIdx? (·.number = number) = place queue number := by
  induction queue with
  | nil => rfl
  | cons t ts ih =>
    obtain ⟨hlt, hts⟩ := List.pairwise_cons.mp h
    rw [List.findIdx?_cons, ih hts]
    by_cases ht : t.number = number
    · -- all that stand behind the ticket have larger numbers
      have hnone : ts.countP (·.number < number) = 0 := by
        rw [List.countP_eq_zero]
        intro u hu
        have hlarger := hlt u hu
        simp only [decide_eq_true_eq]
        omega
      simp [place, ht, hnone]
    · have hmem : ts.any (·.number = number) → t.number < number := by
        intro hany
        obtain ⟨u, hu, hnumber⟩ := List.any_eq_true.mp hany
        have hlarger := hlt u hu
        simp only [decide_eq_true_eq] at hnumber
        omega
      unfold place
      by_cases hany : ts.any (·.number = number)
      · simp [ht, hany, hmem hany]
      · simp [ht, hany]

/-- The ticket that an operation is answered with, if it asks for one. -/
def LeaseOp.ticket? : (op : LeaseOp) → Except Stop op.Answer → Option Ticket
  | .enqueue .., .ok t => some t
  | _, _ => none

namespace KeyState

/-- What requests one after another leave of a state. -/
def after (k : KeyState) (rs : List LeaseRequest) : KeyState :=
  rs.foldl (fun k r => (k.run r.key r.time r.op).2) k

def ticket? (k : KeyState) (r : LeaseRequest) : Option Ticket :=
  r.op.ticket? (k.run r.key r.time r.op).1

/-- The tickets that requests one after another are answered with. -/
def issued : KeyState → List LeaseRequest → List Ticket
  | _, [] => []
  | k, r :: rs => (k.ticket? r).toList ++ issued (k.run r.key r.time r.op).2 rs

variable {k : KeyState} {r : LeaseRequest} {rs : List LeaseRequest} {t : Ticket}

theorem after_append (k : KeyState) (rs rs' : List LeaseRequest) :
    k.after (rs ++ rs') = (k.after rs).after rs' := List.foldl_append

/-- What a request does to a queue: some tickets go, the others stay in their order, and a new one comes
last. -/
theorem run_tickets (k : KeyState) (r : LeaseRequest) :
    (k.run r.key r.time r.op).2.tickets = k.tickets.filter r.leaves ++ (k.ticket? r).toList ∧
      (k.run r.key r.time r.op).2.lastTicket = k.lastTicket + (k.ticket? r).toList.length := by
  obtain ⟨time, key, op⟩ := r
  by_cases hop : op.queues
  · cases op with
    | enqueue holder deadline => exact ⟨rfl, rfl⟩
    | position number => exact ⟨(List.append_nil _).symm, rfl⟩
    | remove number => exact ⟨(List.append_nil _).symm, rfl⟩
    | queueLength => exact ⟨(List.append_nil _).symm, rfl⟩
    | grant expected holder position ttl => cases hop
    | extend fence ttl => cases hop
    | delete fence => cases hop
    | get => cases hop
  · obtain ⟨htickets, hlast⟩ := sameQueue_run k key time (show op.queues = false by simpa using hop)
    rw [htickets, hlast]
    have hnone : k.ticket? ⟨time, key, op⟩ = none := by
      cases op <;> first | rfl | exact absurd rfl hop
    have hall : k.tickets.filter (LeaseRequest.leaves ⟨time, key, op⟩) = k.tickets := by
      refine List.filter_eq_self.mpr fun t _ => ?_
      cases op <;> first | rfl | exact absurd rfl hop
    simp [hnone, hall]

theorem mem_run : t ∈ (k.run r.key r.time r.op).2.tickets ↔
    (t ∈ k.tickets ∧ r.leaves t) ∨ k.ticket? r = some t := by
  rw [(k.run_tickets r).1]
  simp

/-- A ticket has the number after the last one. -/
theorem ticket?_number (h : k.ticket? r = some t) : t.number = k.lastTicket + 1 := by
  obtain ⟨time, key, op⟩ := r
  cases op with
  | enqueue holder deadline =>
    cases h
    rfl
  | _ => cases h

/-- Who is queued after requests was queued before them or got its ticket from one of them, and none since
has let it go. -/
theorem mem_after : t ∈ (k.after rs).tickets ↔
    (t ∈ k.tickets ∧ ∀ r ∈ rs, r.leaves t) ∨
      ∃ before r later, rs = before ++ r :: later ∧ (k.after before).ticket? r = some t ∧
        ∀ r' ∈ later, r'.leaves t := by
  induction rs generalizing k with
  | nil => simp [after]
  | cons r rs ih =>
    rw [show k.after (r :: rs) = (k.run r.key r.time r.op).2.after rs from rfl, ih, mem_run]
    constructor
    · rintro (⟨⟨ht, hr⟩ | hissued, hrs⟩ | ⟨before, r', later, rfl, hissued, hlater⟩)
      · exact .inl ⟨ht, by simpa [hr] using hrs⟩
      · exact .inr ⟨[], r, rs, rfl, hissued, hrs⟩
      · exact .inr ⟨r :: before, r', later, rfl, hissued, hlater⟩
    · rintro (⟨ht, hrs⟩ | ⟨before, r', later, hsplit, hissued, hlater⟩)
      · exact .inl ⟨.inl ⟨ht, hrs r (by simp)⟩, fun r' hr' => hrs r' (by simp [hr'])⟩
      · cases before with
        | nil =>
          obtain ⟨rfl, rfl⟩ := List.cons.inj hsplit
          exact .inl ⟨.inr hissued, hlater⟩
        | cons first before =>
          obtain ⟨rfl, rfl⟩ := List.cons.inj hsplit
          exact .inr ⟨before, r', later, rfl, hissued, hlater⟩

theorem Numbered.after (h : k.Numbered) (rs : List LeaseRequest) : (k.after rs).Numbered := by
  induction rs generalizing k with
  | nil => exact h
  | cons r rs ih => exact ih (h.run r.key r.time r.op)

theorem last_after (k : KeyState) (rs : List LeaseRequest) :
    (k.after rs).lastTicket = k.lastTicket + (k.issued rs).length := by
  induction rs generalizing k with
  | nil => rfl
  | cons r rs ih =>
    rw [show k.after (r :: rs) = (k.run r.key r.time r.op).2.after rs from rfl, ih,
      (k.run_tickets r).2, issued, List.length_append, Nat.add_assoc]

/-- Tickets are numbered in the order of their issue. -/
theorem issued_numbers (k : KeyState) (rs : List LeaseRequest) :
    (k.issued rs).map (·.number) = List.range' (k.lastTicket + 1) (k.issued rs).length := by
  induction rs generalizing k with
  | nil => rfl
  | cons r rs ih =>
    rw [issued, List.map_append, ih, (k.run_tickets r).2, List.length_append]
    cases hissued : k.ticket? r with
    | none => simp
    | some t => simp [ticket?_number hissued, List.range'_succ, Nat.add_comm 1]

/-- What requests leave of a queue are some of its tickets in their order, with new ones behind them. -/
theorem after_tickets (h : k.Numbered) (rs : List LeaseRequest) :
    ∃ kept new, (k.after rs).tickets = kept ++ new ∧ kept.Sublist k.tickets ∧
      ∀ t ∈ new, k.lastTicket < t.number := by
  induction rs generalizing k with
  | nil => exact ⟨k.tickets, [], (List.append_nil _).symm, .refl _, nofun⟩
  | cons r rs ih =>
    obtain ⟨htickets, hlast⟩ := k.run_tickets r
    obtain ⟨kept, new, hafter, hkept, hnew⟩ := ih (h.run r.key r.time r.op)
    rw [htickets] at hkept
    obtain ⟨old, issued, rfl, hold, hissued⟩ := List.sublist_append_iff.mp hkept
    refine ⟨old, issued ++ new, ?_, hold.trans List.filter_sublist, fun t ht => ?_⟩
    · rw [← List.append_assoc]
      exact hafter
    · rcases List.mem_append.mp ht with ht | ht
      · have hnumber := ticket?_number (Option.mem_toList.mp (hissued.subset ht))
        omega
      · have hlater := hnew t ht
        omega

/-- A new ticket is behind all that stay, and is told so. -/
theorem place_enqueue (h : k.Numbered) (now : Instant) (holder : String) (deadline : Instant) :
    let joined := k.enqueue now holder deadline
    place joined.2.tickets joined.1.number = some joined.1.position := by
  have hpruned := h.prune now
  have hall : (k.prune now).tickets.countP (·.number < k.lastTicket + 1) =
      (k.prune now).tickets.length := by
    rw [List.countP_eq_length]
    intro t ht
    exact decide_eq_true (Nat.lt_succ_of_le (hpruned.issued t ht))
  refine place_eq_some.mpr ⟨⟨_, List.mem_append_right _ (List.mem_singleton_self _), rfl⟩, ?_⟩
  change List.countP (·.number < k.lastTicket + 1) ((k.prune now).tickets ++ [_]) = _
  rw [List.countP_append, hall, List.countP_singleton, if_neg (by simp [prune])]
  rfl

/-- The place of a ticket never gets worse. -/
theorem place_after (h : k.Numbered) {number p p' : Nat} (hp : place k.tickets number = some p)
    (hp' : place (k.after rs).tickets number = some p') : p' ≤ p := by
  obtain ⟨⟨t, ht, rfl⟩, rfl⟩ := place_eq_some.mp hp
  obtain ⟨-, rfl⟩ := place_eq_some.mp hp'
  obtain ⟨kept, new, hafter, hkept, hnew⟩ := after_tickets h rs
  -- the tickets that have come since have larger numbers than those that were there
  have hnone : new.countP (·.number < t.number) = 0 := by
    rw [List.countP_eq_zero]
    intro u hu
    have hissued := h.issued t ht
    have hlater := hnew u hu
    simp only [decide_eq_true_eq]
    omega
  rw [hafter, List.countP_append, hnone, Nat.add_zero]
  exact hkept.countP_le

/-- Places are in the order of numbers. -/
theorem place_lt_iff {queue : List Ticket} {a b p q : Nat} (hp : place queue a = some p)
    (hq : place queue b = some q) : p < q ↔ a < b := by
  obtain ⟨⟨t, ht, rfl⟩, rfl⟩ := place_eq_some.mp hp
  obtain ⟨-, rfl⟩ := place_eq_some.mp hq
  constructor
  · intro hlt
    refine Nat.lt_of_not_le fun hle => Nat.not_le_of_lt hlt ?_
    refine List.countP_mono_left fun v _ hv => ?_
    simp only [decide_eq_true_eq] at hv ⊢
    omega
  · intro hlt
    -- of the tickets before the second, those before the first are some, and the first itself is another
    have hsplit := List.countP_eq_countP_filter_add queue (·.number < b) (·.number < t.number)
    have hbefore : (queue.filter (·.number < t.number)).countP (·.number < b) =
        queue.countP (·.number < t.number) := by
      rw [List.countP_filter]
      refine List.countP_congr fun v _ => ?_
      simp only [Bool.and_eq_true, decide_eq_true_eq]
      omega
    have hitself : 0 < (queue.filter fun v => !decide (v.number < t.number)).countP (·.number < b) :=
      List.countP_pos_iff.mpr ⟨t, by simp [ht], by simpa using hlt⟩
    omega

/-- A ticket is queued after some requests on a new key if one of them was answered with it and none since
has let it go. -/
def Queued (rs : List LeaseRequest) (t : Ticket) : Prop :=
  ∃ before r later, rs = before ++ r :: later ∧ (({} : KeyState).after before).ticket? r = some t ∧
    ∀ r' ∈ later, r'.leaves t

/-- What holds of a key after some requests, and of the answers to the next one. -/
structure QueueLaw (rs : List LeaseRequest) : Prop where
  /-- Tickets are numbered from one in the order of their issue. -/
  numbers : (({} : KeyState).issued rs).map (·.number) = List.range' 1 (({} : KeyState).issued rs).length
  queued : ∀ t, t ∈ (({} : KeyState).after rs).tickets ↔ Queued rs t
  ascending : (({} : KeyState).after rs).tickets.Pairwise (·.number < ·.number)
  enqueue : ∀ key now holder deadline,
    let r : LeaseRequest := ⟨now, key, .enqueue holder deadline⟩
    ∃ t, ((({} : KeyState).after rs).run key now (.enqueue holder deadline)).1 = .ok t ∧
      t.number = (({} : KeyState).issued rs).length + 1 ∧ t.holder = holder ∧ t.deadline = deadline ∧
      place (({} : KeyState).after (rs ++ [r])).tickets t.number = some t.position
  position : ∀ key now number,
    let r : LeaseRequest := ⟨now, key, .position number⟩
    ((({} : KeyState).after rs).run key now (.position number)).1 =
      .ok (place (({} : KeyState).after (rs ++ [r])).tickets number)
  queueLength : ∀ key now,
    let r : LeaseRequest := ⟨now, key, .queueLength⟩
    ((({} : KeyState).after rs).run key now .queueLength).1 =
      .ok (({} : KeyState).after (rs ++ [r])).tickets.length
  /-- However it goes on, the place of a ticket does not get worse. -/
  improves : ∀ later number p p', place (({} : KeyState).after rs).tickets number = some p →
    place (({} : KeyState).after (rs ++ later)).tickets number = some p' → p' ≤ p
  /-- However it goes on, no ticket overtakes another. -/
  ordered : ∀ later a b p q p' q', place (({} : KeyState).after rs).tickets a = some p →
    place (({} : KeyState).after rs).tickets b = some q → p < q →
    place (({} : KeyState).after (rs ++ later)).tickets a = some p' →
    place (({} : KeyState).after (rs ++ later)).tickets b = some q' → p' < q'

/-- The queue of a key is as its requests have made it, whatever they were, whatever the clock showed and
whatever deadlines the tickets have. -/
theorem queue_law (rs : List LeaseRequest) : QueueLaw rs := by
  have hnumbered := numbered_empty.after rs
  have hnext (r : LeaseRequest) : (({} : KeyState).after (rs ++ [r])) =
      ((({} : KeyState).after rs).run r.key r.time r.op).2 := after_append {} rs [r]
  constructor
  · exact issued_numbers {} rs
  · intro t
    rw [mem_after]
    exact ⟨fun h => h.resolve_left fun h => absurd h.1 List.not_mem_nil, .inr⟩
  · exact hnumbered.ascending
  · intro key now holder deadline r
    refine ⟨_, rfl, ?_, rfl, rfl, ?_⟩
    · rw [← Nat.zero_add (issued {} rs).length]
      exact congrArg (· + 1) (last_after {} rs)
    · rw [hnext]
      exact place_enqueue hnumbered now holder deadline
  · intro key now number r
    rw [hnext, ← findIdx?_place (hnumbered.run key now _).ascending]
    rfl
  · intro key now r
    rw [hnext]
    rfl
  · intro later number p p' hp hp'
    rw [after_append] at hp'
    exact place_after hnumbered hp hp'
  · intro later a b p q p' q' hp hq hlt hp' hq'
    exact (place_lt_iff hp' hq').mpr ((place_lt_iff hp hq).mp hlt)

/-- A ticket that is issued past its deadline is queued until somebody looks. -/
example : place (({} : KeyState).after [⟨⟨5⟩, "k", .enqueue "a" ⟨3⟩⟩]).tickets 1 = some 0 ∧
    (({} : KeyState).after [⟨⟨5⟩, "k", .enqueue "a" ⟨3⟩⟩, ⟨⟨5⟩, "k", .queueLength⟩]).tickets = [] := by
  decide

end KeyState

end FencedSessions
