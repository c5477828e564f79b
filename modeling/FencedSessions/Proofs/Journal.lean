import FencedSessions.Proofs.Acts

/-! A journal of the acquires of a run: every ticket and every lease that the store hands to a
client, every answer that a client gets, and every client that is dropped. An entry is made from the
answer of the store and from the result of the client's step, whatever phases lie between them. -/

namespace FencedSessions

/-- What happens to an acquire. -/
inductive News where
  /-- The store queued a ticket for it. -/
  | queued (key : String) (t : Ticket)
  /-- The store granted it a lease. -/
  | granted (key : String) (l : Lease)
  /-- It answered its caller a lease. -/
  | obtained (l : Lease)
  /-- It answered its caller an error. -/
  | failed (e : Stop)
  /-- Its caller was dropped. -/
  | dropped
deriving DecidableEq, Repr

namespace News

def ofResult : Except Stop Lease → News
  | .ok l => .obtained l
  | .error e => .failed e

/-- Whether the acquire is over. -/
def ends : News → Bool
  | .obtained _ | .failed _ | .dropped => true
  | .queued .. | .granted .. => false

/-- Whether it was granted, has failed, or was dropped. -/
def settles : News → Bool
  | .granted .. | .failed _ | .dropped => true
  | .queued .. | .obtained _ => false

/-- The leases of the acquire that a client is at, after some more news of it. -/
def grants (leases : List Lease) : News → List Lease
  | .granted _ l => leases ++ [l]
  | .queued .. => leases
  | .obtained _ | .failed _ | .dropped => []

end News

structure Entry where
  client : Nat
  /-- The clock reading of the call. -/
  time : Instant
  news : News
deriving DecidableEq, Repr

/-- What the answer to a call means for the acquire that makes it. -/
def LeaseOp.news (key : String) : (op : LeaseOp) → Except Stop op.Answer → List News
  | .enqueue .., .ok t => [.queued key t]
  | .grant .., .ok (some l) => [.granted key l]
  | _, _ => []

namespace AcquirePhase

/-- What the store tells a caller in its next step. -/
def told (r : AcquireRequest) (s : Site) (p : AcquirePhase) : List News :=
  match p.call? r with
  | some op => op.news r.key (s.guarded r.node r.key op).1
  | none => []

/-- What happens to an acquire in its next step. -/
def news (r : AcquireRequest) (s : Site) (p : AcquirePhase) : List News :=
  match p.result? with
  | some _ => []
  | none => p.told r s ++ (p.step r s).1.result?.toList.map .ofResult

theorem result_settle (s : Site) (r : AcquireRequest) (w : Waiter) :
    (settle s r w).result? = none := by
  unfold settle
  split <;> rfl

theorem answers_settle (s : Site) (r : AcquireRequest) (w : Waiter) :
    (settle s r w).result?.toList.map News.ofResult = [] := by
  rw [result_settle]
  rfl

theorem news_eq (r : AcquireRequest) (s : Site) {p : AcquirePhase} (h : p.result? = none) :
    p.news r s = p.told r s ++ (p.step r s).1.result?.toList.map .ofResult := by
  simp only [news, h]

/-- One thing at a time. -/
theorem news_cases (r : AcquireRequest) (s : Site) (p : AcquirePhase) :
    p.news r s = [] ∨ ∃ n, p.news r s = [n] := by
  cases p with
  | starting =>
    rw [news_eq r s rfl]
    simp only [told, call?, step]
    split
    · exact Or.inr ⟨_, rfl⟩
    · exact Or.inl rfl
  | joining d =>
    rw [news_eq r s rfl]
    simp only [told, call?, step]
    generalize s.guarded r.node r.key (.enqueue r.holder d.ticketDeadline) = called
    obtain ⟨_ | t, s'⟩ := called <;> exact Or.inr ⟨_, rfl⟩
  | checking w =>
    rw [news_eq r s rfl]
    simp only [told, call?, step]
    generalize s.guarded r.node r.key (.position w.ticket.number) = called
    obtain ⟨answer, s'⟩ := called
    rcases answer with e | position
    · exact Or.inr ⟨_, rfl⟩
    · left
      change List.map _ (Option.toList _) = []
      split
      · rename_i heq
        cases heq
      · rfl
      · simp only [result_settle]
        rfl
      · split
        · simp only [result_settle]
          rfl
        · rfl
  | granting w =>
    rw [news_eq r s rfl]
    simp only [told, call?, step]
    generalize s.guarded r.node r.key (.grant none r.holder w.ticket.position r.ttl) = called
    obtain ⟨_ | _ | l, s'⟩ := called
    · exact Or.inr ⟨_, rfl⟩
    · dsimp only
      rw [result_settle]
      exact Or.inl rfl
    · exact Or.inr ⟨_, rfl⟩
  | rejoining w =>
    rw [news_eq r s rfl]
    simp only [told, call?, step]
    generalize s.guarded r.node r.key (.enqueue r.holder w.deadlines.ticketDeadline) = called
    obtain ⟨_ | t, s'⟩ := called
    · exact Or.inr ⟨_, rfl⟩
    · dsimp only
      rw [result_settle]
      exact Or.inr ⟨_, rfl⟩
  | waiting w due => exact Or.inl rfl
  | taking w lease => exact Or.inr ⟨_, rfl⟩
  | leaving w => exact Or.inr ⟨_, rfl⟩
  | finished result => exact Or.inl rfl

end AcquirePhase

/-- No caller is told by the store, or tells, that it is dropped. -/
theorem AcquirePhase.not_dropped (r : AcquireRequest) (s : Site) (p : AcquirePhase) :
    .dropped ∉ p.news r s := by
  intro h
  unfold news at h
  split at h
  · cases h
  · rcases List.mem_append.mp h with htold | hanswer
    · unfold told at htold
      split at htold
      · unfold LeaseOp.news at htold
        split at htold
        · cases List.mem_singleton.mp htold
        · cases List.mem_singleton.mp htold
        · cases htold
      · cases htold
    · obtain ⟨result, -, hresult⟩ := List.mem_map.mp hanswer
      cases result <;> cases hresult

/-- What happens to the acquire of a client in its next step. -/
def Activity.news (s : Site) : Activity → List News
  | .acquire r p _ => p.news r s
  | .series x (.acquiring p) => p.news (StepPhase.acquireRequest x.current s) s
  | _ => []

theorem Activity.news_cases (s : Site) (a : Activity) : a.news s = [] ∨ ∃ n, a.news s = [n] := by
  cases a with
  | acquire r p keep => exact p.news_cases r s
  | series x p =>
    cases p with
    | acquiring p => exact p.news_cases (StepPhase.acquireRequest x.current s) s
    | _ => exact Or.inl rfl
  | _ => exact Or.inl rfl

theorem Activity.not_dropped (s : Site) (a : Activity) : .dropped ∉ a.news s := by
  cases a with
  | acquire r p keep => exact p.not_dropped r s
  | series x p =>
    cases p with
    | acquiring p => exact p.not_dropped (StepPhase.acquireRequest x.current s) s
    | _ => nofun
  | _ => nofun

namespace Crowd

/-- What happens to the client that makes an act. -/
def news (c : Crowd) : Act → List Entry
  | .go i =>
    match c.clients[i]? with
    | some x => (x.activity.news c.site).map fun n => ⟨i, c.now, n⟩
    | none => []
  | .leave i => if i < c.clients.length then [⟨i, c.now, .dropped⟩] else []
  | _ => []

/-- The journal of a run, oldest entry first. -/
def log : Crowd → List Act → List Entry
  | _, [] => []
  | c, a :: acts => c.news a ++ log (c.act a) acts

theorem run_cons (c : Crowd) (a : Act) (acts : List Act) :
    c.run (a :: acts) = (c.act a).run acts := rfl

theorem run_append (c : Crowd) (before after : List Act) :
    c.run (before ++ after) = (c.run before).run after := List.foldl_append

theorem news_cases (c : Crowd) (a : Act) : c.news a = [] ∨ ∃ e, c.news a = [e] := by
  cases a with
  | go i =>
    simp only [news]
    split
    · rename_i x _
      rcases x.activity.news_cases c.site with h | ⟨n, h⟩
      · exact Or.inl (by rw [h]; rfl)
      · exact Or.inr ⟨⟨i, c.now, n⟩, by rw [h]; rfl⟩
    · exact Or.inl rfl
  | leave i =>
    simp only [news]
    split
    · exact Or.inr ⟨_, rfl⟩
    · exact Or.inl rfl
  | _ => exact Or.inl rfl

/-- An invariant of a run and its journal. -/
theorem log_induction {P : Crowd → List Entry → List Act → Prop}
    (hact : ∀ c log a acts, P c log (a :: acts) → P (c.act a) (log ++ c.news a) acts)
    {c : Crowd} {log : List Entry} {acts : List Act} (h : P c log acts) :
    P (c.run acts) (log ++ c.log acts) [] := by
  induction acts generalizing c log with
  | nil =>
    rw [Crowd.log, List.append_nil]
    exact h
  | cons a acts ih =>
    rw [Crowd.log, ← List.append_assoc]
    exact ih (hact c log a acts h)

/-- Where a run is when it makes an entry. -/
theorem log_split {c : Crowd} {acts : List Act} {x y : List Entry} {e : Entry}
    (h : c.log acts = x ++ e :: y) :
    ∃ before a after, acts = before ++ a :: after ∧ c.log before = x ∧
      (c.run before).news a = [e] ∧ ((c.run before).act a).log after = y := by
  induction acts generalizing c x with
  | nil => simp [log] at h
  | cons a acts ih =>
    rw [log] at h
    rcases c.news_cases a with hnews | ⟨n, hnews⟩
    · rw [hnews, List.nil_append] at h
      obtain ⟨before, b, after, hacts, hx, he, hy⟩ := ih h
      refine ⟨a :: before, b, after, by rw [hacts]; rfl, ?_, he, hy⟩
      rw [log, hnews, List.nil_append, hx]
    · rw [hnews, List.singleton_append] at h
      cases x with
      | nil =>
        obtain ⟨rfl, hy⟩ := List.cons.inj h
        exact ⟨[], a, acts, rfl, rfl, hnews, hy⟩
      | cons e' x =>
        obtain ⟨rfl, hrest⟩ := List.cons.inj h
        obtain ⟨before, b, after, hacts, hx, he, hy⟩ := ih hrest
        refine ⟨a :: before, b, after, by rw [hacts]; rfl, ?_, he, hy⟩
        rw [log, hnews, List.singleton_append, hx]

end Crowd

/-- Whether nothing in a part of a journal ends the acquire that a client is at. -/
def lasts (i : Nat) (l : List Entry) : Bool := l.all fun e => e.client ≠ i || !e.news.ends

theorem lasts_append (i : Nat) (l l' : List Entry) : lasts i (l ++ l') = (lasts i l && lasts i l') :=
  List.all_append

/-- Whether in a part of a journal the acquire that a client is at is granted, fails, or is dropped.
What comes after the end of the acquire does not count. -/
def settled (i : Nat) : List Entry → Bool
  | [] => false
  | e :: l =>
    if e.client = i then e.news.settles || (!e.news.ends && settled i l) else settled i l

/-- The leases that the acquire which a client is at was granted so far. -/
def grants (i : Nat) (l : List Entry) : List Lease :=
  l.foldl (fun leases e => if e.client = i then e.news.grants leases else leases) []

end FencedSessions
