import FencedSessions.Proofs.Commuting

/-! A look that only recovers a session makes no difference to the step after it. If the session was
abandoned, the look orphans it, and the step finds it so; without the look the step does the same before
anything else, at the same version and under the same fence. -/

namespace FencedSessions

open Site

namespace Session

/-- An abandoned session as its orphaning leaves it stored. -/
def orphaned (x : Session) (now : Instant) (fence : Fence) : Session :=
  { x.orphan now fence with version := x.version + 1 }

/-- What is orphaned is not abandoned again. -/
theorem orphaned_lively (x : Session) (now : Instant) (fence : Fence) (threshold : Int) :
    (x.orphaned now fence).isStale now threshold = false := by
  have hstatus : (x.orphaned now fence).status = .orphaned := rfl
  unfold isStale
  rw [hstatus]
  rfl

end Session

namespace Upshot

/-- The session that is stored afterwards. -/
def stored? (u : Upshot) (before : Option Session) : Option Session :=
  (u.writes.getLast?.map (·.session)).or before

variable {x : Session} {change : Option Change} {threshold : Int} {now : Instant} {fence fence' : Fence}

theorem ofStored_lively (h : x.isStale now threshold = false) :
    ofStored (some x) change threshold now fence = ofFound x change now fence := by
  unfold ofStored
  simp only [h, Bool.false_eq_true, if_false]

theorem ofStored_stale (h : x.isStale now threshold) :
    ofStored (some x) change threshold now fence =
      { ofFound (x.orphaned now fence) change now fence with
        writes := ⟨fence, x.orphaned now fence⟩ ::
          (ofFound (x.orphaned now fence) change now fence).writes } := by
  unfold ofStored
  simp only [h, if_true]
  rfl

/-- The fence of who makes a step stands in the records only. -/
theorem ofFound_fence (x : Session) (change : Option Change) (now : Instant) (fence fence' : Fence) :
    ofFound x change now fence' =
      { ofFound x change now fence with
        writes := (ofFound x change now fence).writes.map fun r => { r with fence := fence' } } := by
  cases change with
  | none => rfl
  | some c =>
    simp only [ofFound, ofChange]
    cases c.result x now <;> rfl

/-- Two upshots that differ at most in the fences of their records, after the first so many. -/
structure Agrees (u whole : Upshot) (fence : Fence) (before before' : Option Session) : Prop where
  outcome : u.outcome = whole.outcome
  stored : u.stored? before = whole.stored? before'
  writes : ∀ record ∈ u.writes, record.fence = fence ∧
    ∃ old ∈ whole.writes, old.session = record.session

theorem ofFound_agrees (x : Session) (change : Option Change) (now : Instant) (fence fence' : Fence)
    (before : Option Session) :
    Agrees (ofFound x change now fence') (ofFound x change now fence) fence' before before := by
  rw [ofFound_fence x change now fence fence']
  refine ⟨rfl, ?_, fun record hrecord => ?_⟩
  · simp [stored?, List.getLast?_map, Function.comp_def]
  · obtain ⟨old, hold, rfl⟩ := List.mem_map.mp hrecord
    exact ⟨rfl, old, hold, rfl⟩

/-- What a step comes to after a look, under another fence, is what it comes to without. -/
theorem ofStored_recovered (stored : Option Session) (change : Option Change) (threshold : Int)
    (now : Instant) (fence fence' : Fence) :
    let found := (ofStored stored none threshold now fence).stored? stored
    Agrees (ofStored found change threshold now fence') (ofStored stored change threshold now fence) fence'
      found stored := by
  cases stored with
  | none => exact ⟨rfl, rfl, nofun⟩
  | some x =>
    cases hstale : x.isStale now threshold with
    | false =>
      have hlook : (ofStored (some x) none threshold now fence).stored? (some x) = some x := by
        rw [ofStored_lively hstale]
        rfl
      dsimp only
      rw [hlook, ofStored_lively hstale, ofStored_lively hstale]
      exact ofFound_agrees x change now fence fence' (some x)
    | true =>
      have hlook : (ofStored (some x) none threshold now fence).stored? (some x) =
          some (x.orphaned now fence) := by
        rw [ofStored_stale hstale]
        rfl
      dsimp only
      rw [hlook, ofStored_lively (x.orphaned_lively now fence threshold), ofStored_stale hstale]
      have hrest := ofFound_agrees (x.orphaned now fence) change now fence fence'
        (some (x.orphaned now fence))
      refine ⟨hrest.outcome, hrest.stored.trans ?_, fun record hrecord => ?_⟩
      · -- what the rest does not write is the orphaned session, which the whole step has written
        unfold stored?
        cases (ofFound (x.orphaned now fence) change now fence).writes with
        | nil => rfl
        | cons record rest =>
          rw [List.getLast?_cons_cons, List.getLast?_eq_some_getLast (List.cons_ne_nil record rest)]
          rfl
      · obtain ⟨hfence, old, hold, hsession⟩ := hrest.writes record hrecord
        exact ⟨hfence, old, List.mem_cons_of_mem _ hold, hsession⟩

end Upshot

namespace Site

/-- The directory of the lease store, if it is in one. -/
def leaseDirectory? (s : Site) : Option String :=
  match s.leases with
  | .memory _ => none
  | .directory d => some d

variable {s t : Site}

theorem Alike.leaseDirectory? (h : Alike s t) : t.leaseDirectory? = s.leaseDirectory? := by
  unfold Site.leaseDirectory?
  rw [h.leases]

theorem leaseRun_leaseDirectory? (s : Site) (key : String) (op : LeaseOp) :
    (s.leaseRun key op).2.leaseDirectory? = s.leaseDirectory? := by
  unfold leaseRun leaseDirectory?
  cases s.leases <;> rfl

theorem Called.leaseDirectory? {key : String} {op : LeaseOp} {answer : Except Stop op.Answer}
    (h : Called s key op answer t) : t.leaseDirectory? = s.leaseDirectory? :=
  h.carry (P := fun t => t.leaseDirectory? = s.leaseDirectory?)
    (fun calm h => calm.alike.leaseDirectory?.trans h) rfl (leaseRun_leaseDirectory? s key op)

end Site

namespace StepPhase

variable {r : StepRequest} {p q : StepPhase} {s t u : Site} {n : Nat} {o : Except Stop Outcome}

/-- A step leaves the lease store where it is. -/
theorem step_leaseDirectory? (r : StepRequest) (s : Site) (p : StepPhase) :
    (p.step r s).2.1.leaseDirectory? = s.leaseDirectory? := by
  cases hcall : p.call? r s with
  | some call =>
    obtain ⟨answer, t, hcalled, he⟩ := p.step_called r s hcall
    exact he.alike.leaseDirectory?.trans hcalled.leaseDirectory?
  | none =>
    cases hask : p.ask? r with
    | some op =>
      have hleases : (s.repo op).2.leases = s.leases := (repo_asked s op).leases
      refine (p.step_asked r s hask).alike.leaseDirectory?.trans ?_
      unfold leaseDirectory?
      rw [hleases]
    | none => exact (p.step_silent r s hcall hask).alike.leaseDirectory?

theorem Leads.leaseDirectory? (h : Leads r n p s q t) : t.leaseDirectory? = s.leaseDirectory? := by
  induction h with
  | refl p s => rfl
  | @step n p q z s t u hstep hon rest ih =>
    have hkept := step_leaseDirectory? r s p
    rw [hstep] at hkept
    exact ih.trans hkept

/-- Phases that follow one another at once are the start of a run. -/
theorem Leads.runs (h : Leads r n p s q t) (hrun : Runs r q t o u) : Runs r p s o u := by
  induction h with
  | refl p s => exact hrun
  | step hstep hon rest ih =>
    refine .goes hstep hon.1 ?_
    rw [hon.2]
    exact ih hrun

end StepPhase

namespace Site

variable {s t : Site} {r : StepRequest} {k : KeyState} {m : MemoryRepository} {n : Nat}

open StepPhase in
/-- A step that nobody is in the way of runs to what it comes to, and leaves the key free. -/
theorem Clear.runs (h : s.Clear r.node r.id k m) (hprovides : s.Provides r.id (n + 8) k m)
    (hdeadlines : (AcquirePhase.deadlines? s (acquireRequest r s)).isSome)
    (hadmits : ∀ record ∈ (r.upshot s k m).writes, s.Admits record) :
    ∃ i t, Runs r .initial s (.ok (r.upshot s k m).outcome) t ∧ t.leaseDirectory? = s.leaseDirectory? ∧
      s.Amid r i k.visited (written r m (r.upshot s k m).writes) t := by
  obtain ⟨i, j, p, t, u, key, -, hleads, hstep, hamid⟩ := h.leads hprovides hdeadlines hadmits
  have hdirectory := step_leaseDirectory? r t p
  rw [hstep] at hdirectory
  exact ⟨i, u, hleads.runs (.ends hstep (.inr ⟨_, _, rfl⟩)), hdirectory.trans hleads.leaseDirectory?, hamid⟩

/-- The stores have room again once the key is free. -/
theorem Provides.again {id : SessionId} {k' : KeyState} {m' : MemoryRepository} (h : t.Provides id n k' m')
    {wanted : Nat} (hroom : t.leaseDirectory? ≠ none → k'.Room wanted) : t.Provides id wanted k' m' where
  keeps := h.keeps
  holds := h.holds
  housed d hd := ⟨(h.housed d hd).1, hroom (by simp [leaseDirectory?, hd])⟩
  allowed := h.allowed

end Site

/-- A step that makes no change, but for the orphaning of an abandoned session. -/
def StepRequest.look (r : StepRequest) (timeout : Span) : StepRequest :=
  { r with change := none, timeout }

/-- A look writes at most the orphaned session. -/
theorem Upshot.look_writes {stored : Option Session} {threshold : Int} {now : Instant} {fence : Fence} :
    ∀ record ∈ (ofStored stored none threshold now fence).writes,
      ∃ x ∈ stored, record = ⟨fence, x.orphaned now fence⟩ := by
  cases stored with
  | none => exact nofun
  | some x =>
    intro record hrecord
    refine ⟨x, rfl, ?_⟩
    cases hstale : x.isStale now threshold with
    | false =>
      rw [ofStored_lively hstale] at hrecord
      exact absurd hrecord List.not_mem_nil
    | true =>
      rw [ofStored_stale hstale] at hrecord
      exact List.mem_singleton.mp hrecord

/-- A step that makes a change writes what a look writes. -/
theorem Upshot.look_writes_mem {stored : Option Session} {threshold : Int} {now : Instant} {fence : Fence}
    (change : Option Change) : ∀ record ∈ (ofStored stored none threshold now fence).writes,
      record ∈ (ofStored stored change threshold now fence).writes := by
  cases stored with
  | none => exact nofun
  | some x =>
    intro record hrecord
    cases hstale : x.isStale now threshold with
    | false =>
      rw [ofStored_lively hstale] at hrecord
      exact absurd hrecord List.not_mem_nil
    | true =>
      rw [ofStored_stale hstale] at hrecord ⊢
      rw [List.mem_singleton.mp hrecord]
      exact List.mem_cons_self

namespace StepPhase

variable {r : StepRequest} {s t : Site} {m : MemoryRepository}

/-- The record of the session is the last one written, if one was. -/
theorem find?_written (r : StepRequest) (m : MemoryRepository) (records : List StoredSession) :
    (written r m records).find? r.id = records.getLast?.or (m.find? r.id) := by
  induction records generalizing m with
  | nil => rfl
  | cons record rest ih =>
    refine (ih (m.put r.id record)).trans ?_
    rw [MemoryRepository.find?_put_self]
    cases rest with
    | nil => rfl
    | cons next rest =>
      rw [List.getLast?_cons_cons, List.getLast?_eq_some_getLast (List.cons_ne_nil next rest)]
      rfl

theorem find?_written_other (m : MemoryRepository) (records : List StoredSession) {id : SessionId}
    (h : id ≠ r.id) : (written r m records).find? id = m.find? id := by
  induction records generalizing m with
  | nil => rfl
  | cons record rest ih => exact (ih (m.put r.id record)).trans (MemoryRepository.find?_put_other m _ h)

theorem session_written (r : StepRequest) (m : MemoryRepository) (u : Upshot) :
    ((written r m u.writes).find? r.id).map (·.session) = u.stored? ((m.find? r.id).map (·.session)) := by
  rw [find?_written]
  unfold Upshot.stored?
  cases u.writes.getLast? <;> rfl

theorem deadlines?_kept (h : Kept r.node s t) :
    AcquirePhase.deadlines? t (acquireRequest r t) = AcquirePhase.deadlines? s (acquireRequest r s) := by
  unfold AcquirePhase.deadlines? acquireRequest
  dsimp only
  rw [h.now, h.timer, h.settings]

end StepPhase

namespace Site

variable {s t : Site} {r : StepRequest} {timeout : Span} {k : KeyState} {m : MemoryRepository} {i : Nat}

open StepPhase

/-- What a record of the session is like after a look. -/
theorem Clear.looked (h : s.Clear r.node r.id k m) {record : StoredSession}
    (hrecord : (written (r.look timeout) m ((r.look timeout).upshot s k m).writes).find? r.id = some record) :
    record.session.id = r.id ∧ record.fence ≤ k.lastFence.next ∧
      (s.sessionDirectory? ≠ none → record.session.Shallow) := by
  have hfind := find?_written (r.look timeout) m ((r.look timeout).upshot s k m).writes
  rw [show (r.look timeout).id = r.id from rfl, hrecord] at hfind
  cases hlast : ((r.look timeout).upshot s k m).writes.getLast? with
  | none =>
    rw [hlast] at hfind
    exact ⟨h.named record hfind.symm, h.fenced record hfind.symm, fun hd => h.readable hd record hfind.symm⟩
  | some written =>
    rw [hlast] at hfind
    cases hfind
    obtain ⟨x, hx, rfl⟩ := Upshot.look_writes record (List.mem_of_getLast? hlast)
    obtain ⟨old, hold, rfl⟩ := Option.map_eq_some_iff.mp hx
    refine ⟨h.named old hold, Nat.le_refl _, fun hd => ?_⟩
    have hshallow := (h.readable hd old hold).orphan s.now k.lastFence.next
    exact ⟨hshallow.checkpoints, hshallow.metadata⟩

/-- Nobody and nothing is in the way of the step after a look. -/
theorem Clear.after_look (h : s.Clear r.node r.id k m)
    (hamid : s.Amid (r.look timeout) i k.visited
      (written (r.look timeout) m ((r.look timeout).upshot s k m).writes) t) :
    t.Clear r.node r.id k.visited
      (written (r.look timeout) m ((r.look timeout).upshot s k m).writes) where
  quiet := hamid.quiet
  free := rfl
  alone := rfl
  expiry := by
    rw [hamid.kept.now, hamid.kept.settings]
    exact h.expiry
  duration := by
    rw [hamid.kept.settings]
    exact h.duration
  named record hrecord := (h.looked hrecord).1
  fenced record hrecord := Nat.le_trans (h.looked hrecord).2.1 (Nat.le_succ _)
  readable hd record hrecord := by
    rw [hamid.kept.directory] at hd
    exact (h.looked hrecord).2.2 hd

/-- What the step after a look comes to. -/
theorem Amid.absorbs (h : s.Amid (r.look timeout) i k.visited
    (written (r.look timeout) m ((r.look timeout).upshot s k m).writes) t) :
    Upshot.Agrees
      (r.upshot t k.visited
        (written (r.look timeout) m ((r.look timeout).upshot s k m).writes))
      (r.upshot s k m) k.lastFence.next.next
      (((r.look timeout).upshot s k m).stored? ((m.find? r.id).map (·.session)))
      ((m.find? r.id).map (·.session)) := by
  have hfound := session_written (r.look timeout) m ((r.look timeout).upshot s k m)
  have hupshot := Upshot.ofStored_recovered ((m.find? r.id).map (·.session)) r.change
    (s.settings r.node).orchestrator.staleness s.now k.lastFence.next k.lastFence.next.next
  unfold StepRequest.upshot at hfound ⊢
  rw [show r.id = (r.look timeout).id from rfl, hfound, h.kept.now, h.kept.settings]
  exact hupshot

/-- There is room for the step after a look. -/
theorem Provides.after_look (h : s.Provides r.id 16 k m) (hdirectory : t.leaseDirectory? = s.leaseDirectory?)
    {m' : MemoryRepository}
    (ht : t.Provides r.id i k.visited m') :
    t.Provides r.id 8 k.visited m' := by
  refine ht.again fun hne => ?_
  rw [hdirectory] at hne
  unfold Site.leaseDirectory? at hne
  cases hl : s.leases with
  | memory leases => simp [hl] at hne
  | directory d =>
    obtain ⟨hfence, hticket, -⟩ := (h.housed d hl).2
    refine ⟨?_, ?_, show 0 + 8 < Word.size64 by decide⟩
    · change k.lastFence.value + 1 + 8 < Word.size64
      omega
    · change k.lastTicket + 1 + 8 < Word.size64
      omega

end Site

namespace World

open StepPhase

variable {w : World} {r : StepRequest} {timeout : Span} {k : KeyState} {m : MemoryRepository}

/-- A look is absorbed by the step after it. It is made in a world at rest, on a session whose lock nobody
wants and whose record the next holder of the lock may overwrite, and the step follows at the same reading of
the clock. Both come to their end, the step has the outcome that it has without the look, and every session
that is stored afterwards, with its status, its version, its history and its checkpoints, is stored without
the look as well. A second look has the outcome of the first. -/
theorem look_absorbed (timeout : Span) (hrest : w.AtRest) (hclear : w.site.Clear r.node r.id k m)
    (hprovides : w.site.Provides r.id 16 k m)
    (hdeadlines : (AcquirePhase.deadlines? w.site (acquireRequest r w.site)).isSome)
    (hlook : (AcquirePhase.deadlines? w.site (acquireRequest (r.look timeout) w.site)).isSome)
    (hadmits : ∀ record ∈ (r.upshot w.site k m).writes, w.site.Admits record)
    (hfence : w.site.sessionDirectory? ≠ none → k.lastFence.next.next.value < Word.size64) :
    ∃ o looked alone both m₁ m₂, w.Completes r (.ok o) alone ∧
      w.InTurn (r.look timeout) r (.ok looked) (.ok o) both ∧
      alone.site.Holds m₁ ∧ both.site.Holds m₂ ∧
      (∀ id, (m₂.find? id).map (·.session) = (m₁.find? id).map (·.session)) ∧
      (r.change = none → looked = o) := by
  have hlookAdmits : ∀ record ∈ ((r.look timeout).upshot w.site k m).writes, w.site.Admits record :=
    fun record hrecord => hadmits record (Upshot.look_writes_mem r.change record hrecord)
  obtain ⟨i₁, s₁, hrun₁, -, h₁⟩ := hclear.runs (n := 8) hprovides hdeadlines hadmits
  obtain ⟨i₂, s₂, hrun₂, hdirectory, h₂⟩ :=
    Site.Clear.runs (n := 8) (r := r.look timeout) hclear hprovides hlook hlookAdmits
  obtain ⟨alone, hdone₁, -, rfl⟩ := hrest.completes hrun₁
  obtain ⟨between, hdone₂, hrest₂, rfl⟩ := hrest.completes hrun₂
  have hagrees := Site.Amid.absorbs h₂
  -- the step after the look finds the site as clear as the look did
  have hadmits₂ : ∀ record ∈ (r.upshot between.site k.visited
      (written (r.look timeout) m ((r.look timeout).upshot w.site k m).writes)).writes,
      between.site.Admits record := by
    intro record hrecord hd
    rw [h₂.kept.directory] at hd
    obtain ⟨hf, old, hold, hsession⟩ := hagrees.writes record hrecord
    exact ⟨hf ▸ hfence hd, hsession ▸ (hadmits old hold hd).session⟩
  have hdeadlines₂ : (AcquirePhase.deadlines? between.site (acquireRequest r between.site)).isSome := by
    rw [deadlines?_kept (r := r) h₂.kept]
    exact hdeadlines
  obtain ⟨i₃, s₃, hrun₃, -, h₃⟩ := Site.Clear.runs (n := 0) (hclear.after_look h₂)
    (hprovides.after_look hdirectory h₂.provides) hdeadlines₂ hadmits₂
  obtain ⟨both, hdone₃, -, rfl⟩ := hrest₂.completes hrun₃
  rw [hagrees.outcome] at hdone₃
  refine ⟨_, _, alone, both, _, _, hdone₁, ⟨between, hdone₂, h₂.kept.now, hdone₃⟩, h₁.provides.holds,
    h₃.provides.holds, fun id => ?_, fun hchange => ?_⟩
  · by_cases hid : id = r.id
    · rw [hid, session_written, session_written, ← hagrees.stored]
      exact congrArg (Upshot.stored? _) (session_written (r.look timeout) m _)
    · rw [find?_written_other _ _ hid, find?_written_other _ _ hid]
      exact congrArg _ (find?_written_other (r := r.look timeout) m _ hid)
  · unfold StepRequest.upshot StepRequest.look
    rw [hchange]

/-- An abandoned session whose record bears the next fence, which the lock has not issued yet, is looked at and
then retried. -/
theorem look_absorbed_abandoned :
    let running : Session := { Session.create .nil 0 ⟨0⟩ with
      status := .running, history := [⟨.pending, .running, ⟨0⟩, false⟩], version := 2 }
    let m : MemoryRepository := MemoryRepository.put {} .nil ⟨⟨3⟩, running⟩
    let k : KeyState :=
      ⟨some ⟨SessionId.nil.text, "gone", ⟨2⟩, ⟨5000000000⟩, 0⟩, ⟨2⟩, [⟨4, "gone", ⟨5000000000⟩, 0⟩], 4⟩
    let w : World := { site := {
      clock := ⟨11000000000⟩
      leases := .memory (MemoryLeases.setState {} SessionId.nil.text k)
      repository := .memory m
      nodes := [{ settings := { orchestrator := ⟨"worker", 10000⟩ } }] } }
    let r : StepRequest := ⟨0, .nil, some (.transition .retry none), .ofMillis 1000⟩
    w.site.Clear r.node r.id k m ∧
      ∃ o looked alone both m₁ m₂, w.Completes r (.ok o) alone ∧
        w.InTurn (r.look (.ofMillis 500)) r (.ok looked) (.ok o) both ∧
        alone.site.Holds m₁ ∧ both.site.Holds m₂ ∧
        ∀ id, (m₂.find? id).map (·.session) = (m₁.find? id).map (·.session) := by
  intro running m k w r
  have hfind : m.find? r.id = some ⟨⟨3⟩, running⟩ := MemoryRepository.find?_put_self {} .nil _
  have hmemory : w.site.sessionDirectory? = none := rfl
  have hclear : w.site.Clear r.node r.id k m := {
    quiet := ⟨fun _ _ => List.forall_mem_nil _, 0, rfl⟩
    free := by decide
    alone := by decide
    expiry := by decide
    duration := by decide
    named := fun old hold => by cases hfind.symm.trans hold; rfl
    fenced := fun old hold => by cases hfind.symm.trans hold; decide
    readable := fun hd => absurd hmemory hd }
  have hprovides : w.site.Provides r.id 16 k m := {
    keeps := MemoryLeases.state_setState_self {} SessionId.nil.text k
    holds := rfl
    housed := nofun
    allowed := nofun }
  have hrest : w.AtRest := ⟨rfl, rfl, List.forall_mem_nil _, List.forall_mem_nil _⟩
  obtain ⟨o, looked, alone, both, m₁, m₂, halone, hboth, h₁, h₂, hsame, -⟩ :=
    look_absorbed (.ofMillis 500) hrest hclear hprovides (by decide) (by decide)
      (fun _ _ hd => absurd hmemory hd) (fun hd => absurd hmemory hd)
  exact ⟨hclear, o, looked, alone, both, m₁, m₂, halone, hboth, h₁, h₂, hsame⟩

/-- The outcome of a step that comes to one. -/
def outcome? : Option Result → Option Outcome
  | some (.steps _ (.ok o)) => some o
  | _ => none

/-- A look uses up a fence. Where the record bears the second fence from now, the step alone is turned down,
and the step after a look is not. Where the deadline of the step is beyond the time line, the step alone
leaves an abandoned session as it is, and the look has orphaned it. -/
theorem look_not_absorbed :
    let site : Site := { clock := ⟨11000000000⟩, nodes := [{ settings := { orchestrator := ⟨"worker", 10000⟩ } }] }
    let waiting : Session := { Session.create .nil 0 ⟨0⟩ with version := 2 }
    let ahead : World :=
      { site := { site with repository := .memory (MemoryRepository.put {} .nil ⟨⟨2⟩, waiting⟩) } }
    let abandoned : World := { site := { site with
      repository := .memory (MemoryRepository.put {} .nil ⟨.zero, { waiting with status := .running }⟩) } }
    let start : StepRequest := ⟨0, .nil, some (.transition .start none), .ofMillis 1000⟩
    let endless : StepRequest := { start with timeout := .ofMillis 9000000000000000 }
    let looked (w : World) : World := (w.perform (.ofStep (start.look start.timeout))).2
    let version (w : World) : Option Nat := (w.site.record? .nil).map (·.session.version)
    outcome? (ahead.perform (.ofStep start)).1 =
        some (.conflict true (Error.staleFence .nil ⟨1⟩ ⟨2⟩).message) ∧
      outcome? ((looked ahead).perform (.ofStep start)).1 = some (.success .running 3) ∧
      version (ahead.perform (.ofStep start)).2 = some 2 ∧
      version ((looked ahead).perform (.ofStep start)).2 = some 3 ∧
      version (abandoned.perform (.ofStep endless)).2 = some 2 ∧
      version ((looked abandoned).perform (.ofStep endless)).2 = some 3 := by
  decide +kernel

end World

end FencedSessions
