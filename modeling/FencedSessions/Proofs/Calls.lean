import FencedSessions.Lock.Basic

/-! What calls to the stores of a site change. A call either fails without effect or is carried out,
and nothing but the store it goes to tells the difference; all else that it touches (the plan of
disturbances, the counts of calls, the clock, the breakers) is left open by `Calm`. -/

namespace FencedSessions.Site

/-- What no call to a store changes: how the nodes are set up, and what the site has counted. -/
structure Frame (s s' : Site) : Prop where
  settings : ∀ n, s'.settings n = s.settings n
  created : s'.created = s.created
  counters : s'.counters = s.counters

theorem Frame.refl (s : Site) : Frame s s := ⟨fun _ => rfl, rfl, rfl⟩

theorem Frame.trans {a b c : Site} (h1 : Frame a b) (h2 : Frame b c) : Frame a c where
  settings n := (h2.settings n).trans (h1.settings n)
  created := h2.created.trans h1.created
  counters := h2.counters.trans h1.counters

/-- Neither store was touched, nor what the site has counted. -/
structure Calm (s s' : Site) : Prop extends Frame s s' where
  leases : s'.leases = s.leases
  repository : s'.repository = s.repository
  files : s'.files = s.files

theorem Calm.refl (s : Site) : Calm s s := ⟨.refl s, rfl, rfl, rfl⟩

theorem Calm.trans {a b c : Site} (h1 : Calm a b) (h2 : Calm b c) : Calm a c where
  toFrame := h1.toFrame.trans h2.toFrame
  leases := h2.leases.trans h1.leases
  repository := h2.repository.trans h1.repository
  files := h2.files.trans h1.files

/-- The stores and the settings are the same. -/
structure Alike (s s' : Site) : Prop where
  leases : s'.leases = s.leases
  repository : s'.repository = s.repository
  files : s'.files = s.files
  settings : ∀ n, s'.settings n = s.settings n

theorem Alike.refl (s : Site) : Alike s s := ⟨rfl, rfl, rfl, fun _ => rfl⟩

theorem Calm.alike {s s' : Site} (h : Calm s s') : Alike s s' :=
  ⟨h.leases, h.repository, h.files, h.settings⟩

theorem calm_note (s : Site) (call : String) : Calm s (s.note call).2 :=
  ⟨⟨fun _ => rfl, rfl, rfl⟩, rfl, rfl, rfl⟩

theorem calm_advance (s : Site) (d : Span) : Calm s (s.advance d) :=
  ⟨⟨fun _ => rfl, rfl, rfl⟩, rfl, rfl, rfl⟩

theorem settings_setBreaker (s : Site) (n i : Nat) (b : Breaker) :
    (s.setBreaker n b).settings i = s.settings i := by
  unfold settings node? setBreaker
  rw [List.getElem?_modify]
  cases s.nodes[i]? with
  | none => rfl
  | some node => by_cases h : n = i <;> simp [h]

theorem calm_setBreaker (s : Site) (n : Nat) (b : Breaker) : Calm s (s.setBreaker n b) :=
  ⟨⟨fun i => settings_setBreaker s n i b, rfl, rfl⟩, rfl, rfl, rfl⟩

theorem calm_observed {α : Type} (s : Site) (n : Nat) (answer : Except Stop α) :
    Calm s (s.observed n answer).2 := calm_setBreaker s n _

/-- A call that fails without effect, or one that is carried out by `act`. -/
theorem disturbed_cases {α : Type} (s : Site) (call : String)
    (act : Site → Except Stop α × Site) :
    (∃ e, (s.disturbed call act).1 = .error (.error e) ∧ Calm s (s.disturbed call act).2) ∨
    ((s.disturbed call act).1 = (act (s.note call).2).1 ∧
      Calm (act (s.note call).2).2 (s.disturbed call act).2) := by
  have hcalm := calm_note s call
  unfold disturbed
  generalize s.note call = found at hcalm
  obtain ⟨_ | d, t⟩ := found
  · exact Or.inr ⟨rfl, Calm.refl _⟩
  · cases he : d.error with
    | some e => simp only [he]; exact Or.inl ⟨e, rfl, hcalm⟩
    | none =>
      simp only [he]
      right
      split
      · exact ⟨rfl, Calm.refl _⟩
      · exact ⟨rfl, Calm.refl _⟩
      · exact ⟨rfl, calm_advance _ _⟩

/-- A call leaves alone what noting it, what it does itself and a jump of the clock leave alone. -/
theorem disturbed_view {α β : Type} {f : Site → β} {call : String} {act : Site → Except Stop α × Site}
    (hnote : ∀ s, f (s.note call).2 = f s) (hadvance : ∀ s d, f (s.advance d) = f s)
    (hact : ∀ s, f (act s).2 = f s) (s : Site) : f (s.disturbed call act).2 = f s := by
  have hnoted := hnote s
  unfold disturbed
  generalize s.note call = found at hnoted
  obtain ⟨_ | d, t⟩ := found
  · exact (hact t).trans hnoted
  · have hdone := (hact t).trans hnoted
    dsimp only
    split
    · exact hnoted
    · split
      · exact hdone
      · exact hdone
      · exact (hadvance _ _).trans hdone

section Leases

variable (s : Site) (n : Nat) (key : String) (op : LeaseOp)

/-- An operation on the lease store reads nothing but the store and the clock. -/
theorem leaseRun_calm {s t : Site} (h : Calm s t) (hnow : t.now = s.now) :
    (t.leaseRun key op).1 = (s.leaseRun key op).1 ∧
      Calm (s.leaseRun key op).2 (t.leaseRun key op).2 := by
  unfold leaseRun
  rw [h.leases, h.files, hnow]
  cases s.leases <;> exact ⟨rfl, ⟨h.settings, h.created, h.counters⟩, rfl, h.repository, rfl⟩

/-- How a call to the lease store ends: it fails without effect, or the operation is carried out and
its answer handed on, or the operation itself comes to a stop. -/
inductive Called : Except Stop op.Answer → Site → Prop where
  | failed {e : Stop} {s' : Site} (calm : Calm s s') : Called (.error e) s'
  | answered {a : op.Answer} {s' : Site} (ran : (s.leaseRun key op).1 = .ok a)
    (calm : Calm (s.leaseRun key op).2 s') : Called (.ok a) s'
  | stopped {e e' : Stop} {s' : Site} (ran : (s.leaseRun key op).1 = .error e)
    (calm : Calm (s.leaseRun key op).2 s') : Called (.error e') s'

theorem lease_called : Called s key op (s.lease key op).1 (s.lease key op).2 := by
  obtain ⟨hrun, hcalm⟩ := leaseRun_calm key op (calm_note s op.callName) rfl
  rcases disturbed_cases s op.callName (fun s => s.leaseRun key op) with ⟨e, he, h⟩ | ⟨h1, h2⟩
  · unfold lease
    rw [he]
    exact .failed h
  · unfold lease
    rw [h1, hrun]
    cases ha : (s.leaseRun key op).1 with
    | ok a => exact .answered ha (hcalm.trans h2)
    | error e => exact .stopped ha (hcalm.trans h2)

theorem observed_ok {α : Type} (a : α) : (s.observed n (.ok a)).1 = .ok a := rfl

theorem observed_error {α : Type} (e : Stop) :
    ∃ e', (s.observed n (.error e : Except Stop α)).1 = .error e' := by
  unfold observed Breaker.observe
  cases e with
  | overflow => exact ⟨_, rfl⟩
  | error e =>
    dsimp only
    split
    · split <;> exact ⟨_, rfl⟩
    · exact ⟨_, rfl⟩

theorem unguarded_called : Called s key op (s.unguarded n key op).1 (s.unguarded n key op).2 := by
  have h := lease_called s key op
  unfold unguarded
  generalize s.lease key op = called at h
  obtain ⟨answer, t⟩ := called
  dsimp only at h ⊢
  have hc := calm_observed t n answer
  cases h with
  | failed calm =>
    obtain ⟨e', he⟩ := observed_error t n _
    rw [he]
    exact .failed (calm.trans hc)
  | answered ran calm =>
    rw [observed_ok]
    exact .answered ran (calm.trans hc)
  | stopped ran calm =>
    obtain ⟨e', he⟩ := observed_error t n _
    rw [he]
    exact .stopped ran (calm.trans hc)

theorem Called.of_calm {s t : Site} {answer : Except Stop op.Answer} {s' : Site} (h : Calm s t)
    (hnow : t.now = s.now) (hc : Called t key op answer s') : Called s key op answer s' := by
  obtain ⟨hrun, hcalm⟩ := leaseRun_calm key op h hnow
  cases hc with
  | failed calm => exact .failed (h.trans calm)
  | answered ran calm => exact .answered (hrun.symm.trans ran) (hcalm.trans calm)
  | stopped ran calm => exact .stopped (hrun.symm.trans ran) (hcalm.trans calm)

theorem guarded_called : Called s key op (s.guarded n key op).1 (s.guarded n key op).2 := by
  unfold guarded
  split
  · exact .failed (calm_setBreaker s n _)
  · rename_i b _
    exact (unguarded_called (s.setBreaker n b) n key op).of_calm key op (calm_setBreaker s n b) rfl

/-- What the operation of a call brings about, and what holds before it, holds after the call, if nothing but the
stores matters to it. -/
theorem Called.carry {s : Site} {key : String} {op : LeaseOp} {answer : Except Stop op.Answer} {s' : Site}
    (h : Called s key op answer s') {P : Site → Prop} (hcalm : ∀ {t u}, Calm t u → P t → P u)
    (hbefore : P s) (hran : P (s.leaseRun key op).2) : P s' := by
  cases h with
  | failed calm => exact hcalm calm hbefore
  | answered _ calm => exact hcalm calm hran
  | stopped _ calm => exact hcalm calm hran

theorem leaseRun_repository : (s.leaseRun key op).2.repository = s.repository := by
  unfold leaseRun
  split <;> rfl

theorem leaseRun_frame : Frame s (s.leaseRun key op).2 := by
  unfold leaseRun
  split <;> exact ⟨fun _ => rfl, rfl, rfl⟩

theorem Called.repository {s : Site} {key : String} {op : LeaseOp} {answer : Except Stop op.Answer}
    {s' : Site} (h : Called s key op answer s') : s'.repository = s.repository :=
  h.carry (P := fun t => t.repository = s.repository) (fun calm h => calm.repository.trans h) rfl
    (leaseRun_repository s key op)

theorem Called.frame {s : Site} {key : String} {op : LeaseOp} {answer : Except Stop op.Answer}
    {s' : Site} (h : Called s key op answer s') : Frame s s' :=
  h.carry (fun calm h => h.trans calm.toFrame) (.refl s) (leaseRun_frame s key op)

/-! The operations of the lock are single calls. -/

variable (fence : Fence)

theorem renew_site (d : Span) :
    (s.renew n key fence d).2 = (s.guarded n key (.extend fence d)).2 := by
  unfold renew
  split <;> simp_all

theorem check_site : (s.check n key fence).2 = (s.guarded n key .get).2 := by
  unfold check
  split
  · split <;> simp_all
  · simp_all
  · simp_all

theorem release_site : (s.release n key fence).2.1 = (s.unguarded n key (.delete fence)).2 := by
  unfold release
  split <;> simp_all

end Leases

section Repository

variable (s : Site) (op : RepositoryOp)

/-- How a call to the repository ends. -/
inductive Asked : Except Stop op.Answer → Site → Prop where
  | failed {e : Stop} {s' : Site} (calm : Calm s s') : Asked (.error e) s'
  | answered {a : op.Answer} {s' : Site} (ran : (s.repositoryRun op).1 = .ok a)
    (calm : Calm (s.repositoryRun op).2 s') : Asked (.ok a) s'
  | refused {e : Error} {s' : Site} (ran : (s.repositoryRun op).1 = .error e)
    (calm : Calm (s.repositoryRun op).2 s') : Asked (.error (.error e)) s'

theorem repositoryRun_calm {s t : Site} (h : Calm s t) :
    (t.repositoryRun op).1 = (s.repositoryRun op).1 ∧
      Calm (s.repositoryRun op).2 (t.repositoryRun op).2 := by
  unfold repositoryRun
  rw [h.repository, h.files]
  cases s.repository <;> exact ⟨rfl, ⟨h.settings, h.created, h.counters⟩, h.leases, rfl, rfl⟩

theorem repo_asked : Asked s op (s.repo op).1 (s.repo op).2 := by
  obtain ⟨hrun, hcalm⟩ := repositoryRun_calm op (calm_note s op.callName)
  have hrepo : s.repo op = s.disturbed op.callName fun s =>
    ((s.repositoryRun op).1.mapError .error, (s.repositoryRun op).2) := rfl
  rw [hrepo]
  rcases disturbed_cases s op.callName fun s =>
    ((s.repositoryRun op).1.mapError .error, (s.repositoryRun op).2) with ⟨e, he, h⟩ | ⟨h1, h2⟩
  · rw [he]
    exact .failed h
  · rw [h1, hrun]
    cases ha : (s.repositoryRun op).1 with
    | ok a => exact .answered ha (hcalm.trans h2)
    | error e => exact .refused ha (hcalm.trans h2)

theorem Asked.carry {s : Site} {op : RepositoryOp} {answer : Except Stop op.Answer} {s' : Site}
    (h : Asked s op answer s') {P : Site → Prop} (hcalm : ∀ {t u}, Calm t u → P t → P u)
    (hbefore : P s) (hran : P (s.repositoryRun op).2) : P s' := by
  cases h with
  | failed calm => exact hcalm calm hbefore
  | answered _ calm => exact hcalm calm hran
  | refused _ calm => exact hcalm calm hran

theorem repositoryRun_leases : (s.repositoryRun op).2.leases = s.leases := by
  unfold repositoryRun
  split <;> rfl

theorem repositoryRun_frame : Frame s (s.repositoryRun op).2 := by
  unfold repositoryRun
  split <;> exact ⟨fun _ => rfl, rfl, rfl⟩

theorem Asked.leases {s : Site} {op : RepositoryOp} {answer : Except Stop op.Answer} {s' : Site}
    (h : Asked s op answer s') : s'.leases = s.leases :=
  h.carry (P := fun t => t.leases = s.leases) (fun calm h => calm.leases.trans h) rfl (repositoryRun_leases s op)

theorem Asked.frame {s : Site} {op : RepositoryOp} {answer : Except Stop op.Answer} {s' : Site}
    (h : Asked s op answer s') : Frame s s' :=
  h.carry (fun calm h => h.trans calm.toFrame) (.refl s) (repositoryRun_frame s op)

end Repository

end FencedSessions.Site
