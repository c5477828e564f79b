import FencedSessions.Proofs.SessionFiles

/-! Calls that nothing disturbs, to stores that have room for what is put down: each is answered, and
leaves exactly what its operation makes of the stores. -/

namespace FencedSessions

/-- What is used up or about other calls does not disturb a call, and stays in the plan. -/
theorem Disturbance.take_none {plan : List Disturbance} {call : String}
    (h : ∀ d ∈ plan, d.times = 0 ∨ d.concerns call = false) : take plan call = (none, plan) := by
  induction plan with
  | nil => rfl
  | cons d rest ih =>
    have hd : (0 < d.times && d.concerns call) = false := by
      rcases h d (by simp) with hd | hd <;> simp [hd]
    have hrest := ih fun d' hd' => h d' (by simp [hd'])
    simp [take, hd, hrest]

namespace Site

variable {s s' t : Site} {n : Nat} {key : String}

/-- Whether no disturbance that is left concerns a call. -/
def Undisturbed (s : Site) (call : String) : Prop := ∀ d ∈ s.plan, d.times = 0 ∨ d.concerns call = false

theorem Undisturbed.note {call : String} (h : s.Undisturbed call) :
    s.note call = (none, { s with calls := (s.note call).2.calls }) := by
  unfold Site.note
  rw [Disturbance.take_none h]

/-- The calls of a step. -/
def stepCalls : List String :=
  ["store.enqueue", "store.position", "store.cas", "store.remove", "store.extend", "store.delete",
    "repo.load", "repo.save"]

/-- Nothing disturbs the calls of a step, and the breaker of a node lets them through. -/
structure Quiet (s : Site) (n : Nat) : Prop where
  undisturbed : ∀ call ∈ stepCalls, s.Undisturbed call
  closed : ∃ failures, s.breaker n = .closed failures

/-- The stores, the settings and the time are the same, and it is still quiet. -/
structure Steady (n : Nat) (s s' : Site) : Prop extends Alike s s' where
  now : s'.now = s.now
  timer : s'.timer = s.timer
  quiet : s.Quiet n → s'.Quiet n

theorem Steady.trans {a b c : Site} (h : Steady n a b) (h' : Steady n b c) : Steady n a c where
  leases := h'.leases.trans h.leases
  repository := h'.repository.trans h.repository
  files := h'.files.trans h.files
  settings i := (h'.settings i).trans (h.settings i)
  now := h'.now.trans h.now
  timer := h'.timer.trans h.timer
  quiet hq := h'.quiet (h.quiet hq)

theorem steady_calls (s : Site) (n : Nat) (calls : List (String × Nat)) : Steady n s { s with calls } where
  toAlike := ⟨rfl, rfl, rfl, fun _ => rfl⟩
  now := rfl
  timer := rfl
  quiet hq := ⟨hq.undisturbed, hq.closed⟩

theorem steady_emit (s : Site) (n : Nat) (e : Event) : Steady n s (s.emit e) where
  toAlike := ⟨rfl, rfl, rfl, fun _ => rfl⟩
  now := rfl
  timer := rfl
  quiet hq := ⟨hq.undisturbed, hq.closed⟩

theorem steady_closed (s : Site) (n : Nat) : Steady n s (s.setBreaker n (.closed 0)) where
  toAlike := (calm_setBreaker s n _).alike
  now := rfl
  timer := rfl
  quiet hq := by
    refine ⟨hq.undisturbed, 0, ?_⟩
    unfold breaker node? setBreaker
    rw [List.getElem?_modify]
    cases s.nodes[n]? with
    | none => rfl
    | some node => simp

theorem setBreaker_self (s : Site) (n : Nat) : s.setBreaker n (s.breaker n) = s := by
  have hnodes : s.nodes.modify n (fun node => { node with breaker := s.breaker n }) = s.nodes := by
    apply List.ext_getElem?
    intro i
    rw [List.getElem?_modify]
    by_cases hi : n = i
    · subst hi
      unfold breaker node?
      cases s.nodes[n]? <;> simp
    · simp [hi]
  unfold setBreaker
  rw [hnodes]

/-- A call to the lease store that nothing disturbs is carried out. -/
theorem lease_served {op : LeaseOp} {a : op.Answer} (h : s.Undisturbed op.callName)
    (hrun : s.leaseRun key op = (.ok a, t)) (n : Nat) :
    ∃ s', s.lease key op = (.ok a, s') ∧ Steady n t s' := by
  have hcalls (calls : List (String × Nat)) : ({ s with calls } : Site).leaseRun key op =
      ((s.leaseRun key op).1, { (s.leaseRun key op).2 with calls }) := by
    unfold leaseRun
    cases s.leases <;> rfl
  have hlease : s.lease key op = (.ok a, { t with calls := (s.note op.callName).2.calls }) := by
    unfold lease disturbed
    rw [h.note]
    dsimp only
    rw [hcalls, hrun]
  exact ⟨_, hlease, steady_calls t n _⟩

theorem unguarded_served {op : LeaseOp} {a : op.Answer} (h : s.Undisturbed op.callName)
    (hrun : s.leaseRun key op = (.ok a, t)) (n : Nat) :
    ∃ s', s.unguarded n key op = (.ok a, s') ∧ Steady n t s' := by
  obtain ⟨s₁, hlease, hs₁⟩ := lease_served h hrun n
  refine ⟨s₁.setBreaker n (.closed 0), ?_, hs₁.trans (steady_closed s₁ n)⟩
  unfold unguarded
  rw [hlease]
  rfl

/-- The breaker lets a call through, and closes again. -/
theorem guarded_served {op : LeaseOp} {a : op.Answer} (hquiet : s.Quiet n)
    (h : op.callName ∈ stepCalls) (hrun : s.leaseRun key op = (.ok a, t)) :
    ∃ s', s.guarded n key op = (.ok a, s') ∧ Steady n t s' := by
  obtain ⟨failures, hclosed⟩ := hquiet.closed
  obtain ⟨s', hserved, hs'⟩ := unguarded_served (hquiet.undisturbed _ h) hrun n
  have hself := setBreaker_self s n
  rw [hclosed] at hself
  refine ⟨s', ?_, hs'⟩
  unfold guarded
  rw [hclosed]
  dsimp only [Breaker.pass]
  rw [hself, hserved]

/-- A call to the repository that nothing disturbs is carried out. -/
theorem repo_served {op : RepositoryOp} {a : op.Answer} (h : s.Undisturbed op.callName)
    (hrun : s.repositoryRun op = (.ok a, t)) (n : Nat) :
    ∃ s', s.repo op = (.ok a, s') ∧ Steady n t s' := by
  have hcalls (calls : List (String × Nat)) : ({ s with calls } : Site).repositoryRun op =
      ((s.repositoryRun op).1, { (s.repositoryRun op).2 with calls }) := by
    unfold repositoryRun
    cases s.repository <;> rfl
  have hrepo : s.repo op = (.ok a, { t with calls := (s.note op.callName).2.calls }) := by
    unfold repo disturbed
    rw [h.note]
    dsimp only
    rw [hcalls, hrun]
    rfl
  exact ⟨_, hrepo, steady_calls t n _⟩

/-- The time, the settings and the place of the sessions are the same, and it is still quiet. -/
structure Kept (n : Nat) (s t : Site) : Prop where
  now : t.now = s.now
  timer : t.timer = s.timer
  settings : ∀ i, t.settings i = s.settings i
  directory : t.sessionDirectory? = s.sessionDirectory?
  quiet : s.Quiet n → t.Quiet n

theorem Kept.refl (n : Nat) (s : Site) : Kept n s s := ⟨rfl, rfl, fun _ => rfl, rfl, id⟩

theorem Kept.trans {a b c : Site} (h : Kept n a b) (h' : Kept n b c) : Kept n a c where
  now := h'.now.trans h.now
  timer := h'.timer.trans h.timer
  settings i := (h'.settings i).trans (h.settings i)
  directory := h'.directory.trans h.directory
  quiet hq := h'.quiet (h.quiet hq)

theorem Steady.kept (h : Steady n s t) : Kept n s t :=
  ⟨h.now, h.timer, h.settings, h.toAlike.sessionDirectory?, h.quiet⟩

theorem leaseRun_kept (s : Site) (n : Nat) (key : String) (op : LeaseOp) :
    Kept n s (s.leaseRun key op).2 := by
  have hdirectory : (s.leaseRun key op).2.sessionDirectory? = s.sessionDirectory? := by
    unfold sessionDirectory?
    rw [leaseRun_repository]
  unfold leaseRun at hdirectory ⊢
  cases hl : s.leases <;> rw [hl] at hdirectory <;>
    exact ⟨rfl, rfl, fun _ => rfl, hdirectory, fun hq => ⟨hq.undisturbed, hq.closed⟩⟩

theorem repositoryRun_kept (s : Site) (n : Nat) (op : RepositoryOp) :
    Kept n s (s.repositoryRun op).2 := by
  unfold repositoryRun
  cases hr : s.repository <;>
    exact ⟨rfl, rfl, fun _ => rfl, by simp [sessionDirectory?, hr],
      fun hq => ⟨hq.undisturbed, hq.closed⟩⟩

end Site

namespace DirectoryRepository

open FileTree

variable {t : FileTree} {d : String} {m : MemoryRepository} {x : Session} {old : StoredSession}
  {expected : Nat} {fence : Fence}

/-- With room for its files, a save that is not refused is carried out. -/
theorem save_allowed (h : ∀ id, Filed t d id (m.find? id)) (hold : m.find? x.id = some old)
    (hshallow : old.session.Shallow) (hcheck : old.check x.id expected fence = .ok ())
    (hpath : t.Allows (path d x.id)) (hdraft : t.Allows (draft d x.id))
    (hr : (StoredSession.saved x expected fence).Storable) :
    (save t d x expected fence).1 = .ok (expected + 1) ∧ t.SameDirectories (save t d x expected fence).2 ∧
      ∀ id, Filed (save t d x expected fence).2 d id ((m.put x.id (.saved x expected fence)).find? id) := by
  have hfind := (h x.id).find?_eq hpath fun r hr' => by
    rw [hold] at hr'
    cases hr'
    exact hshallow
  rw [hold] at hfind
  obtain ⟨hok, hsame, -⟩ := store_allowed (r := .saved x expected fence) hpath hdraft
  have hsave : (save t d x expected fence).1 = .ok (expected + 1) ∧
      t.SameDirectories (save t d x expected fence).2 := by
    simp only [save, hfind, hcheck]
    generalize store t d (.saved x expected fence) = stored at hok hsame ⊢
    obtain ⟨answer, t'⟩ := stored
    cases hok
    exact ⟨rfl, hsame⟩
  refine ⟨hsave.1, hsave.2, ?_⟩
  rcases save_filed h fun _ => hr with ⟨e, he, -⟩ | ⟨old', -, -, -, -, hfiled⟩
  · rw [hsave.1] at he
    cases he
  · exact hfiled

end DirectoryRepository

theorem StoredSession.check_passes {old : StoredSession} {expected : Nat} {fence : Fence}
    (hversion : old.session.version = expected) (hfence : old.fence ≤ fence) (id : SessionId) :
    old.check id expected fence = .ok () := by
  have hnot : ¬fence < old.fence := Nat.not_lt.mpr hfence
  simp [check, hnot, hversion]

namespace Site

/-- The lease store keeps a state of a key, and has room for so many more operations on it. -/
structure Stocked (s : Site) (key : String) (n : Nat) (k : KeyState) : Prop where
  keeps : s.Keeps key k
  housed : ∀ d, s.leases = .directory d → DirectoryLeases.Houses s.files d key ∧ k.Room n

/-- The stores have room for what a step puts down: so many operations on the lease of a session, and
the file of the session. -/
structure Provides (s : Site) (id : SessionId) (n : Nat) (k : KeyState) (m : MemoryRepository) : Prop where
  keeps : s.Keeps id.text k
  holds : s.Holds m
  housed : ∀ d, s.leases = .directory d → DirectoryLeases.Houses s.files d id.text ∧ k.Room n
  allowed : ∀ d, s.repository = .directory d → s.files.Allows (DirectoryRepository.path d id) ∧
    s.files.Allows (DirectoryRepository.draft d id)

variable {s s' : Site} {id : SessionId} {key : String} {n : Nat} {k : KeyState} {m : MemoryRepository}

theorem Stocked.alike (h : s.Stocked key n k) (hs : Alike s s') : s'.Stocked key n k where
  keeps := h.keeps.alike hs
  housed := by
    rw [hs.leases, hs.files]
    exact h.housed

/-- An operation within range is carried out on the state of the key and put down. -/
theorem Stocked.leaseRun (h : s.Stocked key (n + 1) k) {op : LeaseOp} {a : op.Answer}
    (hrange : op.inRange s.now) (ha : (k.run key s.now op).1 = .ok a) (hwrites : op.writes a) :
    (s.leaseRun key op).1 = .ok a ∧ (s.leaseRun key op).2.Stocked key n (k.run key s.now op).2 := by
  cases hl : s.leases with
  | memory leases =>
    have hanswer : (s.leaseRun key op).1 = .ok a := by
      rw [leaseRun_memory hl]
      rw [← (keeps_memory hl).mp h.keeps] at ha
      exact ha
    have hfit : s.fits key (some (key, op)) := by simp [fits, hl]
    refine ⟨hanswer, leaseRun_written h.keeps hfit hanswer hwrites, ?_⟩
    rw [leaseRun_memory hl]
    intro d hd
    cases hd
  | directory d =>
    obtain ⟨hstored, hk, -⟩ := (keeps_directory hl).mp h.keeps
    obtain ⟨hhoused, hroom⟩ := h.housed d hl
    obtain ⟨hk', hroom'⟩ := hk.run hroom hrange key
    have hanswer : (s.leaseRun key op).1 = .ok a := by
      rw [leaseRun_directory hl]
      dsimp only
      exact (DirectoryLeases.run_filed hhoused hstored hk ha).1
    have hfit : s.fits key (some (key, op)) := by simp [fits, hl, h.keeps.keyState, hk']
    refine ⟨hanswer, leaseRun_written h.keeps hfit hanswer hwrites, ?_⟩
    rw [leaseRun_directory hl]
    intro d' hd'
    have hd : s.leases = .directory d' := hd'
    obtain rfl := LeaseBackend.directory.inj (hl.symm.trans hd)
    exact ⟨hhoused.run (DirectoryLeases.run_directories s.files d s.now key op), hroom'⟩

/-- Where a file can be put it can be put after an operation on the lease store. -/
theorem leaseRun_allows {p : String} (h : s.files.Allows p) (key : String) (op : LeaseOp) :
    (s.leaseRun key op).2.files.Allows p := by
  cases hl : s.leases with
  | memory leases =>
    rw [leaseRun_memory hl]
    exact h
  | directory d =>
    rw [leaseRun_directory hl]
    exact h.stay (DirectoryLeases.run_directories s.files d s.now key op)
      (DirectoryLeases.run_root s.files d s.now key op)

theorem Provides.alike (h : s.Provides id n k m) (hs : Alike s s') : s'.Provides id n k m where
  keeps := h.keeps.alike hs
  holds := h.holds.alike hs
  housed := by
    rw [hs.leases, hs.files]
    exact h.housed
  allowed := by
    rw [hs.repository, hs.files]
    exact h.allowed

theorem Provides.stocked (h : s.Provides id n k m) : s.Stocked id.text n k := ⟨h.keeps, h.housed⟩

theorem Provides.leaseRun (h : s.Provides id (n + 1) k m) {op : LeaseOp} {a : op.Answer}
    (hrange : op.inRange s.now) (ha : (k.run id.text s.now op).1 = .ok a) (hwrites : op.writes a) :
    (s.leaseRun id.text op).1 = .ok a ∧
      (s.leaseRun id.text op).2.Provides id n (k.run id.text s.now op).2 m := by
  obtain ⟨hanswer, hstocked⟩ := h.stocked.leaseRun hrange ha hwrites
  refine ⟨hanswer, hstocked.keeps, leaseRun_holds h.holds id.text op, hstocked.housed, fun d hd => ?_⟩
  rw [leaseRun_repository] at hd
  obtain ⟨hpath, hdraft⟩ := h.allowed d hd
  exact ⟨leaseRun_allows hpath id.text op, leaseRun_allows hdraft id.text op⟩

theorem Provides.load (h : s.Provides id n k m)
    (hread : s.sessionDirectory? ≠ none → ∀ old, m.find? id = some old → old.session.Shallow) :
    s.repositoryRun (.load id) = (.ok ((m.find? id).map (·.session)), s) := by
  cases hr : s.repository with
  | memory m' =>
    obtain rfl := (holds_memory hr).mp h.holds
    unfold repositoryRun
    simp only [hr, MemoryRepository.run]
    rw [← hr]
  | directory d =>
    obtain ⟨hfiled, -⟩ := (holds_directory hr).mp h.holds
    have hfind := (hfiled id).find?_eq (h.allowed d hr).1 (hread (by simp [sessionDirectory?, hr]))
    rw [repositoryRun_directory hr]
    simp only [DirectoryRepository.run, hfind, Except.map]

/-- A save by the holder of the last fence is carried out. -/
theorem Provides.save (h : s.Provides id n k m) {x : Session} {old : StoredSession} {fence : Fence}
    (hid : x.id = id) (hold : m.find? id = some old) (hversion : old.session.version = x.version)
    (hfence : old.fence ≤ fence) (hadmits : s.Admits (.saved x x.version fence))
    (hread : s.sessionDirectory? ≠ none → old.session.Shallow) :
    (s.repositoryRun (.save x x.version fence)).1 = .ok (x.version + 1) ∧
      (s.repositoryRun (.save x x.version fence)).2.Provides id n k (m.put id (.saved x x.version fence)) := by
  subst hid
  have hcheck := StoredSession.check_passes hversion hfence x.id
  have hkeeps := repositoryRun_keeps h.keeps (.save x x.version fence)
  have hleases := repositoryRun_leases s (.save x x.version fence)
  cases hr : s.repository with
  | memory m' =>
    obtain rfl := (holds_memory hr).mp h.holds
    have hsave : m'.save x x.version fence =
        (.ok (x.version + 1), m'.put x.id (.saved x x.version fence)) := by
      simp only [MemoryRepository.save, hold, hcheck]
    have hrun : s.repositoryRun (.save x x.version fence) = (.ok (x.version + 1),
        { s with repository := .memory (m'.put x.id (.saved x x.version fence)) }) := by
      unfold repositoryRun
      simp only [hr, MemoryRepository.run, hsave]
    rw [hrun] at hkeeps ⊢
    exact ⟨rfl, hkeeps, (holds_memory rfl).mpr rfl, h.housed, fun d hd => by cases hd⟩
  | directory d =>
    obtain ⟨hfiled, hseparate⟩ := (holds_directory hr).mp h.holds
    have hdirectory : s.sessionDirectory? ≠ none := by simp [sessionDirectory?, hr]
    obtain ⟨hpath, hdraft⟩ := h.allowed d hr
    obtain ⟨hok, hsame, hfiled'⟩ := DirectoryRepository.save_allowed hfiled hold (hread hdirectory) hcheck
      hpath hdraft (hadmits hdirectory)
    have hroot := DirectoryRepository.run_root s.files d (.save x x.version fence)
    rw [repositoryRun_directory hr] at hkeeps ⊢
    refine ⟨hok, hkeeps, holds_files hr h.holds hfiled', ?_, ?_⟩
    · intro d' hd'
      obtain ⟨hhoused, hroom⟩ := h.housed d' hd'
      exact ⟨fun e he => (hhoused e he).stay hsame hroot, hroom⟩
    · intro d' hd'
      have hd : s.repository = .directory d' := hd'
      obtain rfl := RepositoryBackend.directory.inj (hr.symm.trans hd)
      exact ⟨hpath.stay hsame hroot, hdraft.stay hsame hroot⟩

end Site

end FencedSessions
