import FencedSessions.Proofs.Calls

/-! The records of a repository in memory. A save is accepted only by a writer that knows the stored
version and bears no stale fence, and then it replaces exactly one record by the next version. -/

namespace FencedSessions

namespace MemoryRepository

variable (m : MemoryRepository)

theorem create_cases (x : Session) :
    (∃ e, m.create x = (.error e, m)) ∨
    (m.find? x.id = none ∧ m.create x = (.ok 1, m.put x.id (.initial x))) := by
  unfold create
  cases m.find? x.id with
  | some old => exact Or.inl ⟨_, rfl⟩
  | none => exact Or.inr ⟨rfl, rfl⟩

theorem check_ok {old : StoredSession} {id : SessionId} {expected : Nat} {fence : Fence}
    (h : old.check id expected fence = .ok ()) :
    old.session.version = expected ∧ old.fence ≤ fence := by
  unfold StoredSession.check at h
  split at h
  · cases h
  · rename_i hf
    split at h
    · cases h
    · rename_i hv
      exact ⟨Decidable.not_not.mp hv, Nat.not_lt.mp hf⟩

theorem save_cases (x : Session) (expected : Nat) (fence : Fence) :
    (∃ e, m.save x expected fence = (.error e, m)) ∨
    (∃ old, m.find? x.id = some old ∧ old.session.version = expected ∧ old.fence ≤ fence ∧
      m.save x expected fence = (.ok (expected + 1), m.put x.id (.saved x expected fence))) := by
  unfold save
  cases hold : m.find? x.id with
  | none => exact Or.inl ⟨_, rfl⟩
  | some old =>
    dsimp only
    cases hc : old.check x.id expected fence with
    | error e => exact Or.inl ⟨e, rfl⟩
    | ok u =>
      obtain ⟨hv, hf⟩ := check_ok hc
      exact Or.inr ⟨old, rfl, hv, hf, rfl⟩

/-- A call that answers an error leaves every record as it was. -/
theorem run_error {op : RepositoryOp} {e : Error} (h : (m.run op).1 = .error e) :
    (m.run op).2 = m := by
  cases op with
  | load id => cases h
  | list => cases h
  | create x =>
    change (m.create x).1 = _ at h
    change (m.create x).2 = m
    rcases m.create_cases x with ⟨e', hc⟩ | ⟨-, hc⟩
    · rw [hc]
    · rw [hc] at h
      cases h
  | save x expected fence =>
    change (m.save x expected fence).1 = _ at h
    change (m.save x expected fence).2 = m
    rcases m.save_cases x expected fence with ⟨e', hc⟩ | ⟨old, -, -, -, hc⟩
    · rw [hc]
    · rw [hc] at h
      cases h

end MemoryRepository

theorem DirectoryRepository.save_version {t : FileTree} {directory : String} {x : Session}
    {expected : Nat} {fence : Fence} {version : Nat}
    (h : (save t directory x expected fence).1 = .ok version) : version = expected + 1 := by
  unfold save at h
  split at h
  · cases h
  · cases h
  · split at h
    · cases h
    · split at h
      · cases h; rfl
      · cases h

namespace Site

variable {s s' : Site} {m : MemoryRepository}

/-- Whatever the repository, an accepted save stores the version after the expected one. -/
theorem Asked.save_version {x : Session} {expected : Nat} {fence : Fence} {version : Nat}
    (h : Asked s (.save x expected fence) (.ok version) s') : version = expected + 1 := by
  cases h with
  | answered ran calm =>
    unfold repositoryRun at ran
    split at ran
    · rename_i m' _
      change (m'.save x expected fence).1 = _ at ran
      rcases m'.save_cases x expected fence with ⟨e, hc⟩ | ⟨old, -, -, -, hc⟩
      · rw [hc] at ran; cases ran
      · rw [hc] at ran; cases ran; rfl
    · exact DirectoryRepository.save_version ran

/-- A call to a repository in memory fails and leaves it as it was, or is carried out. -/
theorem Asked.memory {op : RepositoryOp} {answer : Except Stop op.Answer}
    (h : Asked s op answer s') (hm : s.repository = .memory m) :
    (∃ e, answer = .error e ∧ s'.repository = .memory m) ∨
    (∃ a, answer = .ok a ∧ (m.run op).1 = .ok a ∧ s'.repository = .memory (m.run op).2) := by
  have hrun : (s.repositoryRun op).1 = (m.run op).1 ∧
      (s.repositoryRun op).2.repository = .memory (m.run op).2 := by
    unfold repositoryRun
    rw [hm]
    exact ⟨rfl, rfl⟩
  cases h with
  | failed calm => exact Or.inl ⟨_, rfl, calm.repository.trans hm⟩
  | refused ran calm =>
    have hkeep := m.run_error (hrun.1.symm.trans ran)
    exact Or.inl ⟨_, rfl, by rw [calm.repository, hrun.2, hkeep]⟩
  | answered ran calm =>
    exact Or.inr ⟨_, rfl, hrun.1.symm.trans ran, calm.repository.trans hrun.2⟩

theorem Asked.memory_load {id : SessionId} {answer : Except Stop (Option Session)}
    (h : Asked s (.load id) answer s') (hm : s.repository = .memory m) :
    s'.repository = .memory m ∧
      ∀ found, answer = .ok found → found = (m.find? id).map (·.session) := by
  rcases h.memory hm with ⟨e, rfl, hs⟩ | ⟨a, rfl, hrun, hs⟩
  · exact ⟨hs, fun _ h => by cases h⟩
  · refine ⟨hs, fun found hfound => ?_⟩
    cases hfound
    exact (Except.ok.inj hrun).symm

end Site

end FencedSessions
