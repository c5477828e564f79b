import FencedSessions.Proofs.Acts
import FencedSessions.Proofs.Files

/-! What the lease store keeps of a key, in memory or in a directory. A call on the key changes it as
the operation says or not at all, and nothing else changes it. -/

namespace FencedSessions

namespace MemoryLeases

theorem run_state (m : MemoryLeases) (now : Instant) (key : String) (op : LeaseOp) :
    (m.run now key op).2.state key = ((m.state key).run key now op).2 :=
  state_setState_self m key _

theorem run_state_other (m : MemoryLeases) (now : Instant) {key other : String} (op : LeaseOp)
    (h : other ≠ key) : (m.run now key op).2.state other = m.state other :=
  state_setState_other m _ h

end MemoryLeases

namespace Site

/-- What the lease store has on record for a key. -/
def keyState (s : Site) (key : String) : KeyState :=
  match s.leases with
  | .memory m => m.state key
  | .directory d =>
    ((DirectoryLeases.load s.files (DirectoryLeases.path d key ".json")).toOption).getD {}

/-- Whether no session is kept in the file at a path. -/
def Apart (s : Site) (path : String) : Prop :=
  match s.repository with
  | .memory _ => True
  | .directory d => ∀ id, path ≠ DirectoryRepository.path d id

/-- The lease store keeps a state of a key. -/
def Keeps (s : Site) (key : String) (k : KeyState) : Prop :=
  match s.leases with
  | .memory m => m.state key = k
  | .directory d =>
    let file := DirectoryLeases.path d key ".json"
    DirectoryLeases.Stored s.files file k ∧ k.Storable ∧ s.Apart file

/-- Whether a call is as a key asks for: a call on the key computes a state that can be stored, and a
call on another key goes to another file. -/
def fits (s : Site) (key : String) : Option (String × LeaseOp) → Bool
  | none => true
  | some (key', op) =>
    match s.leases with
    | .memory _ => true
    | .directory d =>
      if key' = key then decide ((s.keyState key).run key s.now op).2.Storable
      else DirectoryLeases.path d key ".json" ≠ DirectoryLeases.path d key' ".json"

variable {s s' : Site} {key : String} {k : KeyState}

theorem keeps_memory {m : MemoryLeases} (h : s.leases = .memory m) :
    s.Keeps key k ↔ m.state key = k := by
  unfold Keeps
  rw [h]

theorem keeps_directory {d : String} (h : s.leases = .directory d) :
    s.Keeps key k ↔
      DirectoryLeases.Stored s.files (DirectoryLeases.path d key ".json") k ∧ k.Storable ∧
        s.Apart (DirectoryLeases.path d key ".json") := by
  unfold Keeps
  rw [h]

theorem Keeps.keyState (h : s.Keeps key k) : s.keyState key = k := by
  unfold Site.keyState
  cases hs : s.leases with
  | memory m => exact (keeps_memory hs).mp h
  | directory d =>
    obtain ⟨hstored, hk, -⟩ := (keeps_directory hs).mp h
    rcases hstored.load hk with hload | ⟨⟨e, hload⟩, rfl⟩ <;> simp only [hload] <;> rfl

theorem Keeps.alike (h : s.Keeps key k) (hs : Alike s s') : s'.Keeps key k := by
  unfold Keeps Apart at *
  rw [hs.leases, hs.files, hs.repository]
  exact h

theorem Alike.keyState (hs : Alike s s') (key : String) : s'.keyState key = s.keyState key := by
  unfold Site.keyState
  rw [hs.leases, hs.files]

theorem leaseRun_memory {m : MemoryLeases} (h : s.leases = .memory m) (key : String)
    (op : LeaseOp) : s.leaseRun key op =
      ((m.run s.now key op).1, { s with leases := .memory (m.run s.now key op).2 }) := by
  unfold leaseRun
  rw [h]

theorem leaseRun_directory {d : String} (h : s.leases = .directory d) (key : String)
    (op : LeaseOp) : s.leaseRun key op =
      ((DirectoryLeases.run s.files d s.now key op).1,
        { s with files := (DirectoryLeases.run s.files d s.now key op).2 }) := by
  unfold leaseRun
  rw [h]

/-- The operations of the lease store on a key do to its state what they say. -/
theorem leaseRun_keeps (h : s.Keeps key k) {key' : String} {op : LeaseOp}
    (hfit : s.fits key (some (key', op))) :
    ∃ k', (s.leaseRun key' op).2.Keeps key k' ∧
      (k' = k ∨ (key' = key ∧ k' = (k.run key s.now op).2)) := by
  have hstate := h.keyState
  cases hs : s.leases with
  | memory m =>
    have hm := (keeps_memory hs).mp h
    rw [leaseRun_memory hs]
    by_cases hkey : key' = key
    · subst hkey
      have hrun := m.run_state s.now key' op
      rw [hm] at hrun
      exact ⟨_, (keeps_memory rfl).mpr hrun, Or.inr ⟨rfl, rfl⟩⟩
    · have hrun := (m.run_state_other s.now op (Ne.symm hkey)).trans hm
      exact ⟨k, (keeps_memory rfl).mpr hrun, Or.inl rfl⟩
  | directory d =>
    obtain ⟨hstored, hk, hapart⟩ := (keeps_directory hs).mp h
    have hs' (files : FileTree) : ({ s with files } : Site).leases = .directory d := hs
    simp only [fits, hs, hstate] at hfit
    rw [leaseRun_directory hs]
    by_cases hkey : key' = key
    · subst hkey
      have hnew : (k.run key' s.now op).2.Storable := by simpa using hfit
      rcases (DirectoryLeases.run_stored hstored hk op).1 with hrun | hrun
      · exact ⟨k, (keeps_directory (hs' _)).mpr ⟨hrun, hk, hapart⟩, Or.inl rfl⟩
      · exact ⟨_, (keeps_directory (hs' _)).mpr ⟨hrun, hnew, hapart⟩, Or.inr ⟨rfl, rfl⟩⟩
    · obtain ⟨hlock, htmp⟩ := DirectoryLeases.path_ne d key key'
      have hfile : DirectoryLeases.path d key ".json" ≠ DirectoryLeases.path d key' ".json" := by
        simpa [hkey] using hfit
      have hrun := hstored.of_lookup (DirectoryLeases.run_lookup s.now op hlock htmp hfile)
      exact ⟨k, (keeps_directory (hs' _)).mpr ⟨hrun, hk, hapart⟩, Or.inl rfl⟩

/-- An operation on the lease store answers what it computes from the state of the key. -/
theorem leaseRun_answer (h : s.Keeps key k) {op : LeaseOp} {a : op.Answer}
    (ha : (s.leaseRun key op).1 = .ok a) : (k.run key s.now op).1 = .ok a := by
  cases hs : s.leases with
  | memory m =>
    rw [leaseRun_memory hs] at ha
    rw [← (keeps_memory hs).mp h]
    exact ha
  | directory d =>
    obtain ⟨hstored, hk, -⟩ := (keeps_directory hs).mp h
    rw [leaseRun_directory hs] at ha
    exact ((DirectoryLeases.run_stored hstored hk op).2 a ha).1

/-- An operation whose answer calls for it has put the new state of the key in place. -/
theorem leaseRun_written (h : s.Keeps key k) {op : LeaseOp} {a : op.Answer}
    (hfit : s.fits key (some (key, op))) (ha : (s.leaseRun key op).1 = .ok a)
    (hwrites : op.writes a) : (s.leaseRun key op).2.Keeps key (k.run key s.now op).2 := by
  have hstate := h.keyState
  cases hs : s.leases with
  | memory m =>
    have hrun := m.run_state s.now key op
    rw [(keeps_memory hs).mp h] at hrun
    rw [leaseRun_memory hs]
    exact (keeps_memory rfl).mpr hrun
  | directory d =>
    obtain ⟨hstored, hk, hapart⟩ := (keeps_directory hs).mp h
    simp only [fits, hs, hstate] at hfit
    rw [leaseRun_directory hs] at ha ⊢
    have hput := ((DirectoryLeases.run_stored hstored hk op).2 a ha).2 hwrites
    exact (keeps_directory (by exact hs)).mpr ⟨hput, by simpa using hfit, hapart⟩

/-- Whether the store can carry out a call on a key: in a directory the lock file of the key and its
state have to open. -/
def opens (s : Site) (key : String) : Bool :=
  match s.leases with
  | .memory _ => true
  | .directory d =>
    match s.files.touch (DirectoryLeases.path d key ".lock") with
    | .ok t => (DirectoryLeases.load t (DirectoryLeases.path d key ".json")).isOk
    | .error _ => false

/-- An operation that need not put anything back is carried out. -/
theorem leaseRun_opens (h : s.Keeps key k) (ho : s.opens key) {op : LeaseOp} {a : op.Answer}
    (ha : (k.run key s.now op).1 = .ok a) (hwrites : op.writes a = false) :
    (s.leaseRun key op).1 = .ok a := by
  cases hs : s.leases with
  | memory m =>
    rw [leaseRun_memory hs]
    rw [← (keeps_memory hs).mp h] at ha
    exact ha
  | directory d =>
    obtain ⟨hstored, hk, -⟩ := (keeps_directory hs).mp h
    simp only [opens, hs] at ho
    rw [leaseRun_directory hs]
    cases htouch : s.files.touch (DirectoryLeases.path d key ".lock") with
    | error f => simp [htouch] at ho
    | ok t =>
      have hkept := FileTree.touch_other htouch (DirectoryLeases.path_ne d key key).1
      rcases (hstored.of_lookup hkept).load hk with hload | ⟨⟨e, hload⟩, -⟩
      · generalize hrun : k.run key s.now op = ran at ha
        obtain ⟨answer, k'⟩ := ran
        cases ha
        simp [DirectoryLeases.run, htouch, hload, hrun, hwrites]
      · simp [htouch, hload, Except.isOk, Except.toBool] at ho

/-- An operation that changes nothing leaves what is on record for every key. -/
theorem leaseRun_keyState (h : s.Keeps key k) {op : LeaseOp} {a : op.Answer}
    (hrun : k.run key s.now op = (.ok a, k)) (hwrites : op.writes a = false) (key' : String) :
    (s.leaseRun key op).2.keyState key' = s.keyState key' := by
  cases hs : s.leases with
  | memory m =>
    have hm := (keeps_memory hs).mp h
    rw [leaseRun_memory hs]
    simp only [keyState, hs]
    by_cases hkey : key' = key
    · subst hkey
      rw [m.run_state, hm, hrun]
    · exact m.run_state_other s.now op hkey
  | directory d =>
    obtain ⟨hstored, hk, -⟩ := (keeps_directory hs).mp h
    have hlock := (DirectoryLeases.path_ne d key' key).1
    rw [leaseRun_directory hs]
    simp only [keyState, hs]
    refine DirectoryLeases.load_lookup ?_
    rcases DirectoryLeases.run_cases s.files d s.now key op with ⟨e, hr⟩ | ⟨t, htouch, hrest⟩
    · rw [hr]
    · have hkept := FileTree.touch_other htouch hlock
      rcases hrest with ⟨e, hr⟩ | ⟨k', a', hload, ha, ⟨-, hr⟩ | ⟨hput, -⟩⟩
      · rw [hr]
        exact hkept
      · rw [hr]
        exact hkept
      · have hstored' := hstored.of_lookup
          (FileTree.touch_other htouch (DirectoryLeases.path_ne d key key).1)
        obtain rfl := hstored'.load_eq hk hload
        rw [hrun] at ha
        cases ha
        rw [hwrites] at hput
        cases hput

theorem Called.keeps {key' : String} {op : LeaseOp} {answer : Except Stop op.Answer}
    (hc : Called s key' op answer s') (h : s.Keeps key k) (hfit : s.fits key (some (key', op))) :
    ∃ k', s'.Keeps key k' ∧ (k' = k ∨ (key' = key ∧ k' = (k.run key s.now op).2)) := by
  refine hc.carry (P := fun t => ∃ k', t.Keeps key k' ∧ (k' = k ∨ (key' = key ∧ k' = (k.run key s.now op).2)))
    ?_ ⟨k, h, Or.inl rfl⟩ (leaseRun_keeps h hfit)
  rintro t u calm ⟨k', ht, hk'⟩
  exact ⟨k', ht.alike calm.alike, hk'⟩

/-- A call whose answer calls for it has put the new state of the key in place. -/
theorem Called.written {op : LeaseOp} {a : op.Answer} (hc : Called s key op (.ok a) s')
    (h : s.Keeps key k) (hfit : s.fits key (some (key, op))) (hwrites : op.writes a) :
    (k.run key s.now op).1 = .ok a ∧ s'.Keeps key (k.run key s.now op).2 := by
  cases hc with
  | answered ran calm =>
    exact ⟨leaseRun_answer h ran, (leaseRun_written h hfit ran hwrites).alike calm.alike⟩

theorem Called.memory {key' : String} {op : LeaseOp} {answer : Except Stop op.Answer}
    (hc : Called s key' op answer s') {m : MemoryLeases} (hs : s.leases = .memory m) :
    ∃ m', s'.leases = .memory m' := by
  have hrun : (s.leaseRun key' op).2.leases = .memory (m.run s.now key' op).2 := by
    rw [leaseRun_memory hs]
  exact hc.carry (P := fun t => ∃ m', t.leases = .memory m') (fun calm ⟨m', h⟩ => ⟨m', calm.leases.trans h⟩)
    ⟨m, hs⟩ ⟨_, hrun⟩

theorem Called.keyState {op : LeaseOp} {answer : Except Stop op.Answer}
    (hc : Called s key op answer s') {key' : String}
    (hrun : (s.leaseRun key op).2.keyState key' = s.keyState key') :
    s'.keyState key' = s.keyState key' :=
  hc.carry (P := fun t => t.keyState key' = s.keyState key')
    (fun calm h => (calm.alike.keyState key').trans h) rfl hrun

/-- The repository leaves alone a file in which no session is kept. -/
theorem repositoryRun_apart {path : String} (h : s.Apart path)
    (hlast : path.toList.getLast? ≠ some 'p') (op : RepositoryOp) :
    (s.repositoryRun op).2.Apart path ∧
      (s.repositoryRun op).2.files.lookup? path = s.files.lookup? path := by
  unfold Apart at h
  unfold repositoryRun
  cases hr : s.repository with
  | memory m => exact ⟨trivial, rfl⟩
  | directory d =>
    simp only [hr] at h
    refine ⟨by simpa only [Apart, hr] using h, DirectoryRepository.run_lookup ?_ op⟩
    refine fun id => ⟨h id, fun heq => hlast ?_⟩
    rw [heq, String.toList_append, List.getLast?_append]
    rfl

theorem repositoryRun_keeps (h : s.Keeps key k) (op : RepositoryOp) :
    (s.repositoryRun op).2.Keeps key k := by
  cases hs : s.leases with
  | memory m =>
    have hm := (keeps_memory hs).mp h
    exact (keeps_memory ((repositoryRun_leases s op).trans hs)).mpr hm
  | directory d =>
    obtain ⟨hstored, hk, hapart⟩ := (keeps_directory hs).mp h
    have hlast : (DirectoryLeases.path d key ".json").toList.getLast? ≠ some 'p' := by
      rw [DirectoryLeases.path_last d key (by decide)]
      decide
    obtain ⟨hapart', hlookup⟩ := repositoryRun_apart hapart hlast op
    exact (keeps_directory ((repositoryRun_leases s op).trans hs)).mpr
      ⟨hstored.of_lookup hlookup, hk, hapart'⟩

theorem Asked.keeps {op : RepositoryOp} {answer : Except Stop op.Answer}
    (ha : Asked s op answer s') (h : s.Keeps key k) : s'.Keeps key k :=
  ha.carry (P := fun t => t.Keeps key k) (fun calm h => h.alike calm.alike) h (repositoryRun_keeps h op)

end Site

namespace Crowd

variable {c : Crowd} {key : String} {k : KeyState}

/-- An act changes the state of a key only by the call that it makes about this key. -/
theorem act_keeps (h : c.site.Keeps key k) {a : Act} (hfit : c.site.fits key (c.call? a)) :
    ∃ k', (c.act a).site.Keeps key k' ∧
      (k' = k ∨ ∃ op, c.call? a = some (key, op) ∧ k' = (k.run key c.now op).2) := by
  cases hcall : c.call? a with
  | none =>
    refine ⟨k, ?_, Or.inl rfl⟩
    rcases c.act_uncalled hcall with hs | ⟨op, hs⟩
    · exact h.alike hs
    · exact ((Site.repo_asked c.site op).keeps h).alike hs
  | some call =>
    obtain ⟨key', op⟩ := call
    rw [hcall] at hfit
    obtain ⟨answer, t, hcalled, he⟩ := c.act_called hcall
    obtain ⟨k', hkeeps, hk'⟩ := hcalled.keeps h hfit
    refine ⟨k', hkeeps.alike he.alike, ?_⟩
    rcases hk' with rfl | ⟨rfl, rfl⟩
    · exact Or.inl rfl
    · exact Or.inr ⟨op, rfl, rfl⟩

/-- A lease store in memory stays one. -/
theorem act_memory {m : MemoryLeases} (h : c.site.leases = .memory m) (a : Act) :
    ∃ m', (c.act a).site.leases = .memory m' := by
  cases hcall : c.call? a with
  | none =>
    rcases c.act_uncalled hcall with hs | ⟨op, hs⟩
    · exact ⟨m, hs.leases.trans h⟩
    · exact ⟨m, hs.leases.trans ((Site.repo_asked c.site op).leases.trans h)⟩
  | some call =>
    obtain ⟨answer, t, hcalled, he⟩ := c.act_called hcall
    obtain ⟨m', hm'⟩ := hcalled.memory h
    exact ⟨m', he.alike.leases.trans hm'⟩

end Crowd

end FencedSessions
