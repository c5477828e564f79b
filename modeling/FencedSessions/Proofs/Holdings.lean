import FencedSessions.Proofs.Keeping
import FencedSessions.Proofs.Reload

/-! What a repository holds, in memory or in a directory, as the records of a repository in memory. A
call changes the records as the operation says, or fails and leaves them as they are, and no call to
the lease store changes them. -/

namespace FencedSessions

/-- Is within the ranges of its fields. -/
structure StoredSession.Storable (r : StoredSession) : Prop where
  fence : r.fence.value < Word.size64
  session : r.session.Storable

namespace DirectoryRepository

variable {t t' : FileTree} {d : String} {id : SessionId} {r : StoredSession} {x : Session}

theorem path_last (d : String) (id : SessionId) : (path d id).toList.getLast? = some 'n' := by
  simp only [path, String.toList_append, List.getLast?_append]
  rfl

/-- No record is kept in a file that is still being written. -/
theorem path_ne (d : String) (id other : SessionId) : path d id ≠ path d other ++ ".tmp" := by
  intro heq
  have hlast := congrArg (·.toList.getLast?) heq
  simp only [path_last, String.toList_append, List.getLast?_append] at hlast
  cases hlast

/-- The file of a session holds a record, or there is none. -/
def Filed (t : FileTree) (d : String) (id : SessionId) : Option StoredSession → Prop
  | none => t.lookup? (path d id) = none
  | some r => t.read (path d id) = .ok r.toJson.indented ∧ r.session.id = id ∧ r.Storable

theorem Filed.of_lookup {o : Option StoredSession} (h : Filed t d id o)
    (heq : t'.lookup? (path d id) = t.lookup? (path d id)) : Filed t' d id o := by
  cases o with
  | none => exact heq.trans h
  | some r =>
    obtain ⟨hread, hr⟩ := h
    obtain ⟨hname, hlookup⟩ := FileTree.read_ok.mp hread
    exact ⟨FileTree.read_ok.mpr ⟨hname, heq.trans hlookup⟩, hr⟩

/-- What is found is the record. -/
theorem Filed.find? {o found : Option StoredSession} (h : Filed t d id o)
    (hfound : find? t d id = .ok found) : found = o := by
  unfold DirectoryRepository.find? at hfound
  cases o with
  | none =>
    split at hfound
    · cases hfound
      rfl
    · cases hfound
    · rename_i hread
      have hlookup := (FileTree.read_ok.mp hread).2
      rw [show t.lookup? (path d id) = none from h] at hlookup
      cases hlookup
  | some r =>
    obtain ⟨hread, -, hr⟩ := h
    rw [hread] at hfound
    dsimp only at hfound
    rw [Json.Reader.ofText_indented (StoredSession.plain_toJson hr.fence hr.session)] at hfound
    rcases StoredSession.reader_toJson hr.fence hr.session with ⟨-, hread'⟩ | ⟨-, e, hread'⟩
    · rw [hread'] at hfound
      cases hfound
      rfl
    · rw [hread'] at hfound
      cases hfound

/-- A record that is not put in place leaves what was there. -/
theorem store_error {e : Error} (h : (store t d r).1 = .error e) :
    (store t d r).2.lookup? (path d r.session.id) = t.lookup? (path d r.session.id) := by
  unfold store at h ⊢
  dsimp only at h ⊢
  split at h
  · rfl
  · rename_i t₁ hw
    split at h
    · rw [FileTree.write_ok hw]
      exact FileTree.lookup?_put_other t _ (path_ne d _ _)
    · cases h

/-- What a record that is put in place, or is not, makes of the files of sessions. -/
theorem store_filed {m : MemoryRepository} (h : ∀ id, Filed t d id (m.find? id))
    (hr : (store t d r).1 = .ok () → r.Storable) :
    (∃ e, (store t d r).1 = .error e ∧ ∀ id, Filed (store t d r).2 d id (m.find? id)) ∨
      ((store t d r).1 = .ok () ∧
        ∀ id, Filed (store t d r).2 d id ((m.put r.session.id r).find? id)) := by
  have hother (id : SessionId) (hid : id ≠ r.session.id) :
      (store t d r).2.lookup? (path d id) = t.lookup? (path d id) :=
    store_lookup (path_ne d id _) (path_other hid.symm).1
  cases hs : (store t d r).1 with
  | error e =>
    refine Or.inl ⟨e, rfl, fun id => (h id).of_lookup ?_⟩
    by_cases hid : id = r.session.id
    · rw [hid]
      exact store_error hs
    · exact hother id hid
  | ok u =>
    refine Or.inr ⟨rfl, fun id => ?_⟩
    by_cases hid : id = r.session.id
    · subst hid
      rw [MemoryRepository.find?_put_self]
      exact ⟨store_ok (Prod.ext hs rfl), rfl, hr hs⟩
    · rw [MemoryRepository.find?_put_other m r hid]
      exact (h id).of_lookup (hother id hid)

theorem create_filed {m : MemoryRepository} (h : ∀ id, Filed t d id (m.find? id))
    (hx : (create t d x).1 = .ok 1 → (StoredSession.initial x).Storable) :
    (∃ e, (create t d x).1 = .error e ∧ ∀ id, Filed (create t d x).2 d id (m.find? id)) ∨
      ((create t d x).1 = .ok 1 ∧ m.find? x.id = none ∧
        ∀ id, Filed (create t d x).2 d id ((m.put x.id (.initial x)).find? id)) := by
  unfold create at hx ⊢
  split
  · exact Or.inl ⟨_, rfl, h⟩
  · exact Or.inl ⟨_, rfl, h⟩
  · rename_i hnone
    simp only [hnone] at hx
    have hfiled := store_filed (r := .initial x) h fun hs => hx (by
      generalize store t d (.initial x) = stored at hs
      obtain ⟨answer, t'⟩ := stored
      cases hs
      rfl)
    generalize store t d (.initial x) = stored at hfiled ⊢
    obtain ⟨answer, t'⟩ := stored
    rcases hfiled with ⟨e, hs, hkept⟩ | ⟨hs, hput⟩
    · cases hs
      exact Or.inl ⟨e, rfl, hkept⟩
    · cases hs
      exact Or.inr ⟨rfl, ((h x.id).find? hnone).symm, hput⟩

theorem save_filed {m : MemoryRepository} {expected : Nat} {fence : Fence}
    (h : ∀ id, Filed t d id (m.find? id))
    (hx : (save t d x expected fence).1 = .ok (expected + 1) →
      (StoredSession.saved x expected fence).Storable) :
    (∃ e, (save t d x expected fence).1 = .error e ∧
      ∀ id, Filed (save t d x expected fence).2 d id (m.find? id)) ∨
    (∃ old, (save t d x expected fence).1 = .ok (expected + 1) ∧ m.find? x.id = some old ∧
      old.session.version = expected ∧ old.fence ≤ fence ∧
      ∀ id, Filed (save t d x expected fence).2 d id ((m.put x.id (.saved x expected fence)).find? id)) := by
  unfold save at hx ⊢
  split
  · exact Or.inl ⟨_, rfl, h⟩
  · exact Or.inl ⟨_, rfl, h⟩
  · rename_i old hold
    simp only [hold] at hx
    cases hc : old.check x.id expected fence with
    | error e => exact Or.inl ⟨e, rfl, h⟩
    | ok u =>
      simp only [hc] at hx
      obtain ⟨hversion, hfence⟩ := MemoryRepository.check_ok hc
      have hfiled := store_filed (r := .saved x expected fence) h fun hs => hx (by
        generalize store t d (.saved x expected fence) = stored at hs
        obtain ⟨answer, t'⟩ := stored
        cases hs
        rfl)
      dsimp only
      generalize store t d (.saved x expected fence) = stored at hfiled ⊢
      obtain ⟨answer, t'⟩ := stored
      rcases hfiled with ⟨e, hs, hkept⟩ | ⟨hs, hput⟩
      · cases hs
        exact Or.inl ⟨e, rfl, hkept⟩
      · cases hs
        exact Or.inr ⟨old, rfl, ((h x.id).find? hold).symm, hversion, hfence, hput⟩

end DirectoryRepository

namespace RepositoryOp

open DirectoryRepository

/-- An operation writes a record, and gives an answer that says so, if the records before allow it; otherwise it
is refused and changes nothing. In a directory the record has to be within the ranges of its fields. -/
structure Writes (op : RepositoryOp) (a : op.Answer) (r : StoredSession) (allowed : MemoryRepository → Prop) :
    Prop where
  memory : ∀ m : MemoryRepository, (∃ e, m.run op = (.error e, m)) ∨
    (allowed m ∧ m.run op = (.ok a, m.put r.session.id r))
  directory : ∀ {t : FileTree} {d : String} {m : MemoryRepository}, (∀ id, Filed t d id (m.find? id)) →
    ((run t d op).1 = .ok a → r.Storable) →
    (∃ e, (run t d op).1 = .error e ∧ ∀ id, Filed (run t d op).2 d id (m.find? id)) ∨
    ((run t d op).1 = .ok a ∧ allowed m ∧ ∀ id, Filed (run t d op).2 d id ((m.put r.session.id r).find? id))

theorem create_writes (x : Session) :
    (create x).Writes 1 (.initial x) fun m => m.find? x.id = none where
  memory m := m.create_cases x
  directory h hx := create_filed h hx

theorem save_writes (x : Session) (expected : Nat) (fence : Fence) :
    (save x expected fence).Writes (expected + 1) (.saved x expected fence) fun m =>
      ∃ old, m.find? x.id = some old ∧ old.session.version = expected ∧ old.fence ≤ fence where
  memory m := by
    refine (m.save_cases x expected fence).imp_right ?_
    rintro ⟨old, hold, hversion, hfence, hsaved⟩
    exact ⟨⟨old, hold, hversion, hfence⟩, hsaved⟩
  directory h hx := by
    refine (save_filed h hx).imp_right ?_
    rintro ⟨old, hok, hold, hversion, hfence, hfiled⟩
    exact ⟨hok, ⟨old, hold, hversion, hfence⟩, hfiled⟩

end RepositoryOp

namespace Site

variable {s s' : Site} {m : MemoryRepository}

/-- Whether no session is kept in a file of the lease store. -/
def Separate (s : Site) : Prop :=
  match s.leases with
  | .memory _ => True
  | .directory d => ∀ key, s.Apart (DirectoryLeases.path d key ".json")

/-- The repository holds these records and no others. -/
def Holds (s : Site) (m : MemoryRepository) : Prop :=
  match s.repository with
  | .memory m' => m' = m
  | .directory d => (∀ id, DirectoryRepository.Filed s.files d id (m.find? id)) ∧ s.Separate

theorem holds_memory {m' : MemoryRepository} (h : s.repository = .memory m') :
    s.Holds m ↔ m' = m := by
  unfold Holds
  rw [h]

theorem holds_directory {d : String} (h : s.repository = .directory d) :
    s.Holds m ↔ (∀ id, DirectoryRepository.Filed s.files d id (m.find? id)) ∧ s.Separate := by
  unfold Holds
  rw [h]

theorem Separate.alike (h : s.Separate) (hs : Alike s s') : s'.Separate := by
  unfold Separate Apart at *
  rw [hs.leases, hs.repository]
  exact h

theorem Holds.alike (h : s.Holds m) (hs : Alike s s') : s'.Holds m := by
  cases hr : s.repository with
  | memory m' => exact (holds_memory (hs.repository.trans hr)).mpr ((holds_memory hr).mp h)
  | directory d =>
    obtain ⟨hfiled, hseparate⟩ := (holds_directory hr).mp h
    refine (holds_directory (hs.repository.trans hr)).mpr ⟨?_, hseparate.alike hs⟩
    rw [hs.files]
    exact hfiled

/-- The records are kept apart from the files that the lease store works on. -/
theorem Separate.path_ne {d d' : String} (h : s.Separate) (hr : s.repository = .directory d)
    (hl : s.leases = .directory d') (key : String) (id : SessionId) :
    DirectoryRepository.path d id ≠ DirectoryLeases.path d' key ".lock" ∧
      DirectoryRepository.path d id ≠ DirectoryLeases.path d' key ".json.tmp" ∧
      DirectoryRepository.path d id ≠ DirectoryLeases.path d' key ".json" := by
  have hlast := DirectoryRepository.path_last d id
  refine ⟨fun heq => ?_, fun heq => ?_, fun heq => ?_⟩
  · rw [heq, DirectoryLeases.path_last d' key (by decide)] at hlast
    exact absurd hlast (by decide)
  · rw [heq, DirectoryLeases.path_last d' key (by decide)] at hlast
    exact absurd hlast (by decide)
  · simp only [Separate, hl, Apart, hr] at h
    exact h key id heq.symm

/-- A call to the lease store leaves the records alone. -/
theorem leaseRun_holds (h : s.Holds m) (key : String) (op : LeaseOp) :
    (s.leaseRun key op).2.Holds m := by
  have hrepository := leaseRun_repository s key op
  cases hr : s.repository with
  | memory m' => exact (holds_memory (hrepository.trans hr)).mpr ((holds_memory hr).mp h)
  | directory d =>
    obtain ⟨hfiled, hseparate⟩ := (holds_directory hr).mp h
    refine (holds_directory (hrepository.trans hr)).mpr ?_
    cases hl : s.leases with
    | memory k =>
      rw [leaseRun_memory hl]
      exact ⟨hfiled, trivial⟩
    | directory d' =>
      rw [leaseRun_directory hl]
      refine ⟨fun id => ?_, ?_⟩
      · obtain ⟨hlock, htmp, hstate⟩ := hseparate.path_ne hr hl key id
        exact (hfiled id).of_lookup (DirectoryLeases.run_lookup s.now op hlock htmp hstate)
      · unfold Separate Apart at hseparate ⊢
        exact hseparate

theorem Called.holds {key : String} {op : LeaseOp} {answer : Except Stop op.Answer}
    (hc : Called s key op answer s') (h : s.Holds m) : s'.Holds m :=
  hc.carry (P := fun t => t.Holds m) (fun calm h => h.alike calm.alike) h (leaseRun_holds h key op)

/-- The directory of the repository, if it is in one. -/
def sessionDirectory? (s : Site) : Option String :=
  match s.repository with
  | .memory _ => none
  | .directory d => some d

theorem Alike.sessionDirectory? (h : Alike s s') : s'.sessionDirectory? = s.sessionDirectory? := by
  unfold Site.sessionDirectory?
  rw [h.repository]

theorem Called.sessionDirectory? {key : String} {op : LeaseOp} {answer : Except Stop op.Answer}
    (hc : Called s key op answer s') : s'.sessionDirectory? = s.sessionDirectory? := by
  unfold Site.sessionDirectory?
  rw [hc.repository]

theorem Asked.sessionDirectory? {op : RepositoryOp} {answer : Except Stop op.Answer}
    (ha : Asked s op answer s') : s'.sessionDirectory? = s.sessionDirectory? := by
  have hrun : (s.repositoryRun op).2.sessionDirectory? = s.sessionDirectory? := by
    unfold repositoryRun Site.sessionDirectory?
    cases s.repository <;> rfl
  exact ha.carry (P := fun t => t.sessionDirectory? = s.sessionDirectory?)
    (fun calm h => calm.alike.sessionDirectory?.trans h) rfl hrun

/-- Whether a repository can put down a record as it is: in a directory the record has to be within
the ranges of its fields. -/
def Admits (s : Site) (r : StoredSession) : Prop := s.sessionDirectory? ≠ none → r.Storable

section Directory

variable {d : String} (hr : s.repository = .directory d)
include hr

theorem repositoryRun_directory (op : RepositoryOp) : s.repositoryRun op =
    ((DirectoryRepository.run s.files d op).1,
      { s with files := (DirectoryRepository.run s.files d op).2 }) := by
  unfold repositoryRun
  rw [hr]

/-- A call to a repository in a directory comes to nothing, or it leaves what it makes of the files. -/
theorem Asked.directory {op : RepositoryOp} {answer : Except Stop op.Answer}
    (h : Asked s op answer s') :
    (∃ e, answer = .error e ∧ Alike s s') ∨
    (Alike { s with files := (DirectoryRepository.run s.files d op).2 } s' ∧
      ∀ a, answer = .ok a ↔ (DirectoryRepository.run s.files d op).1 = .ok a) := by
  have hrun := repositoryRun_directory hr op
  cases h with
  | failed calm => exact Or.inl ⟨_, rfl, calm.alike⟩
  | answered ran calm =>
    rw [hrun] at ran calm
    refine Or.inr ⟨calm.alike, fun a => ?_⟩
    rw [ran, Except.ok.injEq, Except.ok.injEq]
  | refused ran calm =>
    rw [hrun] at ran calm
    refine Or.inr ⟨calm.alike, fun a => ?_⟩
    rw [ran]
    constructor
    · intro he
      cases he
    · intro he
      cases he

theorem holds_files (h : s.Holds m) {t : FileTree} {m' : MemoryRepository}
    (hfiled : ∀ id, DirectoryRepository.Filed t d id (m'.find? id)) :
    ({ s with files := t } : Site).Holds m' :=
  (holds_directory (s := { s with files := t }) hr).mpr ⟨hfiled, ((holds_directory hr).mp h).2⟩

end Directory

theorem Asked.holds_load {id : SessionId} {answer : Except Stop (Option Session)}
    (h : Asked s (.load id) answer s') (hm : s.Holds m) :
    s'.Holds m ∧ ∀ found, answer = .ok found → found = (m.find? id).map (·.session) := by
  cases hr : s.repository with
  | memory m' =>
    obtain rfl := (holds_memory hr).mp hm
    obtain ⟨hs, hfound⟩ := h.memory_load hr
    exact ⟨(holds_memory hs).mpr rfl, hfound⟩
  | directory d =>
    obtain ⟨hfiled, -⟩ := (holds_directory hr).mp hm
    rcases h.directory hr with ⟨e, rfl, hs⟩ | ⟨hs, hanswer⟩
    · exact ⟨hm.alike hs, fun found hfound => by cases hfound⟩
    · refine ⟨hm.alike hs, fun found hfound => ?_⟩
      have hrun := (hanswer found).mp hfound
      change (DirectoryRepository.find? s.files d id).map _ = _ at hrun
      cases hfind : DirectoryRepository.find? s.files d id with
      | error e =>
        rw [hfind] at hrun
        cases hrun
      | ok o =>
        rw [hfind] at hrun
        obtain rfl := (hfiled id).find? hfind
        exact (Except.ok.inj hrun).symm

/-- A call that writes a record fails and changes nothing, or the record is put down. -/
theorem Asked.holds_write {op : RepositoryOp} {answer : Except Stop op.Answer} {a : op.Answer} {r : StoredSession}
    {allowed : MemoryRepository → Prop} (h : Asked s op answer s') (hw : op.Writes a r allowed) (hm : s.Holds m)
    (hfit : answer = .ok a → s.Admits r) :
    (∃ e, answer = .error e ∧ s'.Holds m) ∨
      (answer = .ok a ∧ allowed m ∧ s'.Holds (m.put r.session.id r)) := by
  cases hr : s.repository with
  | memory m' =>
    obtain rfl := (holds_memory hr).mp hm
    rcases h.memory hr with ⟨e, rfl, hs⟩ | ⟨v, rfl, hrun, hs⟩
    · exact Or.inl ⟨e, rfl, (holds_memory hs).mpr rfl⟩
    · rcases hw.memory m' with ⟨e, he⟩ | ⟨hallowed, hok⟩
      · rw [he] at hrun
        cases hrun
      · rw [hok] at hrun hs
        cases hrun
        exact Or.inr ⟨rfl, hallowed, (holds_memory hs).mpr rfl⟩
  | directory d =>
    rcases h.directory hr with ⟨e, rfl, hs⟩ | ⟨hs, hanswer⟩
    · exact Or.inl ⟨e, rfl, hm.alike hs⟩
    · have hstorable (hok : (DirectoryRepository.run s.files d op).1 = .ok a) : r.Storable :=
        hfit ((hanswer a).mpr hok) (by simp [Site.sessionDirectory?, hr])
      rcases hw.directory ((holds_directory hr).mp hm).1 hstorable with
        ⟨e, he, hfiled⟩ | ⟨hok, hallowed, hfiled⟩
      · refine Or.inl ?_
        cases answer with
        | error e' => exact ⟨e', rfl, (holds_files hr hm hfiled).alike hs⟩
        | ok v =>
          have hrun := (hanswer v).mp rfl
          rw [he] at hrun
          cases hrun
      · exact Or.inr ⟨(hanswer a).mpr hok, hallowed, (holds_files hr hm hfiled).alike hs⟩

theorem Asked.holds_create {x : Session} {answer : Except Stop Nat}
    (h : Asked s (.create x) answer s') (hm : s.Holds m)
    (hfit : answer = .ok 1 → s.Admits (.initial x)) :
    (∃ e, answer = .error e ∧ s'.Holds m) ∨
    (answer = .ok 1 ∧ m.find? x.id = none ∧ s'.Holds (m.put x.id (.initial x))) :=
  h.holds_write (RepositoryOp.create_writes x) hm hfit

theorem Asked.holds_save {x : Session} {expected : Nat} {fence : Fence}
    {answer : Except Stop Nat} (h : Asked s (.save x expected fence) answer s') (hm : s.Holds m)
    (hfit : answer = .ok (expected + 1) → s.Admits (.saved x expected fence)) :
    (∃ e, answer = .error e ∧ s'.Holds m) ∨
    (∃ old, answer = .ok (expected + 1) ∧ m.find? x.id = some old ∧
      old.session.version = expected ∧ old.fence ≤ fence ∧
      s'.Holds (m.put x.id (.saved x expected fence))) := by
  refine (h.holds_write (RepositoryOp.save_writes x expected fence) hm hfit).imp_right ?_
  rintro ⟨hok, ⟨old, hold, hversion, hfence⟩, hs⟩
  exact ⟨old, hok, hold, hversion, hfence, hs⟩

/-- A repository that holds nothing yet. In a directory that is so if no session has a file there. -/
def Unwritten (s : Site) : Prop :=
  match s.repository with
  | .memory m => m = {}
  | .directory d => (∀ id, s.files.lookup? (DirectoryRepository.path d id) = none) ∧ s.Separate

theorem Unwritten.holds (h : s.Unwritten) : s.Holds {} := h

end Site

end FencedSessions
