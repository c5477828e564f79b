import FencedSessions.Proofs.Accepted
import FencedSessions.Proofs.Holdings
import FencedSessions.Proofs.Refinement

/-! The repository in a directory answers as the one in memory does. The names of the files are the
ids of the sessions, so the directory lists what memory does, and the file of a session holds the
record that memory has of it. -/

namespace FencedSessions

namespace Keyed

variable {κ : Type} [DecidableEq κ] {ν : Type}

/-- A key that was there keeps its place, and a new one comes last. -/
theorem keys_put (m : List (κ × ν)) (key : κ) (v : ν) :
    (put m key v).map (·.1) =
      if (find? m key).isSome then m.map (·.1) else m.map (·.1) ++ [key] := by
  induction m with
  | nil => rfl
  | cons p rest ih =>
    by_cases h : key = p.1
    · simp [put, find?, h]
    · simp only [put, find?, if_neg h, List.map_cons, ih]
      split <;> rfl

theorem find?_isSome (m : List (κ × ν)) (key : κ) : (find? m key).isSome ↔ key ∈ m.map (·.1) := by
  induction m with
  | nil => simp [find?]
  | cons p rest ih => by_cases h : key = p.1 <;> simp [find?, h, ih]

end Keyed

namespace FileTree

variable {t t' : FileTree} {p q : String}

theorem SameDirectories.find_directory (hsame : t.SameDirectories t') (h : t.find p = .ok .directory) :
    t'.find p = .ok .directory := by
  unfold find at h ⊢
  split
  · rfl
  · rename_i hempty
    rw [if_neg hempty] at h
    split
    · rename_i hname
      rw [if_pos hname] at h
      cases h
    · rename_i hname
      rw [if_neg hname] at h
      split at h
      · rename_i hlookup
        cases h
        rw [(hsame p).mpr hlookup]
      · split at h <;> cases h

/-- Where there is room for a file there is room for one beside it, unless a directory is in its place. -/
theorem Allows.beside (h : t.Allows p) (hparent : parent q = parent p) (hq : t.writable q = .ok ()) :
    t.Allows q where
  name := writable_ok hq
  free := by
    intro hlookup
    obtain ⟨hempty, hname⟩ := writable_ok hq
    simp [FileTree.writable, find, hempty, hname, hlookup] at hq
  held := by
    rw [hparent]
    exact h.held
  clear := by
    rw [hparent]
    exact h.clear

end FileTree

namespace DirectoryRepository

open FileTree

variable {d : String} {t t' : FileTree} {id : SessionId} {r : StoredSession} {m : MemoryRepository}
  {op : RepositoryOp}

/-- What follows the last slash. -/
theorem name_append {p : String} {x y : List Char} (hp : p.toList = x ++ '/' :: y)
    (hy : ∀ c ∈ y, c ≠ '/') : (name p).toList = y := by
  have htake : (y.reverse ++ '/' :: x.reverse).takeWhile (· ≠ '/') = y.reverse := by
    rw [List.takeWhile_append_of_pos (by simpa using hy)]
    simp
  unfold name
  rw [String.toList_ofList, hp, List.reverse_append, List.reverse_cons, List.append_assoc,
    List.singleton_append, htake, List.reverse_reverse]

section Names

variable {e : String} (he : ∀ c ∈ e.toList, c ≠ '/')
include he

/-- There is no slash in the name of a file of a session. -/
theorem file_plain (id : SessionId) : ∀ c ∈ id.text.toList ++ (".json".toList ++ e.toList), c ≠ '/' := by
  have hjson : ∀ c ∈ ".json".toList, c ≠ '/' := by simp
  intro c hc
  rw [List.mem_append, List.mem_append] at hc
  rcases hc with hc | hc | hc
  · rintro rfl
    have hplain := isStemChar_text id '/' hc
    cases hplain
  · exact hjson c hc
  · exact he c hc

theorem parent_file (d : String) (id : SessionId) : parent (path d id ++ e) = d := by
  have hsplit : (path d id ++ e).toList =
      (d.toList ++ ['/']) ++ (id.text.toList ++ (".json".toList ++ e.toList)) := by simp [path]
  refine String.toList_inj.mp ((DirectoryLeases.parent_append hsplit (file_plain he id)).trans ?_)
  simp

theorem name_file (d : String) (id : SessionId) :
    (name (path d id ++ e)).toList = id.text.toList ++ (".json".toList ++ e.toList) := by
  have hsplit : (path d id ++ e).toList =
      d.toList ++ '/' :: (id.text.toList ++ (".json".toList ++ e.toList)) := by simp [path]
  exact name_append hsplit (file_plain he id)

end Names

theorem parent_path (d : String) (id : SessionId) : parent (path d id) = d := by
  have hparent := parent_file (e := "") (by simp) d id
  rwa [String.append_empty] at hparent

/-- The id of the session whose file is at a path, if it is one in the directory. -/
def idAt? (d p : String) : Option SessionId := if parent p = d then idOfName? (name p) else none

theorem length_text (id : SessionId) : id.text.toList.length = 36 := by
  simp [SessionId.text, SessionId.length_chars]

theorem idAt?_path (d : String) (id : SessionId) : idAt? d (path d id) = some id := by
  have hname := name_file (e := "") (by simp) d id
  rw [String.append_empty] at hname
  have hid : SessionId.ofChars? id.text.toList = some id := SessionId.ofText_text id
  unfold idAt? idOfName?
  rw [if_pos (parent_path d id), hname]
  simp [length_text, hid]

/-- The file in which a record is written before it is put in place. -/
def draft (d : String) (id : SessionId) : String := path d id ++ ".tmp"

theorem parent_draft (d : String) (id : SessionId) : parent (draft d id) = d :=
  parent_file (by simp) d id

/-- A file that is still being written is not listed. -/
theorem idAt?_draft (d : String) (id : SessionId) : idAt? d (draft d id) = none := by
  have hname : (name (draft d id)).toList = id.text.toList ++ ".json.tmp".toList :=
    name_file (e := ".tmp") (by simp) d id
  have hend : (id.text.toList ++ ".json.tmp".toList).drop 40 ≠ ".json".toList := by
    rw [List.drop_append, length_text, List.drop_of_length_le (by rw [length_text]; decide)]
    decide
  have hlength : (id.text.toList ++ ".json.tmp".toList).length - 5 = 40 := by
    rw [List.length_append, length_text]
    rfl
  unfold idAt? idOfName?
  simp only [parent_draft, if_true, hname, hlength, if_neg hend]

/-- The ids of the sessions that have a file in the directory. -/
def listed (d : String) (t : FileTree) : List SessionId := (t.entries.map (·.1)).filterMap (idAt? d)

theorem run_list (h : t.find d = .ok .directory) : run t d .list = (.ok (listed d t), t) := by
  simp only [run, FileTree.list, h]
  refine Prod.ext (congrArg Except.ok ?_) rfl
  unfold listed
  induction t.entries with
  | nil => rfl
  | cons e es ih =>
    by_cases hd : parent e.1 = d
    · simp only [hd, idAt?, List.filter_cons, decide_true, if_true, List.map_cons, List.filterMap_cons, ih]
    · simp only [hd, idAt?, List.filter_cons, decide_false, if_false, List.map_cons, List.filterMap_cons, ih,
        Bool.false_eq_true]

theorem listed_put (d : String) (t : FileTree) (p : String) (e : FileEntry) :
    listed d (t.put p e) =
      if (t.lookup? p).isSome then listed d t else listed d t ++ (idAt? d p).toList := by
  unfold listed FileTree.put FileTree.lookup?
  rw [Keyed.keys_put]
  split
  · rfl
  · rw [List.filterMap_append]
    cases hid : idAt? d p <;> simp [hid]

theorem listed_erase {p : String} (hp : idAt? d p = none) (t : FileTree) :
    listed d (t.erase p) = listed d t := by
  simp only [listed, FileTree.erase, Keyed.erase]
  induction t.entries with
  | nil => rfl
  | cons e es ih =>
    by_cases he : e.1 = p
    · simp only [List.filter_cons, he, ne_eq, not_true, decide_false, Bool.false_eq_true, if_false,
        List.map_cons, List.filterMap_cons, hp, ih]
    · simp only [List.filter_cons, he, ne_eq, not_false_eq_true, decide_true, if_true,
        List.map_cons, List.filterMap_cons, ih]

/-- A session that is not listed has no file. -/
theorem lookup?_unlisted (h : id ∉ listed d t) : t.lookup? (path d id) = none := by
  cases hlookup : t.lookup? (path d id) with
  | none => rfl
  | some e =>
    have hkey := (Keyed.find?_isSome t.entries (path d id)).mp (Option.isSome_of_eq_some hlookup)
    exact absurd (List.mem_filterMap.mpr ⟨_, hkey, idAt?_path d id⟩) h

/-- The paths of the files that an operation works on. -/
def worksOn (d : String) : RepositoryOp → List String
  | .load id => [path d id]
  | .create x => [path d x.id, draft d x.id]
  | .save x .. => [path d x.id, draft d x.id]
  | .list => []

/-- They belong to a session. -/
theorem mem_worksOn {p : String} (h : p ∈ worksOn d op) :
    ∃ id, path d id ∈ worksOn d op ∧ (p = path d id ∨ p = draft d id) := by
  cases op with
  | load id => exact ⟨id, by simp [worksOn], Or.inl (List.mem_singleton.mp h)⟩
  | create x => exact ⟨x.id, by simp [worksOn], by simpa [worksOn] using h⟩
  | save x expected fence => exact ⟨x.id, by simp [worksOn], by simpa [worksOn] using h⟩
  | list => cases h

/-- Where there are no sessions, files that can be written now can be written at any time. -/
theorem allows_worksOn (hnone : ∀ id, t.lookup? (path d id) = none)
    (h : ∀ p ∈ worksOn d op, t.writable p = .ok ()) : ∀ p ∈ worksOn d op, t.Allows p := by
  intro p hp
  obtain ⟨id, hid, rfl | rfl⟩ := mem_worksOn hp
  · exact .of_writable (hnone id) (h _ hp)
  · have hpath := Allows.of_writable (hnone id) (h _ hid)
    exact hpath.beside ((parent_draft d id).trans (parent_path d id).symm) (h _ hp)

/-- A record is put in place if there is room for it. -/
theorem store_allowed (hpath : t.Allows (path d r.session.id)) (hdraft : t.Allows (draft d r.session.id)) :
    (store t d r).1 = .ok () ∧ t.SameDirectories (store t d r).2 ∧
      listed d (store t d r).2 = if (t.lookup? (path d r.session.id)).isSome then listed d t
        else listed d t ++ [r.session.id] := by
  have hne : path d r.session.id ≠ draft d r.session.id := path_ne d _ _
  have hwritten := put_directories hdraft.free r.toJson.indented
  have hparent : parent (path d r.session.id) ≠ draft d r.session.id := by
    intro heq
    have hlength := congrArg (·.toList.length) (heq.symm.trans (parent_path d _))
    simp [draft, path] at hlength
  have hpath' := hpath.keep hwritten (lookup?_put_other t _ hparent)
  have hrename := rename_allowed hdraft.name (lookup?_put_self t _ _) hpath'
  have hfree : (t.put (draft d r.session.id) (.text r.toJson.indented)).lookup?
      (draft d r.session.id) ≠ some .directory := by simp
  have herased := erase_directories hfree
  have hmoved := put_directories (fun hp => hpath'.free ((herased _).mp hp)) r.toJson.indented
  have hstore : store t d r = (.ok (), (((t.put (draft d r.session.id)
      (.text r.toJson.indented)).erase (draft d r.session.id)).put (path d r.session.id)
        (.text r.toJson.indented))) := by
    unfold store
    dsimp only
    rw [show path d r.session.id ++ ".tmp" = draft d r.session.id from rfl, write_allowed hdraft]
    dsimp only
    rw [hrename]
  rw [hstore]
  refine ⟨rfl, hwritten.trans (herased.trans hmoved), ?_⟩
  rw [listed_put, lookup?_erase_other _ hne, lookup?_put_other t _ hne,
    listed_erase (idAt?_draft d _), listed_put, idAt?_draft, idAt?_path]
  simp

/-- With room for its file, a record that can be read is found. -/
theorem Filed.find?_eq {o : Option StoredSession} (h : Filed t d id o) (ha : t.Allows (path d id))
    (hshallow : ∀ r, o = some r → r.session.Shallow) : DirectoryRepository.find? t d id = .ok o := by
  unfold DirectoryRepository.find?
  cases o with
  | none => simp only [FileTree.read, find_missing ha.name h ha.clear]
  | some r =>
    obtain ⟨hread, -, hr⟩ := h
    simp only [hread, Json.Reader.ofText_indented (StoredSession.plain_toJson hr.fence hr.session)]
    rcases StoredSession.reader_toJson hr.fence hr.session with ⟨-, hok⟩ | ⟨hdeep, -⟩
    · rw [hok]
      rfl
    · exact absurd (hshallow r rfl) hdeep

theorem Filed.lookup?_isSome {o : Option StoredSession} (h : Filed t d id o) :
    (t.lookup? (path d id)).isSome = o.isSome := by
  cases o with
  | none => rw [show t.lookup? (path d id) = none from h]; rfl
  | some r => rw [(read_ok.mp h.1).2]; rfl

/-- The directory lists and holds what memory does, all of it can be read back, and the versions have
room for so many more operations. -/
structure Mirrors (d : String) (t : FileTree) (m : MemoryRepository) (n : Nat) : Prop where
  opened : t.find d = .ok .directory
  listed : listed d t = m.records.map (·.1)
  filed : ∀ id, Filed t d id (m.find? id)
  readable : ∀ id r, m.find? id = some r → r.session.Shallow ∧ r.session.version + n < Word.size64

variable {n : Nat}

theorem Mirrors.less (h : Mirrors d t m (n + 1)) : Mirrors d t m n :=
  { h with readable := fun id r hr => ⟨(h.readable id r hr).1, Nat.lt_of_succ_lt (h.readable id r hr).2⟩ }

theorem Mirrors.find?_eq (h : Mirrors d t m n) (ha : t.Allows (path d id)) :
    DirectoryRepository.find? t d id = .ok (m.find? id) :=
  (h.filed id).find?_eq ha fun r hr => (h.readable id r hr).1

/-- A record that memory puts down is put down in the directory. -/
theorem Mirrors.put (h : Mirrors d t m n) (hpath : t.Allows (path d r.session.id))
    (hdraft : t.Allows (draft d r.session.id)) (hr : r.Storable) (hshallow : r.session.Shallow)
    (hversion : r.session.version + n < Word.size64) :
    (store t d r).1 = .ok () ∧ Mirrors d (store t d r).2 (m.put r.session.id r) n ∧
      t.SameDirectories (store t d r).2 := by
  obtain ⟨hok, hsame, hlisted⟩ := store_allowed hpath hdraft
  refine ⟨hok, ⟨?_, ?_, ?_, ?_⟩, hsame⟩
  · exact hsame.find_directory h.opened
  · rw [hlisted, (h.filed r.session.id).lookup?_isSome, h.listed]
    exact (Keyed.keys_put m.records r.session.id r).symm
  · rcases store_filed h.filed fun _ => hr with ⟨e, he, -⟩ | ⟨-, hfiled⟩
    · rw [hok] at he
      cases he
    · exact hfiled
  · intro id r' hfound
    by_cases hid : id = r.session.id
    · subst hid
      rw [MemoryRepository.find?_put_self] at hfound
      cases hfound
      exact ⟨hshallow, hversion⟩
    · rw [MemoryRepository.find?_put_other m r hid] at hfound
      exact h.readable id r' hfound

end DirectoryRepository

/-- Whether the session to be written fits into a file: it is within the ranges of its fields, and its
values leave the reader room. -/
def RepositoryOp.Fits : RepositoryOp → Prop
  | .create x => x.Storable ∧ x.Shallow
  | .save x _ fence => x.Storable ∧ x.Shallow ∧ fence.value < Word.size64
  | .load _ | .list => True

namespace DirectoryRepository

open FileTree

variable {d : String} {t : FileTree} {m : MemoryRepository} {n : Nat} {op : RepositoryOp}

/-- An operation is answered in both alike, and the directory mirrors memory again. -/
theorem Mirrors.run (h : Mirrors d t m (n + 1)) (hroom : ∀ p ∈ worksOn d op, t.Allows p)
    (hfits : op.Fits) (hone : 1 + n < Word.size64) :
    (run t d op).1 = (m.run op).1 ∧ Mirrors d (run t d op).2 (m.run op).2 n ∧
      t.SameDirectories (run t d op).2 := by
  cases op with
  | load id =>
    have hfind := h.find?_eq (hroom (path d id) (by simp [worksOn]))
    simp only [DirectoryRepository.run, MemoryRepository.run, hfind]
    exact ⟨rfl, h.less, .refl t⟩
  | list =>
    rw [run_list h.opened, h.listed]
    exact ⟨rfl, h.less, .refl t⟩
  | create x =>
    have hpath := hroom (path d x.id) (by simp [worksOn])
    have hdraft := hroom (draft d x.id) (by simp [worksOn])
    obtain ⟨hx, hshallow⟩ := hfits
    simp only [DirectoryRepository.run, MemoryRepository.run, create, MemoryRepository.create,
      h.find?_eq hpath]
    cases m.find? x.id with
    | some old => exact ⟨rfl, h.less, .refl t⟩
    | none =>
      have hr : (StoredSession.initial x).Storable :=
        ⟨show 0 < Word.size64 by decide, { hx with version := show 1 < Word.size64 by decide }⟩
      obtain ⟨hok, hput, hsame⟩ := h.less.put (r := .initial x) hpath hdraft hr
        ⟨hshallow.checkpoints, hshallow.metadata⟩ hone
      generalize store t d (.initial x) = stored at hok hput hsame ⊢
      obtain ⟨answer, t'⟩ := stored
      cases hok
      exact ⟨rfl, hput, hsame⟩
  | save x expected fence =>
    have hpath := hroom (path d x.id) (by simp [worksOn])
    have hdraft := hroom (draft d x.id) (by simp [worksOn])
    obtain ⟨hx, hshallow, hfence⟩ := hfits
    simp only [DirectoryRepository.run, MemoryRepository.run, save, MemoryRepository.save,
      h.find?_eq hpath]
    cases hold : m.find? x.id with
    | none => exact ⟨rfl, h.less, .refl t⟩
    | some old =>
      dsimp only
      cases hc : old.check x.id expected fence with
      | error e => exact ⟨rfl, h.less, .refl t⟩
      | ok u =>
        obtain ⟨rfl, -⟩ := MemoryRepository.check_ok hc
        have hversion : old.session.version + 1 + n < Word.size64 := by
          have := (h.readable x.id old hold).2
          omega
        have hr : (StoredSession.saved x old.session.version fence).Storable :=
          ⟨hfence, { hx with version := Nat.lt_of_le_of_lt (Nat.le_add_right _ n) hversion }⟩
        obtain ⟨hok, hput, hsame⟩ := h.less.put (r := .saved x old.session.version fence) hpath hdraft
          hr ⟨hshallow.checkpoints, hshallow.metadata⟩ hversion
        dsimp only
        generalize store t d (.saved x old.session.version fence) = stored at hok hput hsame ⊢
        obtain ⟨answer, t'⟩ := stored
        cases hok
        exact ⟨rfl, hput, hsame⟩

end DirectoryRepository

/-- What happens to a directory of sessions: a repository is opened there, or one that is open serves
an operation. -/
inductive RepositoryEvent where
  | opens
  | serves (op : RepositoryOp)

/-- The operations that are served. -/
def RepositoryEvent.requests (events : List RepositoryEvent) : List RepositoryOp :=
  events.filterMap fun
    | .opens => none
    | .serves op => some op

namespace DirectoryRepository

open FileTree

/-- Opens repositories on a directory and has them serve operations. A repository that cannot be opened
ends it. -/
def play (d : String) : FileTree → List RepositoryEvent → Except Fault (List RepositoryReply)
  | _, [] => .ok []
  | t, .opens :: events =>
    match t.makeDirectories d with
    | .error f => .error f
    | .ok t => play d t events
  | t, .serves op :: events => (play d (run t d op).2 events).map (⟨op, (run t d op).1⟩ :: ·)

variable {d : String} {t : FileTree} {m : MemoryRepository} {op : RepositoryOp}

theorem run_root (t : FileTree) (d : String) (op : RepositoryOp) :
    (run t d op).2.lookup? "" = t.lookup? "" := by
  refine run_lookup (fun id => ?_) op
  constructor <;> intro heq <;> have hlength := congrArg (·.toList.length) heq <;> simp [path] at hlength

/-- Whatever is served is answered in both alike. -/
theorem play_mirrors {events : List RepositoryEvent}
    (hopen : ∀ p ∈ ancestors d, t.lookup? p = some .directory)
    (h : Mirrors d t m (RepositoryEvent.requests events).length)
    (hroom : ∀ op ∈ RepositoryEvent.requests events, ∀ p ∈ worksOn d op, t.Allows p)
    (hfits : ∀ op ∈ RepositoryEvent.requests events, op.Fits)
    (hwords : (RepositoryEvent.requests events).length < Word.size64) :
    play d t events = .ok (m.serve (RepositoryEvent.requests events)) := by
  induction events generalizing t m with
  | nil => rfl
  | cons event events ih =>
    cases event with
    | opens =>
      simp only [play, makeDirectories_again hopen]
      exact ih hopen h hroom hfits hwords
    | serves op =>
      have hrequests : RepositoryEvent.requests (.serves op :: events) =
          op :: RepositoryEvent.requests events := rfl
      rw [hrequests] at h hroom hfits hwords ⊢
      rw [List.length_cons] at h hwords
      obtain ⟨hanswer, hmirrors, hsame⟩ := h.run (hroom op (by simp)) (hfits op (by simp)) (by omega)
      have hplay := ih (fun p hp => (hsame p).mpr (hopen p hp)) hmirrors
        (fun op' hop p hp => (hroom op' (by simp [hop]) p hp).stay hsame (run_root t d op))
        (fun op' hop => hfits op' (by simp [hop])) (Nat.lt_of_succ_lt hwords)
      simp only [play, MemoryRepository.serve, hplay, hanswer]
      rfl

/-- A repository in a directory is as good as one in memory. Let repositories be opened on a directory
without sessions as often as one likes, and let them carry out any operations on sessions that fit into
files and for which there is room. Then each operation is answered as a new repository in memory
answers it. -/
theorem answers_as_memory (d : String) (files t : FileTree) (events : List RepositoryEvent)
    (hopen : files.makeDirectories d = .ok t) (hempty : (run t d .list).1 = .ok [])
    (hroom : ∀ op ∈ RepositoryEvent.requests events, ∀ p ∈ worksOn d op, t.writable p = .ok ())
    (hfits : ∀ op ∈ RepositoryEvent.requests events, op.Fits)
    (hwords : (RepositoryEvent.requests events).length < Word.size64) :
    play d t events = .ok (MemoryRepository.serve {} (RepositoryEvent.requests events)) := by
  have hopened : t.find d = .ok .directory := by
    simp only [run, FileTree.list] at hempty
    split at hempty
    · cases hempty
    · rename_i names hlist
      split at hlist
      · cases hlist
      · cases hlist
      · assumption
  have hlisted : listed d t = [] := by
    rw [run_list hopened] at hempty
    exact Except.ok.inj hempty
  have hnone (id : SessionId) : t.lookup? (path d id) = none :=
    lookup?_unlisted (by rw [hlisted]; exact List.not_mem_nil)
  have hmirrors : Mirrors d t {} (RepositoryEvent.requests events).length :=
    ⟨hopened, hlisted, hnone, fun id r hr => by cases hr⟩
  exact play_mirrors (makeDirectories_ok hopen).1 hmirrors
    (fun op hop => allows_worksOn hnone (hroom op hop)) hfits hwords

/-- A session at the limit of what can be read back is created once, saved by one of two writers, kept
from a writer with an older fence, and there for whoever opens the directory next. -/
theorem answers_as_memory_reopened :
    let x := holder 122
    let requests : List RepositoryOp := [.create x, .create x, .save x 1 ⟨5⟩, .save x 1 ⟨5⟩,
      .save x 2 ⟨4⟩, .save { x with id := ⟨1⟩ } 1 ⟨5⟩, .load .nil, .list]
    let events := .opens :: requests.map .serves ++ [.opens, .serves .list]
    play "sessions" ⟨[("sessions", .directory)]⟩ events = .ok [⟨.create x, .ok 1⟩,
      ⟨.create x, .error (.alreadyExists .nil)⟩, ⟨.save x 1 ⟨5⟩, .ok 2⟩,
      ⟨.save x 1 ⟨5⟩, .error (.versionConflict .nil 1 2)⟩,
      ⟨.save x 2 ⟨4⟩, .error (.staleFence .nil ⟨4⟩ ⟨5⟩)⟩,
      ⟨.save { x with id := ⟨1⟩ } 1 ⟨5⟩, .error (.notFound ⟨1⟩)⟩,
      ⟨.load .nil, .ok (some { x with version := 2 })⟩, ⟨.list, .ok [.nil]⟩, ⟨.list, .ok [.nil]⟩] := by
  intro x requests events
  have hfits (id : SessionId) : ({ x with id := id } : Session).Storable ∧
      ({ x with id := id } : Session).Shallow := by
    have hx := storable_holder 122
    have hshallow := shallow_holder (n := 122) (v := 0).mpr (by decide)
    exact ⟨{ hx with }, ⟨hshallow.checkpoints, hshallow.metadata⟩⟩
  have hroom : ∀ op ∈ RepositoryEvent.requests events, ∀ p ∈ worksOn "sessions" op,
      (FileTree.writable ⟨[("sessions", .directory)]⟩ p).isOk := by decide +kernel
  have hwords : 4 < Word.size64 ∧ 5 < Word.size64 := by decide
  refine answers_as_memory "sessions" {} _ events rfl rfl
    (fun op hop p hp => writable_isOk (hroom op hop p hp)) ?_ (by decide)
  have hrequests : RepositoryEvent.requests events = requests ++ [.list] := rfl
  simp only [hrequests, requests, List.cons_append, List.nil_append, List.forall_mem_cons]
  exact ⟨hfits .nil, hfits .nil, ⟨(hfits .nil).1, (hfits .nil).2, hwords.2⟩,
    ⟨(hfits .nil).1, (hfits .nil).2, hwords.2⟩, ⟨(hfits .nil).1, (hfits .nil).2, hwords.1⟩,
    ⟨(hfits ⟨1⟩).1, (hfits ⟨1⟩).2, hwords.2⟩, trivial, trivial, trivial, List.forall_mem_nil _⟩

end DirectoryRepository

end FencedSessions
