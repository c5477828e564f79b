import FencedSessions.Proofs.Readback
import FencedSessions.Repository.Directory

/-! The lease store in a directory keeps the state of each key in a file of its own. An operation
either leaves that file as it is or replaces it by the state that the operation computes. -/

namespace FencedSessions

namespace FileTree

variable {t t' : FileTree} {path other : String} {content : String}

/-- Whether a file may have this path. -/
def Nameable (path : String) : Prop := path.isEmpty = false ∧ ¬nameLimit < (name path).utf8ByteSize

theorem read_ok :
    t.read path = .ok content ↔ Nameable path ∧ t.lookup? path = some (.text content) := by
  unfold read find Nameable
  constructor
  · intro h
    split at h
    · cases h
    · cases h
    · rename_i heq
      cases h
      split at heq
      · cases heq
      split at heq
      · cases heq
      split at heq
      · rename_i hlookup
        cases heq
        exact ⟨⟨by simp_all, by assumption⟩, hlookup⟩
      · split at heq <;> cases heq
  · rintro ⟨⟨hempty, hname⟩, hlookup⟩
    simp [hempty, hname, hlookup]

theorem writable_ok (h : t.writable path = .ok ()) : Nameable path := by
  unfold writable find at h
  unfold Nameable
  by_cases hempty : path.isEmpty
  · simp [hempty] at h
  by_cases hname : nameLimit < (name path).utf8ByteSize
  · simp [hempty, hname] at h
  · exact ⟨by simpa using hempty, hname⟩

theorem touch_other (h : t.touch path = .ok t') (hother : other ≠ path) :
    t'.lookup? other = t.lookup? other := by
  unfold touch at h
  cases hw : t.writable path with
  | error f => simp [hw, bind, Except.bind] at h
  | ok u =>
    simp only [hw, bind, Except.bind] at h
    split at h
    · cases h
      rfl
    · cases h
      exact lookup?_put_other t _ hother

theorem write_ok (h : t.write path content = .ok t') : t' = t.put path (.text content) := by
  unfold write at h
  cases hw : t.writable path with
  | error f => simp [hw, bind, Except.bind] at h
  | ok u =>
    simp only [hw, bind, Except.bind] at h
    cases h
    rfl

theorem rename_ok {source target : String} (h : t.rename source target = .ok t') :
    ∃ content, t.read source = .ok content ∧ Nameable target ∧
      t' = (t.erase source).put target (.text content) := by
  unfold rename at h
  cases hr : t.read source with
  | error f => simp [hr, bind, Except.bind] at h
  | ok content =>
    cases hw : t.writable target with
    | error f => simp [hr, hw, bind, Except.bind] at h
    | ok u =>
      simp only [hr, hw, bind, Except.bind] at h
      cases h
      exact ⟨content, rfl, writable_ok hw, rfl⟩

/-- A file that is written and then moved into place. -/
theorem replace_other {t₁ t₂ : FileTree} {source target : String}
    (hw : t.write source content = .ok t₁) (hr : t₁.rename source target = .ok t₂)
    (hsource : other ≠ source) (htarget : other ≠ target) :
    t₂.lookup? other = t.lookup? other := by
  obtain ⟨moved, -, -, rfl⟩ := rename_ok hr
  rw [lookup?_put_other _ _ htarget, lookup?_erase_other _ hsource, write_ok hw,
    lookup?_put_other _ _ hsource]

end FileTree

namespace DirectoryLeases

theorem path_last (directory key : String) {extension : String} (h : extension.toList ≠ []) :
    (path directory key extension).toList.getLast? = extension.toList.getLast? := by
  obtain ⟨c, hc⟩ := Option.isSome_iff_exists.mp (List.getLast?_isSome.mpr h)
  simp [path, hc]

/-- The state of a key is not kept in a lock file, nor in one that is still being written. -/
theorem path_ne (directory key key' : String) :
    path directory key ".json" ≠ path directory key' ".lock" ∧
      path directory key ".json" ≠ path directory key' ".json.tmp" := by
  have hstate := path_last directory key (show ".json".toList ≠ [] by decide)
  have hlock := path_last directory key' (show ".lock".toList ≠ [] by decide)
  have htmp := path_last directory key' (show ".json.tmp".toList ≠ [] by decide)
  constructor
  · intro heq
    rw [heq, hlock] at hstate
    exact absurd hstate (by decide)
  · intro heq
    rw [heq, htmp] at hstate
    exact absurd hstate (by decide)

/-- The file at a path holds a state, and where there is none the state is the empty one. -/
def Stored (t : FileTree) (path : String) (k : KeyState) : Prop :=
  t.read path = .ok k.toJson.text ∨ (t.lookup? path = none ∧ k = {})

variable {t t' : FileTree} {p directory key : String} {k : KeyState} {now : Instant}

theorem Stored.of_lookup (h : Stored t p k) (heq : t'.lookup? p = t.lookup? p) : Stored t' p k := by
  rcases h with h | ⟨h, hk⟩
  · rw [FileTree.read_ok] at h
    exact Or.inl (FileTree.read_ok.mpr ⟨h.1, heq.trans h.2⟩)
  · exact Or.inr ⟨heq.trans h, hk⟩

theorem Stored.load (h : Stored t p k) (hk : k.Storable) :
    load t p = .ok k ∨ ((∃ e, load t p = .error e) ∧ k = {}) := by
  rcases h with h | ⟨h, rfl⟩
  · left
    simp only [DirectoryLeases.load, h, parse_text hk]
  · cases hread : t.read p with
    | ok content =>
      have hsome := (FileTree.read_ok.mp hread).2
      rw [h] at hsome
      cases hsome
    | error f =>
      unfold DirectoryLeases.load
      rw [hread]
      cases f <;> simp

theorem Stored.load_eq {k' : KeyState} (h : Stored t p k) (hk : k.Storable)
    (hload : DirectoryLeases.load t p = .ok k') : k' = k := by
  rcases h.load hk with hl | ⟨⟨e, hl⟩, -⟩
  · rw [hl] at hload
    exact (Except.ok.inj hload).symm
  · rw [hl] at hload
    cases hload

/-- What is on record at a path depends on the file at this path only. -/
theorem load_lookup (h : t'.lookup? p = t.lookup? p) :
    ((load t' p).toOption).getD {} = ((load t p).toOption).getD {} := by
  have hnothing {t : FileTree} {f : FileTree.Fault} (hread : t.read p = .error f) :
      ((load t p).toOption).getD {} = {} := by
    unfold DirectoryLeases.load
    rw [hread]
    cases f <;> rfl
  cases hread : t.read p with
  | ok content =>
    obtain ⟨hname, hlookup⟩ := FileTree.read_ok.mp hread
    have hread' := FileTree.read_ok.mpr ⟨hname, h.trans hlookup⟩
    unfold DirectoryLeases.load
    rw [hread, hread']
  | error f =>
    cases hread' : t'.read p with
    | ok content =>
      obtain ⟨hname, hlookup⟩ := FileTree.read_ok.mp hread'
      rw [FileTree.read_ok.mpr ⟨hname, h.symm.trans hlookup⟩] at hread
      cases hread
    | error f' => rw [hnothing hread, hnothing hread']

/-- Putting a state in place changes no file but the one of the key and the one that becomes it. -/
theorem store_lookup {other : String} (htmp : other ≠ path directory key ".json.tmp")
    (hstate : other ≠ path directory key ".json") :
    (store t directory key k).2.lookup? other = t.lookup? other := by
  unfold store
  dsimp only
  split
  · rfl
  · rename_i t₁ hw
    split
    · rw [FileTree.write_ok hw]
      exact FileTree.lookup?_put_other t _ htmp
    · rename_i t₂ hr
      exact FileTree.replace_other hw hr htmp hstate

/-- A state is put in place as a whole, or the old one stays. -/
theorem store_state (t : FileTree) (directory key : String) (k : KeyState) :
    let r := store t directory key k
    (r.1 = .ok () ∧ r.2.read (path directory key ".json") = .ok k.toJson.text) ∨
    ((∃ e, r.1 = .error e) ∧
      r.2.lookup? (path directory key ".json") = t.lookup? (path directory key ".json")) := by
  unfold store
  dsimp only
  split
  · exact Or.inr ⟨⟨_, rfl⟩, rfl⟩
  · rename_i t₁ hw
    rw [FileTree.write_ok hw]
    split
    · exact Or.inr ⟨⟨_, rfl⟩, FileTree.lookup?_put_other t _ (path_ne directory key key).2⟩
    · rename_i t₂ hr
      obtain ⟨content, hread, hname, rfl⟩ := FileTree.rename_ok hr
      have hcontent := (FileTree.read_ok.mp hread).2
      rw [FileTree.lookup?_put_self] at hcontent
      cases hcontent
      exact Or.inl ⟨rfl, FileTree.read_ok.mpr ⟨hname, FileTree.lookup?_put_self ..⟩⟩

/-- How an operation ends: it fails before anything is put in place, or it has an answer and puts the
state back if the answer calls for it. -/
theorem run_cases (t : FileTree) (directory : String) (now : Instant) (key : String) (op : LeaseOp) :
    let r := run t directory now key op
    (∃ e, r = (.error e, t)) ∨ ∃ t₁, t.touch (path directory key ".lock") = .ok t₁ ∧
      ((∃ e, r = (.error e, t₁)) ∨ ∃ k a, load t₁ (path directory key ".json") = .ok k ∧
        (k.run key now op).1 = .ok a ∧
        ((op.writes a = false ∧ r = (.ok a, t₁)) ∨
          (op.writes a = true ∧
            r.1 = (store t₁ directory key (k.run key now op).2).1.map (fun _ => a) ∧
            r.2 = (store t₁ directory key (k.run key now op).2).2))) := by
  unfold run
  split
  · exact Or.inl ⟨_, rfl⟩
  · rename_i t₁ htouch
    refine Or.inr ⟨t₁, htouch, ?_⟩
    split
    · exact Or.inl ⟨_, rfl⟩
    · rename_i k hload
      split
      · exact Or.inl ⟨_, rfl⟩
      · rename_i a k' hrun
        refine Or.inr ⟨k, a, hload, congrArg Prod.fst hrun, ?_⟩
        rw [hrun]
        by_cases hwrites : op.writes a
        · refine Or.inr ⟨hwrites, ?_⟩
          rw [if_pos hwrites]
          generalize store t₁ directory key k' = stored
          obtain ⟨_ | _, t₂⟩ := stored <;> exact ⟨rfl, rfl⟩
        · refine Or.inl ⟨by simpa using hwrites, ?_⟩
          rw [if_neg hwrites]

/-- The operations on a key leave the files of the other keys alone. -/
theorem run_lookup {other : String} (now : Instant) (op : LeaseOp)
    (hlock : other ≠ path directory key ".lock") (htmp : other ≠ path directory key ".json.tmp")
    (hstate : other ≠ path directory key ".json") :
    (run t directory now key op).2.lookup? other = t.lookup? other := by
  rcases run_cases t directory now key op with ⟨e, hr⟩ | ⟨t₁, htouch, hrest⟩
  · rw [hr]
  · have hkept := FileTree.touch_other htouch hlock
    rcases hrest with ⟨e, hr⟩ | ⟨k, a, -, -, ⟨-, hr⟩ | ⟨-, -, hr⟩⟩
    · rw [hr]
      exact hkept
    · rw [hr]
      exact hkept
    · rw [hr, store_lookup htmp hstate]
      exact hkept

/-- What an operation leaves in the file of its key: the old state, or the one it computes. If its
answer calls for it, it has put the new one in place. -/
theorem run_stored (h : Stored t (path directory key ".json") k) (hk : k.Storable) (op : LeaseOp) :
    let r := run t directory now key op
    (Stored r.2 (path directory key ".json") k ∨
      Stored r.2 (path directory key ".json") (k.run key now op).2) ∧
    ∀ a, r.1 = .ok a → (k.run key now op).1 = .ok a ∧
      (op.writes a → Stored r.2 (path directory key ".json") (k.run key now op).2) := by
  dsimp only
  obtain ⟨hlock, htmp⟩ := path_ne directory key key
  rcases run_cases t directory now key op with ⟨e, hr⟩ | ⟨t₁, htouch, hrest⟩
  · rw [hr]
    exact ⟨Or.inl h, fun a ha => by cases ha⟩
  · have h₁ := h.of_lookup (FileTree.touch_other htouch hlock)
    rcases hrest with ⟨e, hr⟩ | ⟨k', a, hload, hrun, hrest⟩
    · rw [hr]
      exact ⟨Or.inl h₁, fun a ha => by cases ha⟩
    · obtain rfl := h₁.load_eq hk hload
      rcases hrest with ⟨hkeeps, hr⟩ | ⟨-, hanswer, hr⟩
      · rw [hr]
        refine ⟨Or.inl h₁, fun a' ha => ?_⟩
        cases ha
        refine ⟨hrun, fun hwrites => ?_⟩
        rw [hkeeps] at hwrites
        cases hwrites
      · rw [hr, hanswer]
        rcases store_state t₁ directory key (k'.run key now op).2 with ⟨hs, hread⟩ | ⟨⟨e, hs⟩, hkept⟩
        · refine ⟨Or.inr (Or.inl hread), fun a' ha => ?_⟩
          rw [hs] at ha
          cases ha
          exact ⟨hrun, fun _ => Or.inl hread⟩
        · refine ⟨Or.inl (h₁.of_lookup hkept), fun a' ha => ?_⟩
          rw [hs] at ha
          cases ha

end DirectoryLeases

namespace DirectoryRepository

variable {t : FileTree} {directory other : String}

theorem store_lookup {r : StoredSession} (htmp : other ≠ path directory r.session.id ++ ".tmp")
    (hstate : other ≠ path directory r.session.id) :
    (store t directory r).2.lookup? other = t.lookup? other := by
  unfold store
  dsimp only
  split
  · rfl
  · rename_i t₁ hw
    split
    · rw [FileTree.write_ok hw]
      exact FileTree.lookup?_put_other t _ htmp
    · rename_i t₂ hr
      exact FileTree.replace_other hw hr htmp hstate

section Writes

variable {x : Session} (htmp : other ≠ path directory x.id ++ ".tmp") (hstate : other ≠ path directory x.id)
include htmp hstate

theorem create_lookup : (create t directory x).2.lookup? other = t.lookup? other := by
  have hstore := store_lookup (t := t) (r := .initial x) htmp hstate
  unfold create
  split
  · rfl
  · rfl
  · split <;> simp_all

theorem save_lookup {expected : Nat} {fence : Fence} :
    (save t directory x expected fence).2.lookup? other = t.lookup? other := by
  have hstore := store_lookup (t := t) (r := .saved x expected fence) htmp hstate
  unfold save
  split
  · rfl
  · rfl
  · split
    · rfl
    · split <;> simp_all

end Writes

/-- A repository in a directory leaves alone what is not the file of a session. -/
theorem run_lookup (h : ∀ id, other ≠ path directory id ∧ other ≠ path directory id ++ ".tmp")
    (op : RepositoryOp) : (run t directory op).2.lookup? other = t.lookup? other := by
  cases op with
  | load id => rfl
  | list =>
    simp only [run]
    split <;> rfl
  | create x => exact create_lookup (h x.id).2 (h x.id).1
  | save x expected fence => exact save_lookup (h x.id).2 (h x.id).1

end DirectoryRepository

end FencedSessions
