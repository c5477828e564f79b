import FencedSessions.Proofs.Files
import FencedSessions.Proofs.SessionText

/-! What is loaded of a session after a write that was accepted. A session whose numbers are read as
they are written comes back if its values are shallow enough for the reader; if they are not, the write
is accepted all the same, and from then on the session cannot be loaded. A float whose numeral is read
as another float is accepted too, and the session comes back with the other float. -/

namespace FencedSessions.DirectoryRepository

variable {t t' : FileTree} {d : String} {r : StoredSession} {x : Session} {v expected : Nat}
  {fence : Fence}

/-- The session that a call writes. -/
def target? : RepositoryOp → Option SessionId
  | .create x => some x.id
  | .save x _ _ => some x.id
  | .load _ => none
  | .list => none

theorem length_path (d : String) (id : SessionId) :
    (path d id).toList.length = d.toList.length + 42 := by
  have hlength := SessionId.length_chars id
  simp [path, SessionId.text, hlength]

/-- The files of a session are not the file of another one. -/
theorem path_other {id other : SessionId} (h : other ≠ id) :
    path d id ≠ path d other ∧ path d id ≠ path d other ++ ".tmp" := by
  constructor
  · intro heq
    have htext : id.text = other.text := by
      have hlists := congrArg String.toList heq
      simp only [path, String.toList_append, List.append_assoc, List.append_cancel_left_eq,
        List.append_cancel_right_eq] at hlists
      exact String.toList_inj.mp hlists
    exact h (SessionId.text_injective htext).symm
  · intro heq
    have hlength := congrArg (·.toList.length) heq
    simp only [String.toList_append, List.length_append, length_path] at hlength
    simp at hlength

/-- A call leaves alone the sessions that it does not write. -/
theorem run_other {id : SessionId} {op : RepositoryOp} (h : target? op ≠ some id) :
    (run t d op).2.lookup? (path d id) = t.lookup? (path d id) := by
  cases op with
  | load i => rfl
  | list =>
    simp only [run]
    split <;> rfl
  | create x =>
    have hx : x.id ≠ id := fun heq => h (congrArg some heq)
    obtain ⟨hstate, htmp⟩ := path_other (d := d) hx
    exact create_lookup htmp hstate
  | save x expected fence =>
    have hx : x.id ≠ id := fun heq => h (congrArg some heq)
    obtain ⟨hstate, htmp⟩ := path_other (d := d) hx
    exact save_lookup htmp hstate

/-- What calls one after another leave. -/
def after (d : String) (t : FileTree) (ops : List RepositoryOp) : FileTree :=
  ops.foldl (fun t op => (run t d op).2) t

theorem after_other {id : SessionId} {ops : List RepositoryOp} (h : ∀ op ∈ ops, target? op ≠ some id) :
    (after d t ops).lookup? (path d id) = t.lookup? (path d id) := by
  induction ops generalizing t with
  | nil => rfl
  | cons op ops ih =>
    have hop := run_other (t := t) (d := d) (h op (by simp))
    exact (ih fun o ho => h o (by simp [ho])).trans hop

/-- An accepted record is in place as a whole. -/
theorem store_ok (h : store t d r = (.ok (), t')) :
    t'.read (path d r.session.id) = .ok r.toJson.indented := by
  unfold store at h
  dsimp only at h
  split at h
  · cases h
  · rename_i t₁ hw
    split at h
    · cases h
    · rename_i t₂ hr
      cases h
      obtain ⟨content, hread, hname, rfl⟩ := FileTree.rename_ok hr
      have hcontent := (FileTree.read_ok.mp hread).2
      rw [FileTree.write_ok hw, FileTree.lookup?_put_self] at hcontent
      cases hcontent
      exact FileTree.read_ok.mpr ⟨hname, FileTree.lookup?_put_self ..⟩

theorem create_ok (h : create t d x = (.ok v, t')) :
    v = 1 ∧ t'.read (path d x.id) = .ok (StoredSession.initial x).toJson.indented := by
  unfold create at h
  split at h
  · cases h
  · cases h
  · split at h
    · rename_i hstore
      have hread := store_ok hstore
      cases h
      exact ⟨rfl, hread⟩
    · cases h

theorem save_ok (h : save t d x expected fence = (.ok v, t')) :
    v = expected + 1 ∧
      t'.read (path d x.id) = .ok (StoredSession.saved x expected fence).toJson.indented := by
  unfold save at h
  split at h
  · cases h
  · cases h
  · split at h
    · cases h
    · split at h
      · rename_i hstore
        have hread := store_ok hstore
        cases h
        exact ⟨rfl, hread⟩
      · cases h

/-- A record in place is loaded as the record that its text is read as if the session of that one is
shallow, and only then. -/
theorem load_readAs {written : StoredSession} (hsame : written.toJson.ReadAs r.toJson)
    (hread : t.read (path d x.id) = .ok written.toJson.indented)
    (hfence : r.fence.value < Word.size64) (h : r.session.Storable) :
    (r.session.Shallow ∧ (run t d (.load x.id)).1 = .ok (some r.session)) ∨
      (¬r.session.Shallow ∧ ∃ e, (run t d (.load x.id)).1 = .error e) := by
  unfold run find?
  simp only [hread, Json.Reader.ofText_indented_readAs hsame]
  rcases StoredSession.reader_toJson hfence h with ⟨hx, hr⟩ | ⟨hx, e, hr⟩
  · exact Or.inl ⟨hx, by rw [hr]; rfl⟩
  · exact Or.inr ⟨hx, _, by rw [hr]; rfl⟩

/-- Loading answers the session if it is shallow, and fails if it is not. -/
def Loads (t : FileTree) (d : String) (x : Session) : Prop :=
  ((run t d (.load x.id)).1 = .ok (some x) ↔ x.Shallow) ∧
    (¬x.Shallow → ∃ e, (run t d (.load x.id)).1 = .error e)

theorem loads_after {ops : List RepositoryOp} (h : ∀ op ∈ ops, target? op ≠ some r.session.id)
    (hread : t.read (path d r.session.id) = .ok r.toJson.indented)
    (hfence : r.fence.value < Word.size64) (hr : r.session.Storable) :
    Loads (after d t ops) d r.session := by
  obtain ⟨hname, hlookup⟩ := FileTree.read_ok.mp hread
  have hread' := FileTree.read_ok.mpr ⟨hname, (after_other h).trans hlookup⟩
  have hsame := (StoredSession.plain_toJson hfence hr).readAs
  rcases load_readAs hsame hread' hfence hr with ⟨hx, hload⟩ | ⟨hx, e, hload⟩
  · exact ⟨iff_of_true hload hx, fun hdeep => absurd hx hdeep⟩
  · refine ⟨iff_of_false ?_ hx, fun _ => ⟨e, hload⟩⟩
    rw [hload]
    simp

/-- After a write that is accepted, whatever is done to other sessions, a session whose numbers are read
as they are written comes back under the version that the write answered, if and only if its values
leave the reader room. A float whose numeral is read as another float is the other way in which an
accepted session does not come back; it is not `Storable`, and `accepted_misread` says what is loaded
then. -/
theorem accepted_loads (t : FileTree) (d : String) (h : x.Storable)
    (hwords : expected + 1 < Word.size64 ∧ fence.value < Word.size64) :
    (∀ v t' ops, run t d (.create x) = (.ok v, t') → (∀ op ∈ ops, target? op ≠ some x.id) →
      Loads (after d t' ops) d { x with version := v }) ∧
    (∀ v t' ops, run t d (.save x expected fence) = (.ok v, t') →
      (∀ op ∈ ops, target? op ≠ some x.id) → Loads (after d t' ops) d { x with version := v }) := by
  constructor
  · intro v t' ops hrun hops
    obtain ⟨rfl, hread⟩ := create_ok hrun
    have hfence : (StoredSession.initial x).fence.value < Word.size64 := show 0 < Word.size64 by decide
    have hsession : (StoredSession.initial x).session.Storable :=
      { h with version := show 1 < Word.size64 by decide }
    exact loads_after (r := .initial x) hops hread hfence hsession
  · intro v t' ops hrun hops
    obtain ⟨rfl, hread⟩ := save_ok hrun
    have hfence : (StoredSession.saved x expected fence).fence.value < Word.size64 := hwords.2
    have hsession : (StoredSession.saved x expected fence).session.Storable :=
      { h with version := hwords.1 }
    exact loads_after (r := .saved x expected fence) hops hread hfence hsession

/-- Lists in one another around an empty one. -/
def nested : Nat → Json
  | 0 => .array []
  | n + 1 => .array [nested n]

theorem depth_nested (n : Nat) : (nested n).depth = n + 1 := by
  induction n with
  | zero => rfl
  | succ n ih => simp [nested, Json.depth, Json.depthItems, ih]

theorem faithful_nested (n : Nat) : (nested n).Faithful := by
  induction n with
  | zero => exact ⟨trivial, trivial⟩
  | succ n ih => exact ⟨⟨ih.plain, trivial⟩, ⟨ih.inOrder, trivial⟩⟩

/-- A session with one checkpoint. -/
def keeping (payload : Json) : Session := (Session.create .nil 0 ⟨0⟩).addCheckpoint payload "r" ⟨0⟩

theorem storable_keeping {payload : Json} (h : payload.Faithful) : (keeping payload).Storable := by
  have hepoch : (⟨0⟩ : Instant).Held := by decide
  have hzero : 0 < Word.size8 ∧ 0 < Word.size64 ∧ 1 < Word.size64 := by decide
  refine ⟨hzero.1, ?_, ?_, hzero.2.1, hepoch, hepoch, .nil, ?_⟩
  · intro c hc
    rw [List.mem_singleton.mp hc]
    exact ⟨hzero.2.2, h, hepoch⟩
  · intro t ht
    cases ht
  · intro f hf
    cases hf

/-- A session with one checkpoint, whose payload nests `n + 1` lists. -/
def holder (n : Nat) : Session := (Session.create .nil 0 ⟨0⟩).addCheckpoint (nested n) "r" ⟨0⟩

theorem storable_holder (n : Nat) : (holder n).Storable := storable_keeping (faithful_nested n)

theorem shallow_holder {n v : Nat} : ({ holder n with version := v } : Session).Shallow ↔ n < 123 := by
  constructor
  · intro h
    have hdepth : (nested n).depth < 124 := h.checkpoints _ (List.mem_singleton.mpr rfl)
    rw [depth_nested] at hdepth
    omega
  · intro hn
    refine ⟨?_, ?_⟩
    · intro c hc
      have hdepth : (nested n).depth < 124 := by
        rw [depth_nested]
        omega
      rw [List.mem_singleton.mp hc]
      exact hdepth
    · intro f hf
      cases hf

theorem accepted_loads_nested :
    let written := run ⟨[("sessions", .directory)]⟩ "sessions" (.create (holder 122))
    written.1 = .ok 1 ∧
      (run written.2 "sessions" (.load .nil)).1 = .ok (some { holder 122 with version := 1 }) := by
  intro written
  have hok : written.1 = .ok 1 := rfl
  have hwords : 0 + 1 < Word.size64 ∧ Fence.zero.value < Word.size64 := by decide
  have hloads := (accepted_loads ⟨[("sessions", .directory)]⟩ "sessions" (storable_holder 122)
    hwords).1 1 written.2 [] (Prod.ext hok rfl) (by simp)
  exact ⟨hok, hloads.1.mpr (shallow_holder.mpr (by decide))⟩

/-- One level more is still a value that a text may hold, and is accepted in a session that cannot be
loaded again. -/
theorem accepted_unloadable :
    let written := run ⟨[("sessions", .directory)]⟩ "sessions" (.create (holder 123))
    Json.ofText (nested 123).text = .ok (nested 123) ∧ written.1 = .ok 1 ∧
      ∃ e, (run written.2 "sessions" (.load .nil)).1 = .error e := by
  intro written
  have hok : written.1 = .ok 1 := rfl
  have hrun : create ⟨[("sessions", .directory)]⟩ "sessions" (holder 123) = (.ok 1, written.2) :=
    Prod.ext hok rfl
  have hfence : (StoredSession.initial (holder 123)).fence.value < Word.size64 := by decide
  have hsession : (StoredSession.initial (holder 123)).session.Storable :=
    { storable_holder 123 with version := by decide }
  have hloads := loads_after (r := .initial (holder 123)) (List.forall_mem_nil _) (create_ok hrun).2
    hfence hsession
  have hany : Json.Reader.any Json.Reader.fullRoom (.ofJson (nested 123)) = .ok (nested 123) := by
    rw [Json.Reader.any_depth (faithful_nested 123).inOrder (by decide), depth_nested]
    rfl
  exact ⟨Json.Reader.ofText_text (faithful_nested 123).plain hany, hok,
    hloads.2 fun h => absurd (shallow_holder.mp h) (by decide)⟩

theorem keeping_readAs {j k : Json} (h : j.ReadAs k) :
    (StoredSession.initial (keeping j)).toJson.ReadAs (StoredSession.initial (keeping k)).toJson := by
  have hzero : (Json.nat 0).Plain := Json.plain_nat (by decide)
  have hone : (Json.nat 1).Plain := Json.plain_nat (by decide)
  have hcheckpoint : (Checkpoint.toJson ⟨1, j, ⟨0⟩, "r"⟩).ReadAs (Checkpoint.toJson ⟨1, k, ⟨0⟩, "r"⟩) :=
    .object (.cons _ hone.readAs (.cons _ h (Json.PlainFields.readAs ⟨trivial, trivial, trivial⟩)))
  have hsession : Json.ReadAs (StoredSession.initial (keeping j)).session.toJson
      (StoredSession.initial (keeping k)).session.toJson :=
    .object (.cons _ (.string _) (.cons _ (.string _) (.cons _ hzero.readAs
      (.cons _ (.array (.cons hcheckpoint .nil))
        (Json.PlainFields.readAs ⟨trivial, hone, trivial, trivial, trivial, trivial⟩)))))
  exact .object (.cons _ hzero.readAs (.cons _ hsession .nil))

/-- A session that is created is loaded as the session that the text of its record is read as. -/
theorem created_readAs {y : Session}
    (hsame : (StoredSession.initial x).toJson.ReadAs (StoredSession.initial y).toJson) (hy : y.Storable)
    (hshallow : y.Shallow) (hrun : run t d (.create x) = (.ok v, t')) :
    (run t' d (.load x.id)).1 = .ok (some { y with version := v }) := by
  obtain ⟨rfl, hread⟩ := create_ok hrun
  have hfence : (StoredSession.initial y).fence.value < Word.size64 := show 0 < Word.size64 by decide
  have hsession : (StoredSession.initial y).session.Storable :=
    { hy with version := show 1 < Word.size64 by decide }
  rcases load_readAs hsame hread hfence hsession with ⟨-, hload⟩ | ⟨hdeep, -⟩
  · exact hload
  · exact absurd ⟨hshallow.checkpoints, hshallow.metadata⟩ hdeep

section Misread

open Json.Sketch

/-- A float, whose own numeral is `7e-24`. -/
def below : Number := .float 0x3b20ecca46737cd2

/-- The float next to it. -/
def above : Number := .float 0x3b20ecca46737cd3

theorem scanNumber_below : scanNumber "7.0e-24".toList = (.number (.ok below), []) := by
  have hparts : scanParts "7.0e-24".toList =
    .ok (⟨false, ['7'], some ['0'], some (true, ['2', '4'])⟩, []) := rfl
  have hnumber : Number.ofParts? ⟨false, ['7'], some ['0'], some (true, ['2', '4'])⟩ = some below := by
    decide +kernel
  exact Json.scanNumber_parts hparts hnumber

theorem reads_below : Json.Reads below above := by
  have hchars : below.chars = "7e-24".toList := by decide +kernel
  have hparts : scanParts "7e-24".toList = .ok (⟨false, ['7'], none, some (true, ['2', '4'])⟩, []) := rfl
  have hnumber : Number.ofParts? ⟨false, ['7'], none, some (true, ['2', '4'])⟩ = some above := by
    decide +kernel
  rw [Json.Reads, hchars, Json.scanNumber_parts hparts hnumber]

theorem readable_above : Json.Readable above := by
  have hchars : above.chars = "7.000000000000001e-24".toList := by decide +kernel
  have hparts : scanParts "7.000000000000001e-24".toList =
    .ok (⟨false, ['7'], some "000000000000001".toList, some (true, ['2', '4'])⟩, []) := rfl
  have hnumber : Number.ofParts? ⟨false, ['7'], some "000000000000001".toList,
      some (true, ['2', '4'])⟩ = some above := by
    decide +kernel
  rw [Json.Readable, hchars, Json.scanNumber_parts hparts hnumber]

/-- A float that one numeral is read as need not be what its own numeral is read as: a session that holds
such a float is accepted, and comes back with another one. -/
theorem accepted_misread :
    let written := run ⟨[("sessions", .directory)]⟩ "sessions" (.create (keeping (.number below)))
    scanNumber "7.0e-24".toList = (.number (.ok below), []) ∧ written.1 = .ok 1 ∧ above ≠ below ∧
      (run written.2 "sessions" (.load .nil)).1 =
        .ok (some { keeping (.number above) with version := 1 }) := by
  intro written
  have hok : written.1 = .ok 1 := rfl
  have hrun : written = (.ok 1, written.2) := Prod.ext hok rfl
  have hsame := keeping_readAs (.number reads_below)
  have hfaithful : (Json.number above).Faithful := ⟨readable_above, trivial⟩
  have hshallow : (keeping (.number above)).Shallow := by decide
  have hload := created_readAs hsame (storable_keeping hfaithful) hshallow hrun
  exact ⟨scanNumber_below, hok, by decide, hload⟩

end Misread

end FencedSessions.DirectoryRepository
