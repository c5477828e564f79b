import FencedSessions.Proofs.FileNames
import FencedSessions.Proofs.Files

/-! What the requests on one key have to do with another key. They work on the files of their key
only, so keys with different file names do not notice each other; keys that share a name share all
they have. -/

namespace FencedSessions

namespace FileTree

/-- There is the same at each of these paths. -/
def Agree (s : String → Prop) (t t' : FileTree) : Prop := ∀ p, s p → t.lookup? p = t'.lookup? p

/-- Two calls that fail in the same way, or leave trees that agree. -/
inductive Alike (s : String → Prop) : Except Fault FileTree → Except Fault FileTree → Prop
  | failed (f : Fault) : Alike s (.error f) (.error f)
  | done {t t' : FileTree} (h : Agree s t t') : Alike s (.ok t) (.ok t')

variable {s : String → Prop} {t t' : FileTree} {p q : String}

theorem Agree.put (h : Agree s t t') (p : String) (e : FileEntry) :
    Agree s (t.put p e) (t'.put p e) := by
  intro q hq
  by_cases hqp : q = p
  · rw [hqp, lookup?_put_self, lookup?_put_self]
  · rw [lookup?_put_other _ _ hqp, lookup?_put_other _ _ hqp, h q hq]

theorem Agree.erase (h : Agree s t t') (p : String) : Agree s (t.erase p) (t'.erase p) := by
  intro q hq
  by_cases hqp : q = p
  · rw [hqp, lookup?_erase_self, lookup?_erase_self]
  · rw [lookup?_erase_other _ hqp, lookup?_erase_other _ hqp, h q hq]

section Calls

variable (h : Agree s t t') (hp : s p) (hparent : s (parent p))
include h hp hparent

theorem find_agree : t.find p = t'.find p := by
  unfold find
  rw [h p hp, h _ hparent]

theorem read_agree : t.read p = t'.read p := by
  unfold read
  rw [find_agree h hp hparent]

theorem writable_agree : t.writable p = t'.writable p := by
  unfold writable
  rw [find_agree h hp hparent, h _ hparent]

theorem touch_alike : Alike s (t.touch p) (t'.touch p) := by
  unfold touch
  rw [writable_agree h hp hparent, h p hp]
  cases t'.writable p with
  | error f => exact .failed f
  | ok u =>
    cases t'.lookup? p with
    | some e => exact .done h
    | none => exact .done (h.put p _)

theorem write_alike (content : String) : Alike s (t.write p content) (t'.write p content) := by
  unfold write
  rw [writable_agree h hp hparent]
  cases t'.writable p with
  | error f => exact .failed f
  | ok u => exact .done (h.put p _)

theorem rename_alike (hq : s q) (hqparent : s (parent q)) :
    Alike s (t.rename p q) (t'.rename p q) := by
  unfold rename
  rw [read_agree h hp hparent, writable_agree h hq hqparent]
  cases t'.read p with
  | error f => exact .failed f
  | ok content =>
    cases t'.writable q with
    | error f => exact .failed f
    | ok u => exact .done ((h.erase p).put q _)

end Calls

end FileTree

namespace DirectoryLeases

open FileTree

/-- The paths that an operation on a key looks at: the files of the key, and what they are in. -/
def Seen (d key p : String) : Prop :=
  ∃ e ∈ [".lock", ".json", ".json.tmp"], p = path d key e ∨ p = parent (path d key e)

theorem extension_shape {e : String} (h : e ∈ [".lock", ".json", ".json.tmp"]) :
    e.toList.head? = some '.' ∧ ∀ c ∈ e.toList, c ≠ '/' := by
  simp only [List.mem_cons, List.not_mem_nil, or_false] at h
  rcases h with rfl | rfl | rfl
  · exact ⟨rfl, by simp⟩
  · exact ⟨rfl, by simp⟩
  · exact ⟨rfl, by simp⟩

variable {d a b e p : String} {t t' : FileTree} {k : KeyState} {now : Instant}

theorem seen_path (he : e ∈ [".lock", ".json", ".json.tmp"]) : Seen d a (path d a e) :=
  ⟨e, he, Or.inl rfl⟩

theorem seen_parent (he : e ∈ [".lock", ".json", ".json.tmp"]) : Seen d a (parent (path d a e)) :=
  ⟨e, he, Or.inr rfl⟩

/-- The files of a key are not among what an operation on a key with another name looks at. -/
theorem seen_ne (hname : fileStem b ≠ fileStem a) (hp : Seen d a p)
    (he : e ∈ [".lock", ".json", ".json.tmp"]) : p ≠ path d b e := by
  obtain ⟨e', he', rfl | rfl⟩ := hp
  · intro heq
    exact hname (path_injective (extension_shape he).1 (extension_shape he').1 heq.symm)
  · intro heq
    exact path_ne_parent (extension_shape he).1 (extension_shape he').2 heq.symm

/-- An operation leaves what is looked at for a key with another name. -/
theorem run_seen (hname : fileStem b ≠ fileStem a) (hp : Seen d a p) (op : LeaseOp) :
    (run t d now b op).2.lookup? p = t.lookup? p :=
  run_lookup now op (seen_ne hname hp (by simp)) (seen_ne hname hp (by simp))
    (seen_ne hname hp (by simp))

section Agreement

variable (h : Agree (Seen d a) t t')
include h

theorem load_agree : load t (path d a ".json") = load t' (path d a ".json") := by
  unfold load
  rw [read_agree h (seen_path (by simp)) (seen_parent (by simp))]

theorem store_agree (k : KeyState) :
    (store t d a k).1 = (store t' d a k).1 ∧
      Agree (Seen d a) (store t d a k).2 (store t' d a k).2 := by
  have hwrite := write_alike h (seen_path (e := ".json.tmp") (by simp)) (seen_parent (by simp))
    k.toJson.text
  unfold store
  dsimp only
  generalize t.write (path d a ".json.tmp") k.toJson.text = w at hwrite ⊢
  generalize t'.write (path d a ".json.tmp") k.toJson.text = w' at hwrite ⊢
  cases hwrite with
  | failed f => exact ⟨rfl, h⟩
  | @done t₁ t₁' h₁ =>
    have hrename := rename_alike h₁ (seen_path (e := ".json.tmp") (by simp)) (seen_parent (by simp))
      (seen_path (e := ".json") (by simp)) (seen_parent (by simp))
    dsimp only
    generalize t₁.rename (path d a ".json.tmp") (path d a ".json") = m at hrename ⊢
    generalize t₁'.rename (path d a ".json.tmp") (path d a ".json") = m' at hrename ⊢
    cases hrename with
    | failed f => exact ⟨rfl, h₁⟩
    | done h₂ => exact ⟨rfl, h₂⟩

/-- An operation answers by what it looks at, and leaves there what follows from it. -/
theorem run_agree (now : Instant) (op : LeaseOp) :
    (run t d now a op).1 = (run t' d now a op).1 ∧
      Agree (Seen d a) (run t d now a op).2 (run t' d now a op).2 := by
  have htouch := touch_alike h (seen_path (e := ".lock") (by simp)) (seen_parent (by simp))
  unfold run
  generalize t.touch (path d a ".lock") = l at htouch ⊢
  generalize t'.touch (path d a ".lock") = l' at htouch ⊢
  cases htouch with
  | failed f => exact ⟨rfl, h⟩
  | @done t₁ t₁' h₁ =>
    dsimp only
    rw [load_agree h₁]
    cases load t₁' (path d a ".json") with
    | error e => exact ⟨rfl, h₁⟩
    | ok k =>
      dsimp only
      rcases k.run a now op with ⟨_ | answer, k'⟩
      · exact ⟨rfl, h₁⟩
      · dsimp only
        obtain ⟨hanswer, htree⟩ := store_agree h₁ k'
        split
        · generalize store t₁ d a k' = r at hanswer htree
          generalize store t₁' d a k' = r' at hanswer htree
          obtain ⟨_ | _, _⟩ := r <;> obtain ⟨_ | _, _⟩ := r' <;> cases hanswer <;>
            exact ⟨rfl, htree⟩
        · exact ⟨rfl, h₁⟩

end Agreement

end DirectoryLeases

/-- An operation to be carried out at some time. -/
structure LeaseRequest where
  time : Instant
  key : String
  op : LeaseOp

structure LeaseReply where
  request : LeaseRequest
  answer : Except Stop request.op.Answer

namespace DirectoryLeases

open FileTree

/-- Carries out requests one after another. -/
def serve (d : String) : FileTree → List LeaseRequest → List LeaseReply × FileTree
  | t, [] => ([], t)
  | t, r :: rs =>
    let done := run t d r.time r.key r.op
    let rest := serve d done.2 rs
    (⟨r, done.1⟩ :: rest.1, rest.2)

variable {d a : String}

/-- The requests on a key are served as if those on keys with other names did not exist. -/
theorem serve_agree {rs : List LeaseRequest} {t t' : FileTree}
    (hnames : ∀ r ∈ rs, r.key ≠ a → fileStem r.key ≠ fileStem a) (h : Agree (Seen d a) t t') :
    (serve d t rs).1.filter (·.request.key = a) = (serve d t' (rs.filter (·.key = a))).1 ∧
      Agree (Seen d a) (serve d t rs).2 (serve d t' (rs.filter (·.key = a))).2 := by
  induction rs generalizing t t' with
  | nil => exact ⟨rfl, h⟩
  | cons r rs ih =>
    simp only [List.mem_cons, forall_eq_or_imp] at hnames
    by_cases hr : r.key = a
    · subst hr
      obtain ⟨hanswer, htree⟩ := run_agree h r.time r.op
      have ih := ih hnames.2 htree
      simp [serve, ih, hanswer]
    · have hkept : Agree (Seen d a) (run t d r.time r.key r.op).2 t' := by
        intro p hp
        rw [run_seen (hnames.1 hr) hp]
        exact h p hp
      have ih := ih hnames.2 hkept
      simp [serve, hr, ih]

/-- Keys have files in common if they have one name, and only then. Keys that all escape characters
of one length have different names, and so have session ids, which escape none. The requests on a
key, and what is on record for it, do not depend on requests on keys with other names. -/
theorem keys_isolated (d a : String) (t : FileTree) {rs : List LeaseRequest}
    (hnames : ∀ r ∈ rs, r.key ≠ a → fileStem r.key ≠ fileStem a) :
    (∀ b, ∀ e ∈ [".json", ".lock"], path d a e = path d b e ↔ fileStem a = fileStem b) ∧
    (∀ b w, EscapedBy w a → EscapedBy w b → a ≠ b → fileStem a ≠ fileStem b) ∧
    (∀ i j : SessionId, i ≠ j → fileStem i.text ≠ fileStem j.text) ∧
    (serve d t rs).1.filter (·.request.key = a) = (serve d t (rs.filter (·.key = a))).1 ∧
    load (serve d t rs).2 (path d a ".json") =
      load (serve d t (rs.filter (·.key = a))).2 (path d a ".json") := by
  have hself : Agree (Seen d a) t t := fun p hp => rfl
  obtain ⟨hreplies, htree⟩ := serve_agree hnames hself
  refine ⟨?_, ?_, ?_, hreplies, load_agree htree⟩
  · have hdot : ∀ e ∈ [".json", ".lock"], e.toList.head? = some '.' := by decide
    intro b e he
    exact path_eq_iff (hdot e he)
  · intro b w ha hb hne heq
    exact hne (fileStem_injective ha hb heq)
  · intro i j hne heq
    have hescaped (id : SessionId) : EscapedBy 0 id.text := by
      intro c hc hplain
      rw [isStemChar_text id c hc] at hplain
      cases hplain
    exact hne (SessionId.text_injective (fileStem_injective (hescaped i) (hescaped j) heq))

theorem keys_isolated_slashes :
    let rs : List LeaseRequest := [⟨⟨0⟩, "/a", .get⟩, ⟨⟨0⟩, "/b", .enqueue "x" ⟨1000⟩⟩]
    fileStem "/b" ≠ fileStem "/a" ∧
      (serve "leases" ⟨[("leases", .directory)]⟩ rs).1.filter (·.request.key = "/a") =
        (serve "leases" ⟨[("leases", .directory)]⟩ (rs.filter (·.key = "/a"))).1 := by
  intro rs
  have hnames : ∀ r ∈ rs, r.key ≠ "/a" → fileStem r.key ≠ fileStem "/a" := by decide +kernel
  exact ⟨hnames ⟨⟨0⟩, "/b", .enqueue "x" ⟨1000⟩⟩ (by simp [rs]) (by decide),
    (keys_isolated "leases" "/a" _ hnames).2.2.2.1⟩

/-- A slash and an `a` after it have the name of one character whose code has three digits. -/
theorem keys_shared :
    "/a" ≠ "˺" ∧ path "leases" "/a" ".json" = path "leases" "˺" ".json" ∧
      path "leases" "/a" ".lock" = path "leases" "˺" ".lock" ∧
      let t := (run ⟨[("leases", .directory)]⟩ "leases" ⟨0⟩ "/a" (.grant none "x" 0 ⟨1000⟩)).2
      (run t "leases" ⟨0⟩ "˺" .get).1.toOption = some (some ⟨"/a", "x", ⟨1⟩, ⟨1000⟩, 0⟩) := by
  decide +kernel

end DirectoryLeases

end FencedSessions
