import FencedSessions.Proofs.Records

/-! What a repository in memory has accepted, told from its answers. The versions of a session count the
accepted saves, so a version is the name of one content and admits one writer. -/

namespace FencedSessions

/-- What a repository answers to an operation. -/
structure RepositoryReply where
  op : RepositoryOp
  answer : Except Error op.Answer

namespace RepositoryReply

/-- Whether the session was created. -/
def creates (id : SessionId) : RepositoryReply → Bool
  | ⟨.create x, .ok _⟩ => x.id = id
  | _ => false

/-- The version that an accepted save has replaced, and the fence that it bore. -/
def saved? (id : SessionId) : RepositoryReply → Option (Nat × Fence)
  | ⟨.save x expected fence, .ok _⟩ => if x.id = id then some (expected, fence) else none
  | _ => none

/-- The session that a load has answered. -/
def loaded? (id : SessionId) : RepositoryReply → Option Session
  | ⟨.load i, .ok found⟩ => if i = id then found else none
  | _ => none

/-- How often a session was created. -/
def creations (id : SessionId) (replies : List RepositoryReply) : Nat := replies.countP (·.creates id)

/-- The accepted saves of a session, in their order. -/
def saves (id : SessionId) (replies : List RepositoryReply) : List (Nat × Fence) :=
  replies.filterMap (·.saved? id)

/-- What was loaded of a session. -/
def loads (id : SessionId) (replies : List RepositoryReply) : List Session :=
  replies.filterMap (·.loaded? id)

section Concat

variable (id : SessionId) (replies : List RepositoryReply) (r : RepositoryReply)

theorem creations_concat :
    creations id (replies ++ [r]) = creations id replies + if r.creates id then 1 else 0 := by
  simp [creations, List.countP_append, List.countP_singleton]

theorem saves_concat : saves id (replies ++ [r]) = saves id replies ++ (r.saved? id).toList := by
  rw [saves, List.filterMap_append, ← saves]
  cases hr : r.saved? id <;> simp [hr]

theorem loads_concat : loads id (replies ++ [r]) = loads id replies ++ (r.loaded? id).toList := by
  rw [loads, List.filterMap_append, ← loads]
  cases hr : r.loaded? id <;> simp [hr]

end Concat

/-- The highest fence of some saves. -/
def highest (saves : List (Nat × Fence)) : Nat := (saves.map (·.2.value)).foldl max 0

theorem highest_concat (saves : List (Nat × Fence)) (expected : Nat) (fence : Fence) :
    highest (saves ++ [(expected, fence)]) = max (highest saves) fence.value := by
  simp [highest, List.foldl_append]

end RepositoryReply

namespace MemoryRepository

open RepositoryReply

/-- Carries out operations one after another. -/
def serve : MemoryRepository → List RepositoryOp → List RepositoryReply
  | _, [] => []
  | m, op :: ops => ⟨op, (m.run op).1⟩ :: (m.run op).2.serve ops

/-- What operations one after another leave. -/
def after (m : MemoryRepository) (ops : List RepositoryOp) : MemoryRepository :=
  ops.foldl (fun m op => (m.run op).2) m

/-- What the replies so far say of a session, and what is stored of it. -/
structure Accounted (replies : List RepositoryReply) (m : MemoryRepository) (id : SessionId) : Prop where
  created : creations id replies = if (m.find? id).isSome then 1 else 0
  unknown : m.find? id = none → saves id replies = [] ∧ loads id replies = []
  version : ∀ r, m.find? id = some r → r.session.version = 1 + (saves id replies).length
  fence : ∀ r, m.find? id = some r → r.fence.value = highest (saves id replies)
  replaced : (saves id replies).map (·.1) = List.range' 1 (saves id replies).length
  /-- Of the stored version nothing but the stored session was loaded, and of no later one anything. -/
  loaded : ∀ r, m.find? id = some r → ∀ x ∈ loads id replies,
    x.version ≤ r.session.version ∧ (x.version = r.session.version → x = r.session)
  alike : ∀ x ∈ loads id replies, ∀ y ∈ loads id replies, x.version = y.version → x = y

namespace Accounted

variable {replies : List RepositoryReply} {m m' : MemoryRepository} {id : SessionId}

/-- A reply that is not about a session, or says nothing of it. -/
theorem silent (h : Accounted replies m id) {r : RepositoryReply} (hm : m'.find? id = m.find? id)
    (hcreates : r.creates id = false) (hsaved : r.saved? id = none) (hloaded : r.loaded? id = none) :
    Accounted (replies ++ [r]) m' id := by
  constructor
  all_goals simp only [hm, creations_concat, saves_concat, loads_concat, hcreates, hsaved, hloaded,
    Bool.false_eq_true, if_false, Nat.add_zero, Option.toList_none, List.append_nil]
  · exact h.created
  · exact h.unknown
  · exact h.version
  · exact h.fence
  · exact h.replaced
  · exact h.loaded
  · exact h.alike

theorem load (h : Accounted replies m id) :
    Accounted (replies ++ [⟨.load id, .ok ((m.find? id).map (·.session))⟩]) m id := by
  cases hfound : m.find? id with
  | none => exact h.silent rfl rfl rfl (by simp [loaded?])
  | some r =>
    have hloaded : RepositoryReply.loaded? id ⟨.load id, .ok (some r.session)⟩ = some r.session :=
      if_pos rfl
    constructor
    all_goals simp only [Option.map_some, creations_concat, saves_concat, loads_concat, hloaded,
      creates, saved?, Bool.false_eq_true, if_false, Nat.add_zero, Option.toList_none,
      Option.toList_some, List.append_nil]
    · exact h.created
    · intro hnone
      rw [hfound] at hnone
      cases hnone
    · exact h.version
    · exact h.fence
    · exact h.replaced
    · intro r' hr' x hx
      obtain rfl := Option.some.inj (hfound.symm.trans hr')
      rcases List.mem_append.mp hx with hx | hx
      · exact h.loaded r hfound x hx
      · obtain rfl := List.mem_singleton.mp hx
        exact ⟨Nat.le_refl _, fun _ => rfl⟩
    · intro x hx y hy hxy
      have hlast (z : Session) (hz : z ∈ loads id replies ++ [r.session])
          (hv : z.version = r.session.version) : z = r.session := by
        rcases List.mem_append.mp hz with hz | hz
        · exact (h.loaded r hfound z hz).2 hv
        · exact List.mem_singleton.mp hz
      rcases List.mem_append.mp hx with hx' | hx'
      · rcases List.mem_append.mp hy with hy' | hy'
        · exact h.alike x hx' y hy' hxy
        · rw [List.mem_singleton.mp hy'] at hxy ⊢
          exact hlast x hx hxy
      · rw [List.mem_singleton.mp hx'] at hxy ⊢
        exact (hlast y hy hxy.symm).symm

theorem create {x : Session} (h : Accounted replies m x.id) (hnew : m.find? x.id = none) :
    Accounted (replies ++ [⟨.create x, .ok 1⟩]) (m.put x.id (.initial x)) x.id := by
  obtain ⟨hnosaves, hnoloads⟩ := h.unknown hnew
  have hcreations : creations x.id (replies ++ [⟨.create x, .ok 1⟩]) = 1 := by
    simp [creations_concat, h.created, hnew, creates]
  have hsaves : saves x.id (replies ++ [⟨.create x, .ok 1⟩]) = [] := by
    simp [saves_concat, hnosaves, saved?]
  have hloads : loads x.id (replies ++ [⟨.create x, .ok 1⟩]) = [] := by
    simp [loads_concat, hnoloads, loaded?]
  constructor
  all_goals simp only [find?_put_self, hcreations, hsaves, hloads, Option.some.injEq]
  · rfl
  · intro hnone
    cases hnone
  · rintro r rfl
    rfl
  · rintro r rfl
    rfl
  · rfl
  · intro r hr y hy
    cases hy
  · intro y hy
    cases hy

theorem save {x : Session} {old : StoredSession} {fence : Fence} (h : Accounted replies m x.id)
    (hold : m.find? x.id = some old) (hfence : old.fence ≤ fence) :
    Accounted (replies ++ [⟨.save x old.session.version fence, .ok (old.session.version + 1)⟩])
      (m.put x.id (.saved x old.session.version fence)) x.id := by
  generalize hreply : (⟨.save x old.session.version fence, .ok (old.session.version + 1)⟩ :
    RepositoryReply) = reply
  have hcreations : creations x.id (replies ++ [reply]) = 1 := by
    simp [creations_concat, h.created, hold, ← hreply, creates]
  have hsaves : saves x.id (replies ++ [reply]) =
      saves x.id replies ++ [(old.session.version, fence)] := by
    simp [saves_concat, ← hreply, saved?]
  have hloads : loads x.id (replies ++ [reply]) = loads x.id replies := by
    simp [loads_concat, ← hreply, loaded?]
  have hversion := h.version old hold
  constructor
  all_goals simp only [find?_put_self, hcreations, hsaves, hloads, Option.some.injEq]
  · rfl
  · intro hnone
    cases hnone
  · rintro r rfl
    simp only [StoredSession.saved, List.length_append, List.length_singleton, hversion]
    omega
  · rintro r rfl
    rw [highest_concat, ← h.fence old hold]
    exact (Nat.max_eq_right hfence).symm
  · rw [List.map_append, h.replaced, List.length_append, List.length_singleton, List.range'_concat]
    simp [hversion]
  · rintro r rfl y hy
    have hle := (h.loaded old hold y hy).1
    have hlt : y.version < (StoredSession.saved x old.session.version fence).session.version :=
      Nat.lt_succ_of_le hle
    exact ⟨Nat.le_of_lt hlt, fun heq => absurd heq (Nat.ne_of_lt hlt)⟩
  · exact h.alike

/-- Whatever is carried out next is accounted for. -/
theorem run (h : Accounted replies m id) (op : RepositoryOp) :
    Accounted (replies ++ [⟨op, (m.run op).1⟩]) (m.run op).2 id := by
  cases op with
  | load i =>
    by_cases hi : i = id
    · subst hi
      exact h.load
    · exact h.silent rfl rfl rfl (if_neg hi)
  | list => exact h.silent rfl rfl rfl rfl
  | create x =>
    change Accounted (replies ++ [⟨.create x, (m.create x).1⟩]) (m.create x).2 id
    rcases m.create_cases x with ⟨e, hc⟩ | ⟨hnew, hc⟩
    · rw [hc]
      exact h.silent rfl rfl rfl rfl
    · rw [hc]
      by_cases hx : x.id = id
      · subst hx
        exact h.create hnew
      · exact h.silent (m.find?_put_other _ (Ne.symm hx)) (decide_eq_false hx) rfl rfl
  | save x expected fence =>
    change Accounted (replies ++ [⟨.save x expected fence, (m.save x expected fence).1⟩])
      (m.save x expected fence).2 id
    rcases m.save_cases x expected fence with ⟨e, hc⟩ | ⟨old, hold, rfl, hfence, hc⟩
    · rw [hc]
      exact h.silent rfl rfl rfl rfl
    · rw [hc]
      by_cases hx : x.id = id
      · subst hx
        exact h.save hold hfence
      · exact h.silent (m.find?_put_other _ (Ne.symm hx)) rfl (if_neg hx) rfl

theorem serve (h : Accounted replies m id) (ops : List RepositoryOp) :
    Accounted (replies ++ m.serve ops) (m.after ops) id := by
  induction ops generalizing replies m with
  | nil =>
    rw [show m.serve [] = [] from rfl, List.append_nil]
    exact h
  | cons op ops ih =>
    have hrest := ih (h.run op)
    rw [List.append_assoc, List.singleton_append] at hrest
    exact hrest

theorem empty (id : SessionId) : Accounted [] {} id := by
  constructor
  all_goals simp [MemoryRepository.find?, Keyed.find?, creations, saves, loads]

end Accounted

/-- The contract of a repository with writers that do not trust each other. Whatever operations were
carried out, with whatever versions and fences: one that fails changes nothing; a session is created at
most once; of all saves that expect one version at most one is accepted; what is stored has been created,
its version counts the accepted saves and its fence is the highest that was accepted; and a version
names one content, for everyone that ever loads it. -/
theorem accepts_in_order (ops : List RepositoryOp) (id : SessionId) :
    let replies := ({} : MemoryRepository).serve ops
    let m := ({} : MemoryRepository).after ops
    (∀ op e, (m.run op).1 = .error e → (m.run op).2 = m) ∧
    creations id replies ≤ 1 ∧
    ((saves id replies).map (·.1)).Nodup ∧
    (m.find? id = none → creations id replies = 0 ∧ saves id replies = []) ∧
    (∀ r, m.find? id = some r → creations id replies = 1 ∧
      r.session.version = 1 + (saves id replies).length ∧
      r.fence.value = highest (saves id replies)) ∧
    (∀ x ∈ loads id replies, ∀ y ∈ loads id replies, x.version = y.version → x = y) := by
  intro replies m
  have haccounted : Accounted replies m id := by
    have hserve := (Accounted.empty id).serve ops
    rwa [List.nil_append] at hserve
  refine ⟨fun op e he => m.run_error he, ?_, ?_, ?_, ?_, haccounted.alike⟩
  · rw [haccounted.created]
    split <;> decide
  · rw [haccounted.replaced]
    exact List.nodup_range'
  · intro hnone
    refine ⟨?_, (haccounted.unknown hnone).1⟩
    rw [haccounted.created, hnone]
    rfl
  · intro r hr
    refine ⟨?_, haccounted.version r hr, haccounted.fence r hr⟩
    rw [haccounted.created, hr]
    rfl

end MemoryRepository

end FencedSessions
