import FencedSessions.Proofs.Serial

/-! What the logs of a crowd say of the writes of a session, wherever it is kept: one creation stores
the version one, the saves store the versions from two on, and the fence never goes back. -/

namespace FencedSessions.Crowd

variable {c : Crowd} {m : MemoryRepository}

theorem savesOf_act (c : Crowd) (a : Act) (id : SessionId) :
    (c.act a).savesOf id = c.savesOf id ++ (c.writing a).filter (·.id = id) := by
  simp only [savesOf, act_saves, List.filter_append]

/-- Writes are only added to the logs. -/
theorem logs_run (c : Crowd) (acts : List Act) :
    c.created <+: (c.run acts).created ∧ c.saves <+: (c.run acts).saves := by
  refine run_invariant (P := fun d => c.created <+: d.created ∧ c.saves <+: d.saves) ?_
    ⟨List.prefix_refl _, List.prefix_refl _⟩ acts
  rintro d a ⟨hcreated, hsaves⟩
  exact ⟨hcreated.trans ⟨_, (d.act_created a).symm⟩, hsaves.trans ⟨_, (d.act_saves a).symm⟩⟩

theorem savesOf_run (c : Crowd) (acts : List Act) (id : SessionId) :
    c.savesOf id <+: (c.run acts).savesOf id := (c.logs_run acts).2.filter _

/-- What is stored of a session was saved last, or it was created and never saved. -/
theorem Written.stored (h : c.Written m) {id : SessionId} {r : StoredSession}
    (hr : m.find? id = some r) :
    (∃ ws w, c.savesOf id = ws ++ [w] ∧ r = w.stored) ∨
      c.savesOf id = [] ∧ ∃ x ∈ c.created, x.id = id ∧ r = ⟨.zero, x⟩ := by
  rw [h.logged] at hr
  unfold written? at hr
  split at hr
  · rename_i w hlast
    cases hr
    obtain ⟨ws, hws⟩ := List.getLast?_eq_some_iff.mp hlast
    exact Or.inl ⟨ws, w, hws, rfl⟩
  · rename_i hnone
    obtain ⟨x, hx, rfl⟩ := Option.map_eq_some_iff.mp hr
    have hid : x.id = id := by simpa using List.find?_some hx
    exact Or.inr ⟨List.getLast?_eq_none_iff.mp hnone, x, List.mem_of_find?_eq_some hx, hid, rfl⟩

/-- Nothing was written of a session that is not stored. -/
theorem Written.absent (h : c.Written m) {id : SessionId} (hr : m.find? id = none) :
    c.savesOf id = [] ∧ ∀ x ∈ c.created, x.id ≠ id := by
  rw [h.logged] at hr
  unfold written? at hr
  split at hr
  · cases hr
  · rename_i hnone
    refine ⟨List.getLast?_eq_none_iff.mp hnone, fun x hx hid => ?_⟩
    exact List.find?_eq_none.mp (Option.map_eq_none_iff.mp hr) x hx (decide_eq_true hid)

theorem Written.keyed (h : c.Written m) : m.Keyed := by
  intro id r hr
  rcases h.stored hr with ⟨ws, w, hws, rfl⟩ | ⟨-, x, -, hid, rfl⟩
  · have hw : w ∈ c.savesOf id := by rw [hws]; exact List.mem_append_right _ (List.mem_singleton_self w)
    exact of_decide_eq_true (List.mem_filter.mp hw).2
  · exact hid

/-- The writes of every session are in order. -/
structure Ordered (c : Crowd) (m : MemoryRepository) : Prop where
  written : c.Written m
  first : ∀ x ∈ c.created, x.version = 1
  /-- No session is created twice. -/
  apart : (c.created.map (·.id)).Nodup
  known : ∀ w ∈ c.saves, ∃ x ∈ c.created, x.id = w.id
  versions : ∀ id, (c.savesOf id).map (·.version) = List.range' 2 (c.savesOf id).length
  fences : ∀ id, (c.savesOf id).Pairwise fun v w => v.stored.fence ≤ w.stored.fence

namespace Ordered

/-- Every stored session was created. -/
theorem created (h : c.Ordered m) {id : SessionId} {r : StoredSession} (hr : m.find? id = some r) :
    ∃ x ∈ c.created, x.id = id := by
  rcases h.written.stored hr with ⟨ws, w, hws, -⟩ | ⟨-, x, hx, hid, -⟩
  · have hw : w ∈ c.savesOf id := by
      rw [hws]
      exact List.mem_append_right _ (List.mem_singleton_self w)
    obtain ⟨hw, hid⟩ := List.mem_filter.mp hw
    rw [← of_decide_eq_true hid]
    exact h.known w hw
  · exact ⟨x, hx, hid⟩

/-- The version of a stored session tells how often it was saved. -/
theorem version (h : c.Ordered m) {id : SessionId} {r : StoredSession} (hr : m.find? id = some r) :
    r.session.version = (c.savesOf id).length + 1 := by
  rcases h.written.stored hr with ⟨ws, w, hws, rfl⟩ | ⟨hnil, x, hx, -, rfl⟩
  · have hversions := congrArg List.getLast? (h.versions id)
    rw [hws, List.map_append, List.map_singleton, List.getLast?_concat, List.length_append,
      List.length_singleton, List.range'_concat, List.getLast?_concat] at hversions
    have hw : w.version = 2 + 1 * ws.length := Option.some.inj hversions
    rw [hws, List.length_append, List.length_singleton]
    change w.version = _
    omega
  · rw [hnil]
    exact h.first x hx

/-- No save of a session bears a later fence than what is stored. -/
theorem fence_le (h : c.Ordered m) {id : SessionId} {r : StoredSession} (hr : m.find? id = some r)
    {w : Save} (hw : w ∈ c.savesOf id) : w.stored.fence ≤ r.fence := by
  rcases h.written.stored hr with ⟨ws, v, hws, rfl⟩ | ⟨hnil, -⟩
  · have hfences := h.fences id
    rw [hws] at hfences hw
    rcases List.mem_append.mp hw with hold | hlast
    · exact (List.pairwise_append.mp hfences).2.2 w hold v (List.mem_singleton_self v)
    · rw [List.mem_singleton.mp hlast]
      exact Nat.le_refl _
  · rw [hnil] at hw
    cases hw

/-- An accepted save goes on from what was stored. -/
theorem saved (h : c.Ordered m) {w : Save} {old : StoredSession} (hold : m.find? w.id = some old)
    (hversion : w.version = old.session.version + 1) (hfence : old.fence ≤ w.stored.fence)
    (id : SessionId) :
    let ws := c.savesOf id ++ [w].filter (·.id = id)
    ws.map (·.version) = List.range' 2 ws.length ∧
      ws.Pairwise fun v w => v.stored.fence ≤ w.stored.fence := by
  intro ws
  by_cases hid : w.id = id
  · have hws : ws = c.savesOf id ++ [w] := by simp [ws, hid]
    rw [hws]
    rw [hid] at hold
    have hnext : w.version = 2 + 1 * (c.savesOf id).length := by
      rw [hversion, h.version hold]
      omega
    constructor
    · rw [List.map_append, h.versions id, List.map_singleton, hnext, List.length_append,
        List.length_singleton, List.range'_concat]
    · refine List.pairwise_append.mpr ⟨h.fences id, List.pairwise_singleton .., fun v hv u hu => ?_⟩
      rw [List.mem_singleton.mp hu]
      exact Nat.le_trans (h.fence_le hold hv) hfence
  · have hws : ws = c.savesOf id := by simp [ws, hid]
    rw [hws]
    exact ⟨h.versions id, h.fences id⟩

theorem act (h : c.Ordered m) (a : Act) (hrange : (c.act a).InRange) :
    ∃ m', (c.act a).Ordered m' := by
  obtain ⟨m', hwritten⟩ := h.written.act a hrange
  refine ⟨m', ?_⟩
  cases act_wrote h.written.holds a hrange with
  | nothing hsaves hcreated hkept =>
    have hof (id : SessionId) : (c.act a).savesOf id = c.savesOf id := by simp only [savesOf, hsaves]
    refine ⟨hwritten, hcreated ▸ h.first, hcreated ▸ h.apart, ?_, fun id => ?_, fun id => ?_⟩
    · rw [hsaves, hcreated]
      exact h.known
    · rw [hof]
      exact h.versions id
    · rw [hof]
      exact h.fences id
  | @saved _ _ _ _ w old _ _ _ _ hsaves hcreated hold hversion hfence _ =>
    have hof (id : SessionId) : (c.act a).savesOf id = c.savesOf id ++ [w].filter (·.id = id) := by
      simp only [savesOf, hsaves, List.filter_append]
    refine ⟨hwritten, hcreated ▸ h.first, hcreated ▸ h.apart, fun v hv => ?_, fun id => ?_, fun id => ?_⟩
    · rw [hcreated]
      rcases List.mem_append.mp (hsaves ▸ hv) with hv | hv
      · exact h.known v hv
      · rw [List.mem_singleton.mp hv]
        exact h.created hold
    · rw [hof]
      exact (h.saved hold hversion hfence id).1
    · rw [hof]
      exact (h.saved hold hversion hfence id).2
  | @created x hsaves hcreated hnew hfirst _ =>
    have hof (id : SessionId) : (c.act a).savesOf id = c.savesOf id := by simp only [savesOf, hsaves]
    refine ⟨hwritten, fun y hy => ?_, ?_, fun w hw => ?_, fun id => ?_, fun id => ?_⟩
    · rcases List.mem_append.mp (hcreated ▸ hy) with hy | hy
      · exact h.first y hy
      · rw [List.mem_singleton.mp hy]
        exact hfirst
    · have hfresh : x.id ∉ c.created.map (·.id) := by
        intro hmem
        obtain ⟨y, hy, hid⟩ := List.mem_map.mp hmem
        exact (h.written.absent hnew).2 y hy hid
      rw [hcreated, List.map_append, List.map_singleton]
      exact List.nodup_append.mpr ⟨h.apart, List.pairwise_singleton .., fun i hi j hj => by
        rw [List.mem_singleton.mp hj]
        rintro rfl
        exact hfresh hi⟩
    · rw [hsaves] at hw
      obtain ⟨y, hy, hid⟩ := h.known w hw
      exact ⟨y, by rw [hcreated]; exact List.mem_append_left _ hy, hid⟩
    · rw [hof]
      exact h.versions id
    · rw [hof]
      exact h.fences id

theorem run (h : c.Ordered m) {acts : List Act} (hrange : (c.run acts).InRange) :
    ∃ m', (c.run acts).Ordered m' :=
  hrange.invariant (P := fun c => ∃ m, c.Ordered m) (fun _ a hrange ⟨_, h⟩ => h.act a hrange) ⟨m, h⟩

/-- As a run goes on, no session is lost, and the fence that it is stored under never goes back. -/
theorem fences_run (h : c.Ordered m) {acts : List Act} {m' : MemoryRepository}
    (h' : (c.run acts).Ordered m') {id : SessionId} {r : StoredSession} (hr : m.find? id = some r) :
    ∃ r', m'.find? id = some r' ∧ r.fence ≤ r'.fence := by
  obtain ⟨hcreated, -⟩ := c.logs_run acts
  have hsaves := c.savesOf_run acts id
  cases hr' : m'.find? id with
  | none =>
    obtain ⟨hnil, hnew⟩ := h'.written.absent hr'
    rcases h.written.stored hr with ⟨ws, w, hws, -⟩ | ⟨-, x, hx, hid, -⟩
    · rw [hnil, List.prefix_nil, hws] at hsaves
      simp at hsaves
    · exact absurd hid (hnew x (hcreated.subset hx))
  | some r' =>
    refine ⟨r', rfl, ?_⟩
    rcases h.written.stored hr with ⟨ws, w, hws, rfl⟩ | ⟨-, x, -, -, rfl⟩
    · exact h'.fence_le hr' (hsaves.subset (by rw [hws]; simp))
    · exact Nat.zero_le _

end Ordered

theorem ordered_crowd {s : Site} (h : s.Unwritten) : s.crowd.Ordered {} where
  written := Site.written_crowd h
  first _ hx := absurd hx List.not_mem_nil
  apart := List.nodup_nil
  known _ hw := absurd hw List.not_mem_nil
  versions _ := rfl
  fences _ := List.Pairwise.nil

end FencedSessions.Crowd
