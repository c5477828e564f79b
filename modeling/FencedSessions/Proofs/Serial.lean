import FencedSessions.Proofs.Outcomes

/-! Steps on one session are serialised by the version that a save must know. A step may have lost
its lease, been overtaken or been woken late; if its save is accepted all the same, then what it
loaded is what is stored, so its change is made to the stored session and to no other. -/

namespace FencedSessions

namespace Save

/-- Saves of one session, each of which stores what its change makes of the session before it. -/
def Chain : Session → List Save → Prop
  | _, [] => True
  | s, w :: ws => w.replay? s = some w.stored.session ∧ Chain w.stored.session ws

/-- The session that is stored last. -/
def last (s : Session) (ws : List Save) : Session := (ws.getLast?.map (·.stored.session)).getD s

theorem last_cons (s : Session) (w : Save) (ws : List Save) :
    last s (w :: ws) = last w.stored.session ws := by
  cases ws with
  | nil => rfl
  | cons w' ws => simp [last, List.getLast?_cons]

theorem chain_append {s : Session} {ws : List Save} {w : Save} (h : Chain s ws)
    (hw : w.replay? (last s ws) = some w.stored.session) : Chain s (ws ++ [w]) := by
  induction ws generalizing s with
  | nil => exact ⟨hw, trivial⟩
  | cons w' ws ih =>
    rw [last_cons] at hw
    exact ⟨h.1, ih h.2 hw⟩

/-- The versions of a chain follow each other without a gap. -/
theorem versions_chain {s : Session} {ws : List Save} (h : Chain s ws) :
    ws.map (·.version) = List.range' (s.version + 1) ws.length := by
  induction ws generalizing s with
  | nil => rfl
  | cons w ws ih =>
    have hversion := version_replay? h.1
    rw [List.map_cons, List.length_cons, List.range'_succ, ih h.2, version, hversion]

theorem version_last {s : Session} {ws : List Save} (h : Chain s ws) :
    (last s ws).version = s.version + ws.length := by
  induction ws generalizing s with
  | nil => rfl
  | cons w ws ih =>
    have hversion := version_replay? h.1
    rw [last_cons, ih h.2, List.length_cons, hversion]
    omega

/-- Making the changes one at a time, in the order of the saves, leads to the session stored last. -/
theorem foldlM_chain {s : Session} {ws : List Save} (h : Chain s ws) :
    ws.foldlM replay? s = some (last s ws) := by
  induction ws generalizing s with
  | nil => rfl
  | cons w ws ih =>
    rw [List.foldlM_cons, h.1, last_cons]
    exact ih h.2

theorem grows_last {s : Session} {ws : List Save} (h : Chain s ws) : s.Grows (last s ws) := by
  induction ws generalizing s with
  | nil => exact Session.Grows.refl s
  | cons w ws ih =>
    rw [last_cons]
    exact (grows_replay? h.1).trans (ih h.2)

end Save

theorem Notes.seen_congr {n n' : Notes} (hs : n'.saves = n.saves) (hf : n'.found = n.found) :
    n'.seen? = n.seen? := by
  unfold seen? before? changed? orphaned?
  rw [hs, hf]

namespace StepPhase

variable {client : Nat} {threshold : Int} {r : StepRequest} {n : Notes} {s : Site}

/-- An accepted save makes its step's change to the session as the step last saw it, and that is
what the step sees from then on. -/
theorem told_save {p : StepPhase} {w : Save}
    (hs : (s.settings r.node).orchestrator.staleness = threshold)
    (h : p.Told client threshold r n) (hw : n.save? client r s p = some w) :
    (∃ b, n.seen? = some b ∧ w.replay? b = some w.stored.session) ∧
      (n.after client r s p).seen? = some w.stored.session := by
  cases p with
  | savingOrphan lease o =>
    obtain ⟨f, hf, -, hreplay, hdef⟩ := save?_orphaned hs h hw
    have hown : w.client = client ∧ w.request = r ∧ w.threshold = threshold := by
      rw [hdef]; exact ⟨rfl, rfl, rfl⟩
    have hp : w.purpose = .orphaning ∧ w.tried = false := by rw [hdef]; exact ⟨rfl, rfl⟩
    have hbefore : n.Unchanged client r threshold f := Notes.unchanged_nil h.1 hf
    refine ⟨⟨f, hbefore.seen, hreplay⟩, ?_⟩
    have hafter := Notes.unchanged_orphaned h.1 hf hown hp.1 hp.2 hreplay
    have heq : n.after client r s (savingOrphan lease o) =
      { n with saves := n.saves ++ (n.save? client r s (savingOrphan lease o)).toList } := rfl
    rw [heq, hw]
    exact hafter.seen
  | saving lease x d =>
    obtain ⟨b, hb, -, hreplay, hdef⟩ := save?_changed hs h hw
    have hown : w.client = client ∧ w.request = r ∧ w.threshold = threshold := by
      rw [hdef]; exact ⟨rfl, rfl, rfl⟩
    have hp : w.purpose = .change ∧ w.tried = true := by rw [hdef]; exact ⟨rfl, rfl⟩
    refine ⟨⟨b, hb.seen, hreplay⟩, ?_⟩
    obtain ⟨-, hchanged⟩ := hb.changed_sound hown hp.1 hp.2 hreplay
    have heq : n.after client r s (saving lease x d) =
      { n with saves := n.saves ++ (n.save? client r s (saving lease x d)).toList } := rfl
    rw [heq, hw, Option.toList_some]
    unfold Notes.seen?
    rw [hchanged]
  | acquiring p => cases hw
  | loading lease => cases hw
  | orphaning lease o => cases hw
  | renewing lease x c => cases hw
  | confirming lease x d => cases hw
  | releasing lease result => cases hw
  | finished o => cases hw

/-- What a step sees when its call has saved nothing: what it saw before, or the session that it
loaded. -/
theorem told_unsaved {p : StepPhase} {b : Session} (h : p.Told client threshold r n)
    (hw : n.save? client r s p = none) (hb : (n.after client r s p).seen? = some b) :
    n.seen? = some b ∨ p.ask? r = some (.load r.id) ∧ (s.repo (.load r.id)).1 = .ok (some b) := by
  have hsaves := n.after_saves client r s p
  rw [hw, Option.toList_none, List.append_nil] at hsaves
  rcases n.after_found client r s p with hfound | ⟨ha, hanswer⟩
  · rw [Notes.seen_congr hsaves hfound] at hb
    exact Or.inl hb
  · right
    cases p with
    | loading lease =>
      cases h
      have hseen : (Notes.after {} client r s (loading lease)).seen? =
          (Notes.after {} client r s (loading lease)).found := by
        unfold Notes.seen? Notes.before? Notes.changed? Notes.orphaned?
        rw [hsaves]
        rfl
      rw [← hseen, hb] at hanswer
      exact ⟨ha, hanswer⟩
    | savingOrphan lease o => cases ha
    | saving lease x d => cases ha
    | acquiring p => cases ha
    | orphaning lease o => cases ha
    | renewing lease x c => cases ha
    | confirming lease x d => cases ha
    | releasing lease result => cases ha
    | finished o => cases ha

end StepPhase

namespace MemoryRepository

variable {m : MemoryRepository}

/-- The session was stored, and it still is what is stored unless the version has moved on. -/
def Saw (m : MemoryRepository) (b : Session) : Prop :=
  ∃ r, m.find? b.id = some r ∧ b.version ≤ r.session.version ∧
    (b.version = r.session.version → r.session = b)

theorem Saw.session {b : Session} (h : m.Saw b) {r : StoredSession} (hr : m.find? b.id = some r)
    (hv : b.version = r.session.version) : r.session = b := by
  obtain ⟨r', hr', -, heq⟩ := h
  rw [hr] at hr'
  cases hr'
  exact heq hv

theorem Saw.of_find? {id : SessionId} {r : StoredSession} (h : m.find? id = some r)
    (hid : r.session.id = id) : m.Saw r.session :=
  ⟨r, by rw [hid]; exact h, Nat.le_refl _, fun _ => rfl⟩

/-- A write moves the version on. -/
theorem Saw.put {b : Session} (h : m.Saw b) {id : SessionId} {r : StoredSession}
    (hr : ∀ old, m.find? id = some old → old.session.version < r.session.version) :
    (m.put id r).Saw b := by
  obtain ⟨old, hold, hle, heq⟩ := h
  by_cases hid : b.id = id
  · subst hid
    have hlt := hr old hold
    refine ⟨r, find?_put_self m b.id r, by omega, fun h => ?_⟩
    omega
  · exact ⟨old, by rw [find?_put_other m r hid]; exact hold, hle, heq⟩

/-- Every record is kept under the id of its session. -/
def Keyed (m : MemoryRepository) : Prop := ∀ id r, m.find? id = some r → r.session.id = id

theorem Keyed.put (h : m.Keyed) (r : StoredSession) : (m.put r.session.id r).Keyed := by
  intro id r' hr'
  by_cases hid : id = r.session.id
  · subst hid
    rw [find?_put_self] at hr'
    cases hr'
    rfl
  · rw [find?_put_other m _ hid] at hr'
    exact h id r' hr'

/-- No record is lost, and every session has grown. -/
def Grown (m m' : MemoryRepository) : Prop := ∀ id r, m.find? id = some r →
  ∃ r', m'.find? id = some r' ∧ r.session.Grows r'.session

theorem Grown.refl (m : MemoryRepository) : m.Grown m :=
  fun _ r hr => ⟨r, hr, Session.Grows.refl _⟩

theorem Grown.trans {m₁ m₂ m₃ : MemoryRepository} (h₁ : m₁.Grown m₂) (h₂ : m₂.Grown m₃) :
    m₁.Grown m₃ := by
  intro id r hr
  obtain ⟨r', hr', hgrows⟩ := h₁ id r hr
  obtain ⟨r'', hr'', hgrows'⟩ := h₂ id r' hr'
  exact ⟨r'', hr'', hgrows.trans hgrows'⟩

theorem grown_put {id : SessionId} {r : StoredSession}
    (hr : ∀ old, m.find? id = some old → old.session.Grows r.session) : m.Grown (m.put id r) := by
  intro id' r' hr'
  by_cases hid : id' = id
  · subst hid
    exact ⟨r, find?_put_self m _ r, hr r' hr'⟩
  · exact ⟨r', by rw [find?_put_other m r hid]; exact hr', Session.Grows.refl _⟩

end MemoryRepository

namespace Crowd

/-- The accepted saves of a session. -/
def savesOf (c : Crowd) (id : SessionId) : List Save := c.saves.filter (·.id = id)

/-- The saves of every stored session make a chain that begins with its creation. -/
def Chained (c : Crowd) (m : MemoryRepository) : Prop := ∀ id r, m.find? id = some r →
  ∃ x, c.created.find? (·.id = id) = some x ∧ x.version = 1 ∧ Save.Chain x (c.savesOf id)

/-- The accepted saves of a session store the versions from two on, each makes the change of its own
step to the session stored before, and making the changes one at a time leads to what is stored. -/
structure Serialised (c : Crowd) (id : SessionId) : Prop where
  absent : c.site.record? id = none → c.savesOf id = []
  stored : ∀ r, c.site.record? id = some r → ∃ x, c.created.find? (·.id = id) = some x ∧
    x.version = 1 ∧ (c.savesOf id).map (·.version) = List.range' 2 (c.savesOf id).length ∧
    Save.Chain x (c.savesOf id) ∧ (c.savesOf id).foldlM Save.replay? x = some r.session

/-- What makes the steps of a crowd serial. -/
structure Serial (staleness : Nat → Int) (m : MemoryRepository) (c : Crowd) : Prop where
  told : c.Told staleness
  recorded : c.Recorded m
  keyed : m.Keyed
  saw : c.Each fun _ x => ∀ b, x.notes.seen? = some b → m.Saw b
  chained : c.Chained m

variable {staleness : Nat → Int} {m : MemoryRepository} {c : Crowd}

/-- What is stored is what was saved last. -/
theorem Recorded.last (h : c.Recorded m) {id : SessionId} {r : StoredSession}
    (hr : m.find? id = some r) {x : Session} (hx : c.created.find? (·.id = id) = some x) :
    r.session = Save.last x (c.savesOf id) := by
  rw [h.2 id] at hr
  unfold written? at hr
  unfold Save.last savesOf
  split at hr
  · rename_i w hw
    cases hr
    rw [hw]
    rfl
  · rename_i hw
    rw [hx] at hr
    cases hr
    rw [hw]
    rfl

/-- What a client sees after its next step was stored before, or its own save stores it. -/
theorem saw_next (h : c.Serial staleness m) {i : Nat} {x : Client} (hx : c.clients[i]? = some x)
    {b : Session} (hb : (c.next i x).notes.seen? = some b) :
    m.Saw b ∨ ∃ w ∈ c.saving i x, b = w.stored.session := by
  rcases c.next_cases i x with ⟨a, -, -, he⟩ | ⟨r, p, a, hs, -, -, he⟩ | ⟨-, -, -, a, -, -, -, he⟩
  · rw [he] at hb
    exact Or.inl (h.saw i x hx b hb)
  · rw [he] at hb
    have htold := (Client.told_stepping hs).mp (h.told.clients i x hx)
    cases hw : x.notes.save? i r c.site p with
    | some w =>
      obtain ⟨-, hseen⟩ := StepPhase.told_save (h.told.settings r.node) htold hw
      rw [hseen] at hb
      cases hb
      exact Or.inr ⟨w, by simp [saving, hs, hw], rfl⟩
    | none =>
      rcases StepPhase.told_unsaved htold hw hb with hseen | ⟨-, hanswer⟩
      · exact Or.inl (h.saw i x hx b hseen)
      · have hasked := Site.repo_asked c.site (.load r.id)
        have hfound := (hasked.memory_load h.recorded.1).2 _ hanswer
        obtain ⟨stored, hstored, rfl⟩ := Option.map_eq_some_iff.mp hfound.symm
        exact Or.inl (MemoryRepository.Saw.of_find? hstored (h.keyed _ _ hstored))
  · rw [he] at hb
    cases hb

/-- What the clients have seen after an act that has made the repository `m'`. -/
theorem saw_act (h : c.Serial staleness m) (a : Act) {m' : MemoryRepository}
    (keep : ∀ b, m.Saw b → m'.Saw b)
    (own : ∀ i x w, a = .go i → c.clients[i]? = some x → w ∈ c.saving i x → m'.Saw w.stored.session) :
    (c.act a).Each fun _ x => ∀ b, x.notes.seen? = some b → m'.Saw b := by
  refine h.saw.act a ?_ ?_ ?_ ?_
  · intro i x hx b hb
    exact keep b (hx b hb)
  · intro i b _ b' hb'
    cases hb'
  · intro i x hx
    exact hx
  · intro i x ha hx b hb
    rcases saw_next h hx hb with hsaw | ⟨w, hw, rfl⟩
    · exact keep b hsaw
    · exact own i x w ha hx hw

theorem Chained.saved (h : c.Chained m) (hm : c.Recorded m) {w : Save} {old : StoredSession}
    (hold : m.find? w.id = some old) (hw : w.replay? old.session = some w.stored.session)
    {c' : Crowd} (hsaves : c'.saves = c.saves ++ [w]) (hcreated : c'.created = c.created) :
    c'.Chained (m.put w.id w.stored) := by
  intro id r hr
  have hof : c'.savesOf id = c.savesOf id ++ [w].filter (·.id = id) := by
    unfold savesOf
    rw [hsaves, List.filter_append]
  rw [hof, hcreated]
  by_cases hid : id = w.id
  · subst hid
    obtain ⟨x, hx, hfirst, hchain⟩ := h _ _ hold
    have hone : [w].filter (fun w' => w'.id = w.id) = [w] := by simp
    rw [hm.last hold hx] at hw
    rw [hone]
    exact ⟨x, hx, hfirst, Save.chain_append hchain hw⟩
  · have hne : w.id ≠ id := fun h => hid h.symm
    have hnone : [w].filter (fun w' => w'.id = id) = [] := by simp [hne]
    rw [MemoryRepository.find?_put_other m _ hid] at hr
    rw [hnone, List.append_nil]
    exact h id r hr

theorem Chained.created (h : c.Chained m) (hm : c.Recorded m) {x : Session}
    (hnew : m.find? x.id = none) (hfirst : x.version = 1) {c' : Crowd}
    (hsaves : c'.saves = c.saves) (hcreated : c'.created = c.created ++ [x]) :
    c'.Chained (m.put x.id ⟨.zero, x⟩) := by
  intro id r hr
  have hof : c'.savesOf id = c.savesOf id := by
    unfold savesOf
    rw [hsaves]
  rw [hof, hcreated, List.find?_append]
  by_cases hid : id = x.id
  · subst hid
    have hwritten := hm.2 x.id
    rw [hnew] at hwritten
    unfold written? at hwritten
    split at hwritten
    · cases hwritten
    · rename_i hnone
      have hempty : c.savesOf x.id = [] := List.getLast?_eq_none_iff.mp hnone
      have hold := Option.map_eq_none_iff.mp hwritten.symm
      rw [hempty]
      exact ⟨x, by simp [hold], hfirst, trivial⟩
  · rw [MemoryRepository.find?_put_other m _ hid] at hr
    obtain ⟨x', hx', hrest⟩ := h id r hr
    exact ⟨x', by rw [hx']; rfl, hrest⟩

/-- A save that is accepted makes its change to the session that is stored. -/
theorem replay?_stored (h : c.Serial staleness m) {i : Nat} {x : Client} {r : StepRequest}
    {p : StepPhase} {w : Save} {old : StoredSession} (hx : c.clients[i]? = some x)
    (hs : x.activity.stepping? = some (r, p)) (hw : x.notes.save? i r c.site p = some w)
    (hold : m.find? w.id = some old) (hv : w.version = old.session.version + 1) :
    w.replay? old.session = some w.stored.session := by
  have htold := (Client.told_stepping hs).mp (h.told.clients i x hx)
  obtain ⟨⟨b, hb, hreplay⟩, -⟩ := StepPhase.told_save (h.told.settings r.node) htold hw
  have hid : w.id = b.id := (Save.grows_replay? hreplay).id
  have hb' : w.version = b.version + 1 := Save.version_replay? hreplay
  rw [hid] at hold
  have hsession := (h.saw i x hx b hb).session hold (by omega)
  rw [hsession]
  exact hreplay

/-- Each act keeps the steps serial. -/
theorem Serial.act (h : c.Serial staleness m) (a : Act) :
    ∃ m', (c.act a).Serial staleness m' ∧ m.Grown m' := by
  obtain ⟨m', hrecorded⟩ := h.recorded.act a
  have hholds : c.site.Holds m := (Site.holds_memory h.recorded.1).mpr rfl
  -- one case for each way in which an act can change the repository and the logs
  have hm {m'' : MemoryRepository} (hkept : (c.act a).site.Holds m'') : m' = m'' :=
    (Site.holds_memory hrecorded.1).mp hkept
  cases act_wrote hholds a (inRange_memory hrecorded.1) with
  | nothing hsaves hcreated hkept =>
    obtain rfl := hm hkept
    refine ⟨m', ⟨h.told.act a, hrecorded, h.keyed, ?_, ?_⟩, .refl m'⟩
    · refine saw_act h a (fun _ hb => hb) fun i x w ha hx hw => ?_
      subst ha
      have hlogged := (c.go_logs hx).1.symm.trans hsaves
      rw [List.append_right_eq_self.mp hlogged] at hw
      cases hw
    · unfold Chained savesOf
      rw [hsaves, hcreated]
      exact h.chained
  | @saved i x r p w old hact hx hs hw hsaves hcreated hold hversion _ hkept =>
    obtain rfl := hm hkept
    subst hact
    have hreplay := replay?_stored h hx hs hw hold hversion
    have hlt : old.session.version < w.stored.session.version :=
      Nat.lt_of_succ_le (Nat.le_of_eq hversion.symm)
    refine ⟨_, ⟨h.told.act _, hrecorded, h.keyed.put w.stored, ?_, ?_⟩,
      MemoryRepository.grown_put fun old' hold' => ?_⟩
    · refine saw_act h _ (fun b hb => hb.put fun old' hold' => ?_) fun i' x' w' ha hx' hw' => ?_
      · rw [hold] at hold'
        cases hold'
        exact hlt
      · cases ha
        rw [hx] at hx'
        cases hx'
        simp only [saving, hs, hw, Option.toList_some, List.mem_singleton] at hw'
        subst hw'
        exact MemoryRepository.Saw.of_find? (MemoryRepository.find?_put_self m _ _) rfl
    · exact h.chained.saved h.recorded hold hreplay hsaves hcreated
    · rw [hold] at hold'
      cases hold'
      exact Save.grows_replay? hreplay
  | @created x hsaves hcreated hnew hfirst hkept =>
    obtain rfl := hm hkept
    refine ⟨_, ⟨h.told.act a, hrecorded, h.keyed.put ⟨.zero, x⟩, ?_, ?_⟩,
      MemoryRepository.grown_put fun old hold => ?_⟩
    · refine saw_act h a (fun b hb => hb.put fun old hold => ?_) fun i x' w ha hx' hw => ?_
      · rw [hnew] at hold
        cases hold
      · subst ha
        have hsame := (c.go_logs hx').2.2.symm.trans hcreated
        cases List.self_eq_append_right.mp hsame
    · exact h.chained.created h.recorded hnew hfirst hsaves hcreated
    · rw [hnew] at hold
      cases hold

theorem Serial.run (h : c.Serial staleness m) (acts : List Act) :
    ∃ m', (c.run acts).Serial staleness m' ∧ m.Grown m' := by
  refine run_invariant (P := fun d => ∃ m', d.Serial staleness m' ∧ m.Grown m') ?_ ⟨m, h, .refl m⟩ acts
  rintro d a ⟨m₁, h₁, hg₁⟩
  obtain ⟨m₂, h₂, hg₂⟩ := h₁.act a
  exact ⟨m₂, h₂, hg₁.trans hg₂⟩

theorem serial_crowd {s : Site} (h : s.repository = .memory {}) :
    s.crowd.Serial (fun n => (s.settings n).orchestrator.staleness) {} where
  told := (honest_crowd s).told
  recorded := Site.recorded_crowd h
  keyed _ _ hr := by cases hr
  saw _ _ hx := by cases hx
  chained _ _ hr := by cases hr

theorem Serial.record (h : c.Serial staleness m) (id : SessionId) :
    c.site.record? id = m.find? id := by
  unfold Site.record?
  rw [h.recorded.1]

theorem Serial.serialised (h : c.Serial staleness m) (id : SessionId) : c.Serialised id where
  absent hr := by
    rw [h.recorded.record] at hr
    unfold written? at hr
    split at hr
    · cases hr
    · rename_i hnone
      exact List.getLast?_eq_none_iff.mp hnone
  stored r hr := by
    rw [h.record] at hr
    obtain ⟨x, hx, hfirst, hchain⟩ := h.chained id r hr
    have hversions := Save.versions_chain hchain
    rw [hfirst] at hversions
    refine ⟨x, hx, hfirst, hversions, hchain, ?_⟩
    rw [Save.foldlM_chain hchain, h.recorded.last hr hx]

/-- No update is lost: in every run the steps on a session are serial, whatever fails and whoever is
overtaken, and as the run goes on, history and checkpoints are only appended to. -/
theorem steps_serialised (s : Site) (before after : List Act) (id : SessionId)
    (h : s.repository = .memory {}) :
    let c := s.crowd.run before
    let d := c.run after
    d.Serialised id ∧ ∀ r, c.site.record? id = some r → ∃ r', d.site.record? id = some r' ∧
      r.session.history <+: r'.session.history ∧
      r.session.checkpoints <+: r'.session.checkpoints := by
  intro c d
  obtain ⟨m, hc, -⟩ := (serial_crowd h).run before
  obtain ⟨m', hd, hgrown⟩ := hc.run after
  refine ⟨hd.serialised id, fun r hr => ?_⟩
  rw [hc.record] at hr
  obtain ⟨r', hr', hgrows⟩ := hgrown id r hr
  exact ⟨r', by rw [hd.record, hr'], hgrows.history, hgrows.checkpoints⟩

set_option maxRecDepth 4096 in
/-- A step that is overtaken just before it saves: two others store the versions two and three, and
its own save is refused. -/
theorem steps_serialised_overtaken :
    let id := SessionId.fresh 1
    let step (event : SessionEvent) : Act := .steps { maxRetries := 0 }
      ⟨0, id, some (.transition event none), ⟨1000000000⟩⟩ []
    let before := [.create 3 [], step .start] ++ List.replicate 8 (.go 0)
    let after := [.set ⟨400000000000000⟩, step .fail] ++ List.replicate 12 (.go 1) ++
      [step .retry] ++ List.replicate 13 (.go 2) ++ List.replicate 3 (.go 0)
    let d := (Site.single.crowd.run before).run after
    (d.savesOf id).map (fun w => (w.client, w.version)) = [(1, 2), (2, 3)] ∧ d.Serialised id := by
  intro id step before after d
  obtain ⟨hserial, -⟩ := steps_serialised Site.single before after id rfl
  exact ⟨by decide +kernel, hserial⟩

end Crowd

end FencedSessions
