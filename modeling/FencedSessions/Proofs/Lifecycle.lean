import FencedSessions.Proofs.Serial

/-! Stored sessions are well-formed. Whatever is stored was created once and has grown since then, one
accepted save at a time, so its history can be replayed, its checkpoints are numbered without gaps,
and it keeps what it was created with and a status that is final. -/

namespace FencedSessions

namespace Site

variable {s : Site} {priority : Nat} {metadata : List (String × Json)}

/-- A session as its creator is told of it. -/
structure Created (s : Site) (priority : Nat) (metadata : List (String × Json)) (x : Session) :
    Prop where
  id : x.id = SessionId.fresh (s.created + 1)
  priority : x.priority = priority
  createdAt : x.createdAt = s.now
  metadata : x.metadata = metadata
  status : x.status = .pending
  history : x.history = []
  checkpoints : x.checkpoints = []

theorem created_draft (s : Site) (priority : Nat) (metadata : List (String × Json)) :
    s.Created priority metadata (s.draft priority metadata) := by
  constructor <;> simp only [draft, Session.create]

/-- The version that the repository answers is no part of it. -/
theorem Created.with_version {x : Session} (h : s.Created priority metadata x) (version : Nat) :
    s.Created priority metadata { x with version } :=
  ⟨h.id, h.priority, h.createdAt, h.metadata, h.status, h.history, h.checkpoints⟩

theorem createSession_ok {x : Session} (h : (s.createSession priority metadata).1 = .ok x) :
    s.Created priority metadata x := by
  rw [createSession_eq] at h
  split at h
  · cases h
  · rw [← Except.ok.inj h]
    exact (created_draft s priority metadata).with_version _

theorem Created.valid {x : Session} (h : s.Created priority metadata x) : x.historyIsValid := by
  unfold Session.historyIsValid
  rw [h.history, h.status]
  rfl

theorem Created.gapless {x : Session} (h : s.Created priority metadata x) :
    x.checkpointsAreGapless := by
  unfold Session.checkpointsAreGapless
  rw [h.checkpoints]
  rfl

end Site

namespace Crowd

variable {c : Crowd}

/-- Every session was created by an act of the run, from what the act gave and the clock told. -/
theorem mem_created_run {acts : List Act} {x : Session} (h : x ∈ (c.run acts).created) :
    x ∈ c.created ∨ ∃ earlier priority metadata later,
      acts = earlier ++ .create priority metadata :: later ∧
      ((c.run earlier).site.createSession priority metadata).1 = .ok x := by
  induction acts generalizing c with
  | nil => exact Or.inl h
  | cons a acts ih =>
    rcases ih h with hold | ⟨earlier, priority, metadata, later, rfl, hok⟩
    · rw [act_created, List.mem_append] at hold
      refine hold.imp_right fun hnew => ?_
      cases a with
      | create priority metadata =>
        have hanswer := Option.mem_toList.mp hnew
        refine ⟨[], priority, metadata, acts, rfl, ?_⟩
        cases hcreate : (c.site.createSession priority metadata).1 with
        | error e => rw [hcreate] at hanswer; cases hanswer
        | ok y => rw [hcreate] at hanswer; cases hanswer; exact hcreate
      | _ => cases hnew
    · exact Or.inr ⟨a :: earlier, priority, metadata, later, rfl, hok⟩

/-- A stored session, in terms of the acts before. -/
structure WellFormed (s : Site) (acts : List Act) (id : SessionId) (x : Session) : Prop where
  valid : x.historyIsValid
  gapless : x.checkpointsAreGapless
  version : x.version = 1 + ((s.crowd.run acts).savesOf id).length
  id : x.id = id
  created : ∃ earlier priority metadata later, acts = earlier ++ .create priority metadata :: later ∧
    x.id = SessionId.fresh ((s.crowd.run earlier).site.created + 1) ∧ x.priority = priority ∧
    x.createdAt = (s.crowd.run earlier).now ∧ x.metadata = metadata

/-- In every state of every run, with any clock, each stored session is well-formed, and a session
that is stored with a final status is stored with that status from then on. -/
theorem stored_wellFormed (s : Site) (before after : List Act) (id : SessionId) (r : StoredSession)
    (h : s.repository = .memory {}) (hr : (s.crowd.run before).site.record? id = some r) :
    WellFormed s before id r.session ∧ (r.session.status.isFinal →
      ∃ r', ((s.crowd.run before).run after).site.record? id = some r' ∧
        r'.session.status = r.session.status) := by
  obtain ⟨m, hc, -⟩ := (serial_crowd h).run before
  obtain ⟨m', hd, hgrown⟩ := hc.run after
  rw [hc.record] at hr
  obtain ⟨x, hx, hfirst, hchain⟩ := hc.chained id r hr
  have hlast := hc.recorded.last hr hx
  -- a chain only grows a session, so what holds of it when it is created holds of what is stored
  have hgrows := Save.grows_last hchain
  rw [← hlast] at hgrows
  refine ⟨?_, fun hfinal => ?_⟩
  · have hversion := Save.version_last hchain
    rw [← hlast, hfirst] at hversion
    have hmem := List.mem_of_find?_eq_some hx
    rcases mem_created_run hmem with hnone | ⟨earlier, priority, metadata, later, hsplit, hok⟩
    · cases hnone
    · have hnew := Site.createSession_ok hok
      exact ⟨hgrows.valid hnew.valid, hgrows.gapless hnew.gapless, hversion, hc.keyed id r hr,
        earlier, priority, metadata, later, hsplit, hgrows.id.trans hnew.id,
        hgrows.priority.trans hnew.priority, hgrows.createdAt.trans hnew.createdAt,
        hgrows.metadata.trans hnew.metadata⟩
  · obtain ⟨r', hr', hgrows'⟩ := hgrown id r hr
    exact ⟨r', by rw [hd.record, hr'], hgrows'.final hfinal⟩

set_option maxRecDepth 4096 in
/-- A session that is cancelled stays so when another step asks it to start. -/
theorem stored_wellFormed_cancelled :
    let id := SessionId.fresh 1
    let step (event : SessionEvent) : Act := .steps { maxRetries := 0 }
      ⟨0, id, some (.transition event none), ⟨1000000000⟩⟩ []
    let before := [.create 3 [], step .cancel] ++ List.replicate 12 (.go 0)
    let after := step .start :: List.replicate 12 (.go 1)
    ∃ r, (Site.single.crowd.run before).site.record? id = some r ∧
      r.session.status = .cancelled ∧ WellFormed Site.single before id r.session ∧
      ∃ r', ((Site.single.crowd.run before).run after).site.record? id = some r' ∧
        r'.session.status = r.session.status := by
  intro id step before after
  have hstatus : ((Site.single.crowd.run before).site.record? id).map (·.session.status) =
    some .cancelled := by decide +kernel
  obtain ⟨r, hr, hcancelled⟩ := Option.map_eq_some_iff.mp hstatus
  obtain ⟨hwell, hfinal⟩ := stored_wellFormed Site.single before after id r rfl hr
  exact ⟨r, hr, hcancelled, hwell, hfinal (by rw [hcancelled]; rfl)⟩

end Crowd

end FencedSessions
