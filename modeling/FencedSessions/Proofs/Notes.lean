import FencedSessions.Proofs.Crowd
import FencedSessions.Proofs.Growth
import FencedSessions.Proofs.Phases
import FencedSessions.Proofs.Records

/-! What a step has learnt and what its phase says fit together, call by call: `Told` says how, for
every phase, and `told_step` that one more call keeps it so. It follows that an outcome tells what
the step has saved, whatever becomes of its other calls. -/

namespace FencedSessions

namespace Save

variable {w : Save} {s t : Session}

theorem grows_change? (h : w.change? s = some t) : s.Grows t := by
  unfold change? at h
  split at h
  · split at h
    · rename_i o ho
      cases o with
      | none => cases h
      | some o =>
        cases h
        exact Orphaning.grows_of? ho
    · cases h
  · obtain ⟨c, -, hc⟩ := Option.bind_eq_some_iff.mp h
    split at hc
    · rename_i ha
      cases hc
      exact Change.grows_apply ha
    · cases hc

theorem replay?_some (h : w.replay? s = some t) :
    ∃ u, w.change? s = some u ∧ t = { u with version := s.version + 1 } := by
  obtain ⟨u, hu, ht⟩ := Option.map_eq_some_iff.mp h
  exact ⟨u, hu, ht.symm⟩

theorem grows_replay? (h : w.replay? s = some t) : s.Grows t := by
  obtain ⟨u, hu, rfl⟩ := replay?_some h
  exact (grows_change? hu).with_version _

theorem version_replay? (h : w.replay? s = some t) : t.version = s.version + 1 := by
  obtain ⟨u, -, rfl⟩ := replay?_some h
  rfl

theorem replay?_orphaning {o : Orphaning} (hp : w.purpose = .orphaning)
    (ho : Orphaning.of? s w.time w.threshold w.stored.fence = .ok (some o)) :
    w.replay? s = some { o.session with version := s.version + 1 } := by
  simp [replay?, change?, hp, ho]

theorem replay?_change {c : Change} {d : Detail} (hp : w.purpose = .change)
    (hc : w.request.change = some c) (ha : c.apply s w.time = .ok (t, d)) :
    w.replay? s = some { t with version := s.version + 1 } := by
  simp [replay?, change?, hp, hc, ha]

/-- Only a stale session is saved as abandoned. -/
theorem isStale_of_replay? (h : w.replay? s = some t) (hp : w.purpose = .orphaning) :
    s.isStale w.time w.threshold := by
  obtain ⟨u, hu, -⟩ := replay?_some h
  rw [change?, hp] at hu
  dsimp only at hu
  split at hu
  · rename_i o ho
    cases o with
    | none => cases hu
    | some o => exact (Orphaning.of?_ok ho).1
  · cases hu

end Save

namespace Notes

variable (client : Nat) (r : StepRequest) (threshold : Int)

/-- The saves are those that a step may make: of the session that it found, as abandoned, before it
tried its change; and then of its change. -/
structure Sound (n : Notes) : Prop where
  saves : n.saves = n.orphaned?.toList ++ n.changed?.toList
  own : ∀ w ∈ n.saves, w.client = client ∧ w.request = r ∧ w.threshold = threshold
  orphaned : ∀ w, n.orphaned? = some w → w.tried = false ∧ ∃ f, n.found = some f ∧
    f.isStale w.time threshold ∧ w.replay? f = some w.stored.session
  changed : ∀ w, n.changed? = some w → w.tried = true ∧
    ∃ b, n.before? = some b ∧ w.replay? b = some w.stored.session

/-- The step has not saved its change yet, and would make it to the session `b`. -/
structure Unchanged (n : Notes) (b : Session) : Prop where
  sound : n.Sound client r threshold
  changed : n.changed? = none
  before : n.before? = some b

/-- An outcome that tells what the step has saved. -/
structure Truthful (n : Notes) (o : Outcome) : Prop where
  sound : n.Sound client r threshold
  /-- Of a step that is to make a change. -/
  changing : r.change ≠ none → ∀ status version, o = .success status version ↔
    ∃ w, n.changed? = some w ∧ w.stored.session.status = status ∧ w.version = version
  /-- Of a step that only looks whether the session was abandoned. -/
  looking : r.change = none → n.changed? = none ∧ ∀ status version, o = .success status version →
    ∃ b, n.before? = some b ∧ b.status = status ∧ b.version = version

variable {client r threshold} {n : Notes}

theorem sound_nil (h : n.saves = []) : n.Sound client r threshold where
  saves := by simp [orphaned?, changed?, h]
  own := by simp [h]
  orphaned := by simp [orphaned?, h]
  changed := by simp [changed?, h]

theorem unchanged_nil {f : Session} (h : n.saves = []) (hf : n.found = some f) :
    n.Unchanged client r threshold f where
  sound := sound_nil h
  changed := by simp [changed?, h]
  before := by simp [before?, orphaned?, h, hf]

/-- The clock reading and the trial are no part of what was saved. -/
theorem Unchanged.tried {b : Session} (h : n.Unchanged client r threshold b) (time : Instant) :
    { n with time, tried := true }.Unchanged client r threshold b :=
  ⟨⟨h.sound.saves, h.sound.own, h.sound.orphaned, h.sound.changed⟩, h.changed, h.before⟩

/-- The session was saved as abandoned. -/
theorem unchanged_orphaned {f : Session} {w : Save} (hs : n.saves = []) (hf : n.found = some f)
    (hown : w.client = client ∧ w.request = r ∧ w.threshold = threshold)
    (hp : w.purpose = .orphaning) (ht : w.tried = false) (hw : w.replay? f = some w.stored.session) :
    { n with saves := n.saves ++ [w] }.Unchanged client r threshold w.stored.session where
  sound :=
    { saves := by simp [orphaned?, changed?, hs, hp]
      own := by simpa [hs] using hown
      orphaned := by
        have hstale := Save.isStale_of_replay? hw hp
        rw [hown.2.2] at hstale
        simpa [orphaned?, hs, hp] using ⟨ht, f, hf, hstale, hw⟩
      changed := by simp [changed?, hs, hp] }
  changed := by simp [changed?, hs, hp]
  before := by simp [before?, orphaned?, hs, hp]

/-- The change was saved. -/
theorem Unchanged.changed_sound {b : Session} {w : Save} (h : n.Unchanged client r threshold b)
    (hown : w.client = client ∧ w.request = r ∧ w.threshold = threshold)
    (hp : w.purpose = .change) (ht : w.tried = true) (hw : w.replay? b = some w.stored.session) :
    { n with saves := n.saves ++ [w] }.Sound client r threshold ∧
      { n with saves := n.saves ++ [w] }.changed? = some w := by
  have horphaned : { n with saves := n.saves ++ [w] }.orphaned? = n.orphaned? := by
    simp [orphaned?, hp]
  have hchanged : { n with saves := n.saves ++ [w] }.changed? = some w := by
    have hnone := h.changed
    unfold changed? at hnone ⊢
    rw [List.find?_append, hnone]
    simp [hp]
  have hbefore : { n with saves := n.saves ++ [w] }.before? = some b := by
    rw [← h.before]
    unfold before?
    rw [horphaned]
  refine ⟨⟨?_, ?_, ?_, ?_⟩, hchanged⟩
  · rw [horphaned, hchanged]
    have hsaves := h.sound.saves
    rw [h.changed, Option.toList_none, List.append_nil] at hsaves
    exact congrArg (· ++ [w]) hsaves
  · intro w' hw'
    rcases List.mem_append.mp hw' with h' | h'
    · exact h.sound.own w' h'
    · rw [List.mem_singleton.mp h']
      exact hown
  · rw [horphaned]
    exact h.sound.orphaned
  · intro w' hw'
    rw [hchanged] at hw'
    cases hw'
    exact ⟨ht, b, hbefore, hw⟩

theorem Unchanged.seen {b : Session} (h : n.Unchanged client r threshold b) : n.seen? = some b := by
  unfold seen?
  rw [h.changed]
  exact h.before

theorem accepted_some {s : Site} {purpose : Purpose} {lease : Lease} {x : Session} {w : Save}
    (h : save?.accepted n client r s purpose lease x
      (s.repo (.save x x.version lease.fence)).1 = some w) :
    (s.repo (.save x x.version lease.fence)).1 = .ok (x.version + 1) ∧
      w = ⟨client, r, purpose, n.tried, n.time, (s.settings r.node).orchestrator.staleness,
        .saved x x.version lease.fence⟩ := by
  have hasked := Site.repo_asked s (.save x x.version lease.fence)
  unfold save?.accepted at h
  split at h
  · rename_i version hanswer
    rw [hanswer] at hasked ⊢
    obtain rfl := hasked.save_version
    exact ⟨rfl, (Option.some.inj h).symm⟩
  · cases h

theorem accepted_none {s : Site} {purpose : Purpose} {lease : Lease} {x : Session}
    {answer : Except Stop Nat} (h : save?.accepted n client r s purpose lease x answer = none) :
    ∃ e, answer = .error e := by
  cases answer with
  | ok version => cases h
  | error e => exact ⟨e, rfl⟩

/-- Any other outcome tells that the change was not saved. -/
theorem truthful_of_failure {o : Outcome} (h : n.Sound client r threshold)
    (hc : n.changed? = none) (ho : ∀ status version, o ≠ .success status version) :
    n.Truthful client r threshold o where
  sound := h
  changing _ status version := by simp [hc, ho status version]
  looking _ := ⟨hc, fun status version h => absurd h (ho status version)⟩

end Notes

theorem Outcome.ofError_ne_success (e : Error) (status : Status) (version : Nat) :
    Outcome.ofError e ≠ .success status version := by
  cases e <;> exact fun h => by cases h

/-- What the caller is told of a step's result. -/
def StepResult.outcome : StepResult → Outcome
  | .ok (o, _) => o
  | .error e => .ofError e

namespace StepPhase

/-- How the notes of a step fit its phase. -/
def Told (client : Nat) (threshold : Int) (r : StepRequest) (n : Notes) : StepPhase → Prop
  | .acquiring _ | .loading _ => n = {}
  | .orphaning lease o | .savingOrphan lease o => n.saves = [] ∧ n.tried = false ∧
    ∃ f, n.found = some f ∧ Orphaning.of? f n.time threshold lease.fence = .ok (some o)
  | .renewing _ b c => n.tried = false ∧ r.change = some c ∧ n.Unchanged client r threshold b
  | .confirming _ x d | .saving _ x d => n.tried = true ∧ ∃ b c,
    r.change = some c ∧ n.Unchanged client r threshold b ∧ c.apply b n.time = .ok (x, d)
  | .releasing _ result => n.Truthful client r threshold (StepResult.outcome result)
  | .finished answer => ∀ o, answer = .ok o → n.Truthful client r threshold o

variable {client : Nat} {threshold : Int} {r : StepRequest} {n : Notes}

theorem told_initial : initial.Told client threshold r {} := rfl

theorem told_failWith {lease : Lease} {s : Site} {e : Stop} (h : n.Sound client r threshold)
    (hc : n.changed? = none) : (failWith lease s e).1.Told client threshold r n := by
  cases e with
  | overflow => exact fun o ho => by cases ho
  | error e => exact Notes.truthful_of_failure h hc (Outcome.ofError_ne_success e)

theorem told_proceed {lease : Lease} {b : Session} (ht : n.tried = false)
    (h : n.Unchanged client r threshold b) :
    (proceed r lease b).Told client threshold r n := by
  unfold proceed
  cases hc : r.change with
  | some c => exact ⟨ht, hc, h⟩
  | none =>
    refine ⟨h.sound, fun hne => absurd hc hne, fun _ => ⟨h.changed, ?_⟩⟩
    intro status version he
    cases he
    exact ⟨b, h.before, rfl, rfl⟩

theorem told_report {s : Site} {o : Outcome} {detail : Option Detail}
    (h : n.Truthful client r threshold o) :
    (report r s o detail).1.Told client threshold r n := by
  rw [report_phase]
  intro o' ho
  cases ho
  exact h

variable {s : Site} {lease : Lease}

theorem told_acquiring {p : AcquirePhase} :
    ((acquiring p).step r s).1.Told client threshold r {} := by
  simp only [step]
  split
  · exact rfl
  · exact fun o ho => by cases ho
  · rename_i e t fx _
    exact told_report
      (Notes.truthful_of_failure (Notes.sound_nil rfl) rfl (Outcome.ofError_ne_success e))
  · exact rfl

theorem told_loading (hs : (s.settings r.node).orchestrator.staleness = threshold) :
    ((loading lease).step r s).1.Told client threshold r
      (Notes.after {} client r s (loading lease)) := by
  have hset := (Site.repo_asked s (.load r.id)).frame.settings r.node
  simp only [Notes.after, loading_site]
  simp only [step]
  generalize s.repo (.load r.id) = asked at hset
  obtain ⟨answer, t⟩ := asked
  dsimp only at hset ⊢
  cases answer with
  | error e => exact told_failWith (Notes.sound_nil rfl) rfl
  | ok found =>
    cases found with
    | none =>
      exact Notes.truthful_of_failure (Notes.sound_nil rfl) rfl (fun _ _ h => by cases h)
    | some f =>
      dsimp only
      rw [hset, hs]
      cases ho : Orphaning.of? f t.now threshold lease.fence with
      | error e =>
        exact Notes.truthful_of_failure (Notes.sound_nil rfl) rfl
          (Outcome.ofError_ne_success e.toError)
      | ok o =>
        cases o with
        | none => exact told_proceed rfl (Notes.unchanged_nil rfl rfl)
        | some o => exact ⟨rfl, rfl, f, rfl, ho⟩

theorem told_orphaning {o : Orphaning} (h : (orphaning lease o).Told client threshold r n) :
    ((orphaning lease o).step r s).1.Told client threshold r n := by
  simp only [step]
  split
  · exact told_failWith (Notes.sound_nil h.1) (by simp [Notes.changed?, h.1])
  · exact h

/-- What an accepted save of an orphaned session is. -/
theorem save?_orphaned {o : Orphaning} {w : Save}
    (hs : (s.settings r.node).orchestrator.staleness = threshold)
    (h : (savingOrphan lease o).Told client threshold r n)
    (hw : n.save? client r s (savingOrphan lease o) = some w) :
    ∃ f, n.found = some f ∧ o.session.version = f.version ∧ w.replay? f = some w.stored.session ∧
      w = ⟨client, r, .orphaning, false, n.time, threshold,
        .saved o.session f.version lease.fence⟩ := by
  obtain ⟨-, ht, f, hf, ho⟩ := h
  have hv := Orphaning.version_of? ho
  obtain ⟨-, rfl⟩ := Notes.accepted_some hw
  rw [hs, ht, hv]
  exact ⟨f, hf, rfl, Save.replay?_orphaning rfl ho, rfl⟩

/-- What an accepted save of a change is. -/
theorem save?_changed {x : Session} {d : Detail} {w : Save}
    (hs : (s.settings r.node).orchestrator.staleness = threshold)
    (h : (saving lease x d).Told client threshold r n)
    (hw : n.save? client r s (saving lease x d) = some w) :
    ∃ b, n.Unchanged client r threshold b ∧ x.version = b.version ∧
      w.replay? b = some w.stored.session ∧
      w = ⟨client, r, .change, true, n.time, threshold, .saved x b.version lease.fence⟩ := by
  obtain ⟨ht, b, c, hc, hb, ha⟩ := h
  have hv := Change.version_apply ha
  obtain ⟨-, rfl⟩ := Notes.accepted_some hw
  rw [hs, ht, hv]
  exact ⟨b, hb, rfl, Save.replay?_change rfl hc ha, rfl⟩

theorem told_savingOrphan {o : Orphaning} (hs : (s.settings r.node).orchestrator.staleness = threshold)
    (h : (savingOrphan lease o).Told client threshold r n) :
    ((savingOrphan lease o).step r s).1.Told client threshold r
      (n.after client r s (savingOrphan lease o)) := by
  have hsaved := fun w => save?_orphaned (w := w) hs h
  simp only [Notes.after, step]
  simp only [Notes.save?] at hsaved ⊢
  generalize s.repo (.save o.session o.session.version lease.fence) = asked at hsaved
  obtain ⟨answer, t⟩ := asked
  cases answer with
  | error e =>
    have hnil : (n.saves ++ (Notes.save?.accepted n client r s .orphaning lease o.session
      (.error e)).toList) = [] := by rw [h.1]; rfl
    exact told_failWith (Notes.sound_nil hnil) (by simp [Notes.changed?, hnil])
  | ok version =>
    obtain ⟨f, hf, -, hreplay, hw⟩ := hsaved _ rfl
    have hown := congrArg Save.threshold hw
    exact told_proceed h.2.1
      (Notes.unchanged_orphaned h.1 hf ⟨rfl, rfl, hown⟩ rfl h.2.1 hreplay)

theorem told_renewing {b : Session} {c : Change} (h : (renewing lease b c).Told client threshold r n) :
    ((renewing lease b c).step r s).1.Told client threshold r
      (n.after client r s (renewing lease b c)) := by
  obtain ⟨ht, hc, hb⟩ := h
  simp only [Notes.after, renewing_site]
  simp only [step]
  generalize renewLease r s lease = renewed
  obtain ⟨answer, t⟩ := renewed
  cases answer with
  | error e => exact told_failWith hb.sound hb.changed
  | ok l =>
    dsimp only
    have hb' := hb.tried t.now
    cases ha : c.apply b t.now with
    | error e =>
      exact Notes.truthful_of_failure hb'.sound hb'.changed (fun _ _ h => by cases h)
    | ok change => exact ⟨rfl, b, c, hc, hb', ha⟩

theorem told_confirming {x : Session} {d : Detail}
    (h : (confirming lease x d).Told client threshold r n) :
    ((confirming lease x d).step r s).1.Told client threshold r n := by
  simp only [step]
  split
  · obtain ⟨-, b, c, -, hb, -⟩ := h
    exact told_failWith hb.sound hb.changed
  · exact h

theorem told_saving {x : Session} {d : Detail}
    (hs : (s.settings r.node).orchestrator.staleness = threshold)
    (h : (saving lease x d).Told client threshold r n) :
    ((saving lease x d).step r s).1.Told client threshold r
      (n.after client r s (saving lease x d)) := by
  have hsaved := fun w => save?_changed (w := w) hs h
  obtain ⟨ht, b, c, hc, hb, -⟩ := h
  simp only [Notes.after, step]
  simp only [Notes.save?] at hsaved ⊢
  generalize s.repo (.save x x.version lease.fence) = asked at hsaved
  obtain ⟨answer, t⟩ := asked
  cases answer with
  | error e =>
    have hnil : n.saves ++ (Notes.save?.accepted n client r s .change lease x (.error e)).toList =
      n.saves := List.append_nil _
    rw [hnil]
    exact told_failWith hb.sound hb.changed
  | ok version =>
    obtain ⟨b, hb, -, hreplay, hw⟩ := hsaved _ rfl
    have hown := congrArg Save.threshold hw
    obtain ⟨hsound, hchanged⟩ := hb.changed_sound ⟨rfl, rfl, hown⟩ rfl ht hreplay
    refine ⟨hsound, fun _ status version' => ?_, fun hnone => ?_⟩
    · constructor
      · intro h
        cases h
        exact ⟨_, hchanged, rfl, rfl⟩
      · rintro ⟨w, hw, rfl, rfl⟩
        cases hchanged.symm.trans hw
        rfl
    · rw [hc] at hnone
      cases hnone

theorem told_releasing {result : StepResult}
    (h : (releasing lease result).Told client threshold r n) :
    ((releasing lease result).step r s).1.Told client threshold r n := by
  simp only [step]
  split
  · exact fun o ho => by cases ho
  · cases result with
    | ok step => exact told_report h
    | error e => exact told_report h

/-- One more call keeps the notes of a step and its phase together. -/
theorem told_step {p : StepPhase} (hs : (s.settings r.node).orchestrator.staleness = threshold)
    (h : p.Told client threshold r n) :
    (p.step r s).1.Told client threshold r (n.after client r s p) := by
  cases p with
  | acquiring p => cases h; exact told_acquiring
  | loading lease => cases h; exact told_loading hs
  | orphaning lease o =>
    rw [show n.after client r s (orphaning lease o) = n by simp [Notes.after, Notes.save?]]
    exact told_orphaning h
  | savingOrphan lease o => exact told_savingOrphan hs h
  | renewing lease b c => exact told_renewing h
  | confirming lease x d =>
    rw [show n.after client r s (confirming lease x d) = n by simp [Notes.after, Notes.save?]]
    exact told_confirming h
  | saving lease x d => exact told_saving hs h
  | releasing lease result =>
    rw [show n.after client r s (releasing lease result) = n by simp [Notes.after, Notes.save?]]
    exact told_releasing h
  | finished o =>
    rw [show n.after client r s (finished o) = n by simp [Notes.after, Notes.save?]]
    exact h

end StepPhase

end FencedSessions
