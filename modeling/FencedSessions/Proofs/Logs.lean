import FencedSessions.Proofs.Holdings
import FencedSessions.Proofs.Notes

/-! What an act adds to the logs of a crowd, and that the logs are complete: the records of a
repository change by the logged writes alone, and every logged save is in the notes of the step that
made it. -/

namespace FencedSessions

namespace Notes

variable (n : Notes) (client : Nat) (r : StepRequest) (s : Site)

theorem after_saves (p : StepPhase) :
    (n.after client r s p).saves = n.saves ++ (n.save? client r s p).toList := by
  cases p with
  | loading lease =>
    simp only [after, save?, Option.toList_none, List.append_nil]
    split <;> rfl
  | renewing lease x c =>
    simp only [after, save?, Option.toList_none, List.append_nil]
    split <;> rfl
  | acquiring p => rfl
  | orphaning lease o => rfl
  | savingOrphan lease o => rfl
  | confirming lease x d => rfl
  | saving lease x d => rfl
  | releasing lease result => rfl
  | finished o => rfl

/-- A step notes the session that it loads. -/
theorem after_found (p : StepPhase) :
    (n.after client r s p).found = n.found ∨
      p.ask? r = some (.load r.id) ∧ (s.repo (.load r.id)).1 = .ok (n.after client r s p).found := by
  cases p with
  | loading lease =>
    simp only [after]
    split
    · exact Or.inr ⟨rfl, ‹_›⟩
    · exact Or.inl rfl
  | renewing lease x c =>
    simp only [after]
    split <;> exact Or.inl rfl
  | acquiring p => exact Or.inl rfl
  | orphaning lease o => exact Or.inl rfl
  | savingOrphan lease o => exact Or.inl rfl
  | confirming lease x d => exact Or.inl rfl
  | saving lease x d => exact Or.inl rfl
  | releasing lease result => exact Or.inl rfl
  | finished o => exact Or.inl rfl

variable {n client r s}

/-- An accepted save is the one that the step was about to make. -/
theorem save?_some {p : StepPhase} {w : Save} (h : n.save? client r s p = some w) :
    w.client = client ∧ ∃ x fence, p.ask? r = some (.save x x.version fence) ∧
      w.stored = .saved x x.version fence ∧
      (s.repo (.save x x.version fence)).1 = .ok (x.version + 1) := by
  cases p with
  | savingOrphan lease o =>
    obtain ⟨hanswer, rfl⟩ := accepted_some h
    exact ⟨rfl, o.session, lease.fence, rfl, rfl, hanswer⟩
  | saving lease x d =>
    obtain ⟨hanswer, rfl⟩ := accepted_some h
    exact ⟨rfl, x, lease.fence, rfl, rfl, hanswer⟩
  | acquiring p => cases h
  | loading lease => cases h
  | orphaning lease o => cases h
  | renewing lease x c => cases h
  | confirming lease x d => cases h
  | releasing lease result => cases h
  | finished o => cases h

/-- A step that is about to save and has no save to note was turned down. -/
theorem save?_none {p : StepPhase} {x : Session} {version : Nat} {fence : Fence}
    (ha : p.ask? r = some (.save x version fence)) (h : n.save? client r s p = none) :
    ∃ e, (s.repo (.save x version fence)).1 = .error e := by
  cases p with
  | savingOrphan lease o => cases ha; exact accepted_none h
  | saving lease y d => cases ha; exact accepted_none h
  | loading lease => cases ha
  | acquiring p => cases ha
  | orphaning lease o => cases ha
  | renewing lease y c => cases ha
  | confirming lease y d => cases ha
  | releasing lease result => cases ha
  | finished o => cases ha

end Notes

/-- A step that is about to ask the repository nothing leaves its records alone. -/
theorem StepPhase.step_unasked {r : StepRequest} {s : Site} {m : MemoryRepository} {p : StepPhase}
    (h : p.ask? r = none) (hm : s.Holds m) : (p.step r s).2.1.Holds m := by
  cases hc : p.call? r s with
  | none => exact hm.alike (p.step_silent r s hc h).alike
  | some call =>
    obtain ⟨answer, t, hcalled, he⟩ := p.step_called r s hc
    exact (hcalled.holds hm).alike he.alike

/-- All that a step asks of the repository is to load its session and to save one. -/
theorem StepPhase.ask?_some {r : StepRequest} {p : StepPhase} {op : RepositoryOp}
    (h : p.ask? r = some op) : op = .load r.id ∨ ∃ x fence, op = .save x x.version fence := by
  cases p with
  | loading lease => cases h; exact Or.inl rfl
  | savingOrphan lease o => cases h; exact Or.inr ⟨_, _, rfl⟩
  | saving lease x d => cases h; exact Or.inr ⟨_, _, rfl⟩
  | acquiring p => cases h
  | orphaning lease o => cases h
  | renewing lease x c => cases h
  | confirming lease x d => cases h
  | releasing lease result => cases h
  | finished o => cases h

theorem Activity.step_stepping {s : Site} {a : Activity} {r : StepRequest} {p : StepPhase}
    (h : a.stepping? = some (r, p)) : (a.step s).2.2.1 = (p.step r s).2.1 := by
  cases a with
  | series x p' => cases h; exact series_site s x p
  | acquire r' p' keep => cases h
  | revoke key ticket => cases h
  | pause x due => cases h
  | sleep due => cases h
  | join task => cases h
  | ended => cases h

theorem Activity.step_idle {s : Site} {m : MemoryRepository} {a : Activity}
    (h : a.stepping? = none) (hm : s.Holds m) : (a.step s).2.2.1.Holds m := by
  cases a with
  | series x p => cases h
  | acquire r p keep =>
    rw [acquire_site]
    have hc := p.step_called r s
    cases hop : p.call? r with
    | none =>
      rw [hop] at hc
      rw [hc]
      exact hm
    | some op =>
      rw [hop] at hc
      obtain ⟨answer, hc⟩ := hc
      exact hc.holds hm
  | revoke key ticket => exact (Site.lease_called s key (.remove ticket)).holds hm
  | pause x due => exact hm
  | sleep due => exact hm
  | join task => exact hm
  | ended => exact hm

namespace Crowd

variable (c : Crowd)

theorem effects_logs (fx : List Effect) :
    (fx.foldl effect c).saves = c.saves ∧ (fx.foldl effect c).endings = c.endings ∧
      (fx.foldl effect c).created = c.created := by
  induction fx generalizing c with
  | nil => exact ⟨rfl, rfl, rfl⟩
  | cons e fx ih =>
    rw [List.foldl_cons]
    have hlogs := ih (c.effect e)
    cases e <;> exact hlogs

theorem go_logs {i : Nat} {x : Client} (h : c.clients[i]? = some x) :
    (c.go i).saves = c.saves ++ c.saving i x ∧ (c.go i).endings = c.endings ++ c.ending i x ∧
      (c.go i).created = c.created := by
  unfold go
  simp only [h]
  exact effects_logs _ _

theorem leave_logs {i : Nat} {x : Client} (h : c.clients[i]? = some x) :
    (c.leave i).saves = c.saves ∧ (c.leave i).endings = c.endings ++ dropping i x ∧
      (c.leave i).created = c.created := by
  unfold leave
  simp only [h]
  exact effects_logs _ _

/-- The sessions that an act creates. -/
def creating : Act → List Session
  | .create priority metadata => (c.site.createSession priority metadata).1.toOption.toList
  | _ => []

/-- The saves that an act makes. -/
def writing : Act → List Save
  | .go i =>
    match c.clients[i]? with
    | some x => c.saving i x
    | none => []
  | _ => []

/-- The steps that end with an act. -/
def closing : Act → List Ending
  | .go i =>
    match c.clients[i]? with
    | some x => c.ending i x
    | none => []
  | .leave i =>
    match c.clients[i]? with
    | some x => dropping i x
    | none => []
  | _ => []

/-- What an act adds to the logs. -/
theorem act_logs (a : Act) :
    (c.act a).saves = c.saves ++ c.writing a ∧ (c.act a).endings = c.endings ++ c.closing a ∧
      (c.act a).created = c.created ++ c.creating a := by
  cases a with
  | go i =>
    cases hx : c.clients[i]? with
    | none =>
      have hgo : c.act (.go i) = c := c.go_absent hx
      simp [hgo, writing, closing, creating, hx]
    | some x =>
      simp only [writing, closing, creating, hx, List.append_nil]
      exact c.go_logs hx
  | leave i =>
    cases hx : c.clients[i]? with
    | none =>
      have hleave : c.act (.leave i) = c := c.leave_absent hx
      simp [hleave, writing, closing, creating, hx]
    | some x =>
      simp only [writing, closing, creating, hx, List.append_nil]
      exact c.leave_logs hx
  | create priority metadata => exact ⟨(List.append_nil _).symm, (List.append_nil _).symm, rfl⟩
  | release node key fence =>
    simp only [writing, closing, creating, List.append_nil]
    exact effects_logs _ _
  | _ => exact ⟨(List.append_nil _).symm, (List.append_nil _).symm, (List.append_nil _).symm⟩

theorem act_saves (a : Act) : (c.act a).saves = c.saves ++ c.writing a := (c.act_logs a).1

theorem act_endings (a : Act) : (c.act a).endings = c.endings ++ c.closing a := (c.act_logs a).2.1

theorem act_created (a : Act) : (c.act a).created = c.created ++ c.creating a := (c.act_logs a).2.2

/-- All that was written is within the ranges of its fields. -/
structure InRange : Prop where
  saves : ∀ w ∈ c.saves, c.site.Admits w.stored
  created : ∀ x ∈ c.created, c.site.Admits ⟨.zero, x⟩

variable {c} {m : MemoryRepository}

/-- A repository stays where it is. -/
theorem act_sessionDirectory (c : Crowd) (a : Act) :
    (c.act a).site.sessionDirectory? = c.site.sessionDirectory? := by
  cases hcall : c.call? a with
  | some call =>
    obtain ⟨answer, t, hcalled, he⟩ := c.act_called hcall
    exact he.alike.sessionDirectory?.trans hcalled.sessionDirectory?
  | none =>
    rcases c.act_uncalled hcall with h | ⟨op, h⟩
    · exact h.sessionDirectory?
    · exact h.sessionDirectory?.trans (Site.repo_asked c.site op).sessionDirectory?

theorem act_admits (a : Act) (r : StoredSession) :
    (c.act a).site.Admits r ↔ c.site.Admits r := by
  unfold Site.Admits
  rw [act_sessionDirectory]

/-- What is in range after an act was so before. -/
theorem InRange.before {a : Act} (h : (c.act a).InRange) : c.InRange where
  saves w hw := by
    rw [← act_admits a]
    exact h.saves w (by rw [act_saves]; exact List.mem_append_left _ hw)
  created x hx := by
    rw [← act_admits a]
    exact h.created x (by rw [act_created]; exact List.mem_append_left _ hx)

theorem InRange.begun {acts : List Act} (h : (c.run acts).InRange) : c.InRange :=
  Classical.byContradiction fun hout =>
    run_invariant (P := fun c => ¬c.InRange) (fun _ _ hout hact => hout hact.before) hout acts h

/-- An invariant of a run whose records are in range at the end, and so all along. -/
theorem InRange.invariant {P : Crowd → Prop} {acts : List Act} (hrange : (c.run acts).InRange)
    (hact : ∀ c a, (c.act a).InRange → P c → P (c.act a)) (h : P c) : P (c.run acts) := by
  refine (run_induction (P := fun c acts => (c.run acts).InRange ∧ P c) ?_ ⟨hrange, h⟩).2
  rintro c a acts ⟨hrange, h⟩
  have hrest : ((c.act a).run acts).InRange := hrange
  exact ⟨hrest, hact c a hrest.begun h⟩

theorem inRange_memory (h : c.site.repository = .memory m) : c.InRange where
  saves w _ hd := absurd (by simp only [Site.sessionDirectory?, h]) hd
  created x _ hd := absurd (by simp only [Site.sessionDirectory?, h]) hd

variable (c) in
/-- What an act does to the records of a repository. -/
inductive Wrote (m : MemoryRepository) (a : Act) : Prop where
  | nothing (saves : (c.act a).saves = c.saves) (created : (c.act a).created = c.created)
    (kept : (c.act a).site.Holds m)
  | saved {i : Nat} {x : Client} {r : StepRequest} {p : StepPhase} {w : Save} {old : StoredSession}
    (act : a = .go i) (client : c.clients[i]? = some x) (step : x.activity.stepping? = some (r, p))
    (accepted : x.notes.save? i r c.site p = some w) (saves : (c.act a).saves = c.saves ++ [w])
    (created : (c.act a).created = c.created) (found : m.find? w.id = some old)
    (version : w.version = old.session.version + 1) (fence : old.fence ≤ w.stored.fence)
    (kept : (c.act a).site.Holds (m.put w.id w.stored))
  | created {x : Session} (saves : (c.act a).saves = c.saves)
    (created : (c.act a).created = c.created ++ [x]) (new : m.find? x.id = none)
    (first : x.version = 1) (kept : (c.act a).site.Holds (m.put x.id ⟨.zero, x⟩))

/-- A client that goes on without an accepted save leaves the records as they were. -/
theorem go_kept (hm : c.site.Holds m) {i : Nat} {x : Client} (hx : c.clients[i]? = some x)
    (h : c.saving i x = []) : (c.go i).site.Holds m := by
  rw [c.go_site hx]
  unfold saving at h
  cases hs : x.activity.stepping? with
  | none => exact Activity.step_idle hs hm
  | some step =>
    obtain ⟨r, p⟩ := step
    rw [Activity.step_stepping hs]
    simp only [hs, Option.toList_eq_nil_iff] at h
    cases ha : p.ask? r with
    | none => exact StepPhase.step_unasked ha hm
    | some op =>
      have hasked := Site.repo_asked c.site op
      refine Site.Holds.alike ?_ (p.step_asked r c.site ha).alike
      rcases StepPhase.ask?_some ha with rfl | ⟨y, fence, rfl⟩
      · exact (hasked.holds_load hm).1
      · obtain ⟨e, he⟩ := Notes.save?_none ha h
        rw [he] at hasked
        rcases hasked.holds_save hm (fun hok => by cases hok) with ⟨-, -, hkept⟩ | ⟨-, hok, -⟩
        · exact hkept
        · cases hok

/-- A client whose save is accepted replaces one record. -/
theorem go_saved (hm : c.site.Holds m) {i : Nat} {x : Client} {r : StepRequest}
    {p : StepPhase} {w : Save} (hx : c.clients[i]? = some x)
    (hs : x.activity.stepping? = some (r, p)) (hw : x.notes.save? i r c.site p = some w)
    (hfit : c.site.Admits w.stored) :
    ∃ old, m.find? w.id = some old ∧ w.version = old.session.version + 1 ∧
      old.fence ≤ w.stored.fence ∧ (c.go i).site.Holds (m.put w.id w.stored) := by
  obtain ⟨-, y, fence, ha, hstored, hanswer⟩ := Notes.save?_some hw
  have hasked := Site.repo_asked c.site (.save y y.version fence)
  rw [hanswer] at hasked
  rw [hstored] at hfit
  rcases hasked.holds_save hm (fun _ => hfit) with
    ⟨e, he, -⟩ | ⟨old, -, hold, hversion, hfence, hkept⟩
  · cases he
  · rw [c.go_site hx, Activity.step_stepping hs]
    simp only [Save.id, Save.version, hstored]
    exact ⟨old, hold, congrArg (· + 1) hversion.symm, hfence,
      hkept.alike (p.step_asked r c.site ha).alike⟩

theorem create_wrote (hm : c.site.Holds m) (priority : Nat) (metadata : List (String × Json))
    (hrange : (c.act (.create priority metadata)).InRange) :
    c.Wrote m (.create priority metadata) := by
  have hasked := Site.repo_asked c.site (.create (c.site.draft priority metadata))
  have hsite := Site.createSession_asked c.site priority metadata
  have hcreated : (c.act (.create priority metadata)).created =
    c.created ++ (c.site.createSession priority metadata).1.toOption.toList := rfl
  have hfit (x : Session) (hx : x ∈ (c.site.createSession priority metadata).1.toOption.toList) :
      c.site.Admits ⟨.zero, x⟩ := by
    rw [← act_admits (.create priority metadata)]
    exact hrange.created x (by rw [hcreated]; exact List.mem_append_right _ hx)
  rw [Site.createSession_eq] at hcreated hfit
  generalize c.site.repo (.create (c.site.draft priority metadata)) = asked at hasked hsite hcreated hfit
  obtain ⟨answer, t⟩ := asked
  have hadmits (hok : answer = .ok 1) : c.site.Admits (.initial (c.site.draft priority metadata)) := by
    subst hok
    exact hfit _ (by simp [Except.toOption])
  rcases hasked.holds_create hm hadmits with ⟨e, he, hkept⟩ | ⟨hok, hnew, hkept⟩
  · cases he
    exact .nothing rfl (hcreated.trans (List.append_nil _)) (hkept.alike hsite)
  · cases hok
    generalize c.site.draft priority metadata = x at hcreated hnew hkept
    have hwrote := Wrote.created (c := c) (m := m) (a := .create priority metadata)
      (x := { x with version := 1 })
    exact hwrote rfl hcreated hnew rfl (hkept.alike hsite)

theorem act_wrote (hm : c.site.Holds m) (a : Act) (hrange : (c.act a).InRange) : c.Wrote m a := by
  have hcalled {key : String} {op : LeaseOp} (h : c.call? a = some (key, op)) :
      (c.act a).site.Holds m := by
    obtain ⟨answer, t, hc, he⟩ := c.act_called h
    exact (hc.holds hm).alike he.alike
  cases a with
  | go i =>
    cases hx : c.clients[i]? with
    | none =>
      have hgo : c.act (.go i) = c := c.go_absent hx
      exact .nothing (by rw [hgo]) (by rw [hgo]) (by rw [hgo]; exact hm)
    | some x =>
      obtain ⟨hsaves, -, hcreated⟩ := c.go_logs hx
      cases hw : c.saving i x with
      | nil =>
        rw [hw, List.append_nil] at hsaves
        exact .nothing hsaves hcreated (go_kept hm hx hw)
      | cons w ws =>
        unfold saving at hw
        cases hs : x.activity.stepping? with
        | none => rw [hs] at hw; cases hw
        | some step =>
          obtain ⟨r, p⟩ := step
          simp only [hs] at hw
          cases hsave : x.notes.save? i r c.site p with
          | none => rw [hsave] at hw; cases hw
          | some w' =>
            have hsaving : c.saving i x = [w'] := by simp only [saving, hs, hsave, Option.toList_some]
            rw [hsaving] at hsaves
            have hfit : c.site.Admits w'.stored := by
              rw [← act_admits (.go i)]
              exact hrange.saves w' (by rw [show (c.act (.go i)).saves = _ from hsaves]; simp)
            obtain ⟨old, hold, hversion, hfence, hkept⟩ := go_saved hm hx hs hsave hfit
            exact .saved rfl hx hs hsave hsaves hcreated hold hversion hfence hkept
  | leave i =>
    cases hx : c.clients[i]? with
    | none =>
      have hleave : c.act (.leave i) = c := c.leave_absent hx
      exact .nothing (by rw [hleave]) (by rw [hleave]) (by rw [hleave]; exact hm)
    | some x =>
      obtain ⟨hsaves, -, hcreated⟩ := c.leave_logs hx
      refine .nothing hsaves hcreated ?_
      rw [show (c.act (.leave i)).site = c.site from c.leave_site i]
      exact hm
  | create priority metadata => exact create_wrote hm priority metadata hrange
  | renew node key fence extension => exact .nothing rfl rfl (hcalled rfl)
  | check node key fence => exact .nothing rfl rfl (hcalled rfl)
  | release node key fence =>
    have hlogs := effects_logs { c with site := (c.site.release node key fence).2.1 }
      (c.site.release node key fence).2.2
    exact .nothing hlogs.1 hlogs.2.2 (hcalled rfl)
  | acquire r => exact .nothing rfl rfl hm
  | steps policy first rest => exact .nothing rfl rfl hm
  | set t => exact .nothing rfl rfl hm
  | tick ms => exact .nothing rfl rfl hm
  | disturb plan => exact .nothing rfl rfl hm

variable (c) in
/-- What the logs say that the repository holds of a session: what was saved last or, before the
first save, what was created. -/
def written? (id : SessionId) : Option StoredSession :=
  match (c.saves.filter (·.id = id)).getLast? with
  | some w => some w.stored
  | none => (c.created.find? (·.id = id)).map fun x => ⟨.zero, x⟩

/-- The repository holds what the logs say, and nothing else. -/
structure Written (c : Crowd) (m : MemoryRepository) : Prop where
  holds : c.site.Holds m
  logged : ∀ id, m.find? id = c.written? id

theorem Written.act (h : c.Written m) (a : Act) (hrange : (c.act a).InRange) :
    ∃ m', (c.act a).Written m' := by
  have hwritten := h.logged
  cases act_wrote h.holds a hrange with
  | nothing hsaves hcreated hkept =>
    refine ⟨m, hkept, fun id => ?_⟩
    rw [hwritten id]
    unfold written?
    rw [hsaves, hcreated]
  | @saved _ _ _ _ w _ _ _ _ _ hsaves hcreated _ _ _ hkept =>
    refine ⟨_, hkept, fun id => ?_⟩
    unfold written?
    rw [hsaves, hcreated, List.filter_append]
    by_cases hid : id = w.id
    · subst hid
      simp
    · have hne : w.id ≠ id := fun h => hid h.symm
      rw [MemoryRepository.find?_put_other m w.stored hid, hwritten id]
      simp [written?, hne]
  | @created x hsaves hcreated hnew _ hkept =>
    refine ⟨_, hkept, fun id => ?_⟩
    unfold written?
    rw [hsaves, hcreated, List.find?_append]
    by_cases hid : id = x.id
    · subst hid
      rw [hwritten] at hnew
      unfold written? at hnew
      split at hnew
      · cases hnew
      · rw [Option.map_eq_none_iff] at hnew
        simp [hnew]
    · have hne : x.id ≠ id := fun h => hid h.symm
      rw [MemoryRepository.find?_put_other m _ hid, hwritten id]
      simp [written?, hne]

theorem Written.run (h : c.Written m) {acts : List Act} (hrange : (c.run acts).InRange) :
    ∃ m', (c.run acts).Written m' :=
  hrange.invariant (P := fun c => ∃ m, c.Written m) (fun _ a hrange ⟨_, h⟩ => h.act a hrange) ⟨m, h⟩

variable (c) in
/-- A repository in memory holds what the logs say, and nothing else. -/
def Recorded (m : MemoryRepository) : Prop :=
  c.site.repository = .memory m ∧ ∀ id, m.find? id = c.written? id

/-- A repository in memory stays one. -/
theorem act_recording (hm : c.site.repository = .memory m) (a : Act) :
    ∃ m', (c.act a).site.repository = .memory m' := by
  have hsame := act_sessionDirectory c a
  unfold Site.sessionDirectory? at hsame
  rw [hm] at hsame
  split at hsame
  · rename_i m' hm'
    exact ⟨m', hm'⟩
  · cases hsame

theorem Recorded.act (h : c.Recorded m) (a : Act) : ∃ m', (c.act a).Recorded m' := by
  obtain ⟨hm, hwritten⟩ := h
  obtain ⟨m', hm'⟩ := act_recording hm a
  have hbefore : c.Written m := ⟨(Site.holds_memory hm).mpr rfl, hwritten⟩
  obtain ⟨m'', hholds, hwritten'⟩ := hbefore.act a (inRange_memory hm')
  obtain rfl := (Site.holds_memory hm').mp hholds
  exact ⟨m', hm', hwritten'⟩

theorem Recorded.run (h : c.Recorded m) (acts : List Act) : ∃ m', (c.run acts).Recorded m' :=
  run_invariant (P := fun c => ∃ m, c.Recorded m) (fun _ a ⟨_, h⟩ => h.act a) ⟨m, h⟩ acts

end Crowd

namespace Site

/-- What the repository holds of a session. -/
def record? (s : Site) (id : SessionId) : Option StoredSession :=
  match s.repository with
  | .memory m => m.find? id
  | .directory path => (DirectoryRepository.find? s.files path id).toOption.join

theorem written_crowd {s : Site} (h : s.Unwritten) : s.crowd.Written {} := ⟨h.holds, fun _ => rfl⟩

theorem recorded_crowd {s : Site} (h : s.repository = .memory {}) : s.crowd.Recorded {} :=
  ⟨h, fun _ => rfl⟩

end Site

theorem Crowd.Recorded.record {c : Crowd} {m : MemoryRepository} (h : c.Recorded m)
    (id : SessionId) : c.site.record? id = c.written? id := by
  unfold Site.record?
  rw [h.1]
  exact h.2 id

end FencedSessions
