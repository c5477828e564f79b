import FencedSessions.Proofs.Works

/-! Fences order the writes of a session. Every lease that a step is granted bears a fence of its own,
later than all before, and a step saves under no other fence; so the saves under one fence are those
of one step. And as the repository takes no earlier fence than it has seen, they stand together. -/

namespace FencedSessions.Crowd

open Site

variable {c : Crowd} {id : SessionId} {staleness : Nat → Int} {m : MemoryRepository} {k : KeyState}

/-- The saves of a session under a fence. -/
def under (c : Crowd) (id : SessionId) (f : Fence) : List Save :=
  (c.savesOf id).filter (·.stored.fence = f)

/-- Every fence that a session is saved under was issued, and it is in the hands of one step. -/
structure Fenced (c : Crowd) (id : SessionId) (last : Fence) : Prop where
  bounded : ∀ w ∈ c.savesOf id, w.stored.fence ≤ last
  issued : ∀ i f ws, c.work? id i = some (f, ws) → f ≤ last
  /-- A client has made all the saves under the fence that it holds. -/
  own : ∀ i f ws, c.work? id i = some (f, ws) → c.under id f = ws
  alone : ∀ i j f ws vs, c.work? id i = some (f, ws) → c.work? id j = some (f, vs) → i = j
  /-- The saves under a fence are those of a step that is over or of one that holds the fence. -/
  made : ∀ f, c.under id f = [] ∨ (∃ e ∈ c.endings, e.notes.saves = c.under id f) ∨
    ∃ i, c.work? id i = some (f, c.under id f)

namespace Fenced

variable {c' : Crowd} {last last' : Fence}

theorem under_append {ws : List Save} (h : c'.savesOf id = c.savesOf id ++ ws) (f : Fence) :
    c'.under id f = c.under id f ++ ws.filter (·.stored.fence = f) := by
  unfold under
  rw [h, List.filter_append]

/-- Saves under one fence are no saves under another one. -/
theorem under_turn {i : Nat} {work : Option (Fence × List Save)} {g : Fence} {ws : List Save}
    (h : c.Turn c' id i work ws) (hfence : ∀ w ∈ ws, w.stored.fence = g) (f : Fence) :
    c'.under id f = if f = g then c.under id f ++ ws else c.under id f := by
  rw [under_append h.saves]
  split
  · rename_i hf
    subst hf
    rw [List.filter_eq_self.mpr fun w hw => decide_eq_true (hfence w hw)]
  · rename_i hf
    rw [List.filter_eq_nil_iff.mpr fun w hw hw' => hf ?_, List.append_nil]
    rw [← hfence w hw]
    exact (of_decide_eq_true hw').symm

theorem mono (h : c.Fenced id last) (hle : last ≤ last') : c.Fenced id last' where
  bounded w hw := Nat.le_trans (h.bounded w hw) hle
  issued i f ws hi := Nat.le_trans (h.issued i f ws hi) hle
  own := h.own
  alone := h.alone
  made := h.made

theorem idle (h : c.Fenced id last) {i : Nat} (turn : c.Turn c' id i (c.work? id i) [])
    (hendings : ∀ e ∈ c.endings, e ∈ c'.endings) : c'.Fenced id last := by
  have hsaves : c'.savesOf id = c.savesOf id := turn.saves.trans (List.append_nil _)
  have hwork (j : Nat) : c'.work? id j = c.work? id j := by
    by_cases hj : j = i
    · rw [hj]
      exact turn.self
    · exact turn.others j hj
  have hunder (f : Fence) : c'.under id f = c.under id f := by
    unfold under
    rw [hsaves]
  refine ⟨?_, ?_, ?_, ?_, ?_⟩
  · rw [hsaves]
    exact h.bounded
  · simp only [hwork]
    exact h.issued
  · simp only [hwork, hunder]
    exact h.own
  · simp only [hwork]
    exact h.alone
  · simp only [hwork, hunder]
    exact fun f => (h.made f).imp_right fun hmade =>
      hmade.imp_left fun ⟨e, he, hsaves⟩ => ⟨e, hendings e he, hsaves⟩

/-- One client's turn is in order if it has to do with one fence only, which nobody else holds, and the
saves under this fence are then those of the client's step. -/
theorem turned (h : c.Fenced id last) {i : Nat} {f : Fence} {us ws : List Save}
    {work : Option (Fence × List Save)} (turn : c.Turn c' id i work ws) (hle : last ≤ last')
    (hissued : f ≤ last') (hfence : ∀ w ∈ ws, w.stored.fence = f)
    (hbefore : ∀ g vs, c.work? id i = some (g, vs) → g = f)
    (hfree : ∀ j ≠ i, ∀ vs, c.work? id j ≠ some (f, vs))
    (hwork : work = none ∨ work = some (f, us)) (hown : c'.under id f = us)
    (hmade : us = [] ∨ (∃ e ∈ c'.endings, e.notes.saves = us) ∨ work = some (f, us))
    (hendings : ∀ e ∈ c.endings, e ∈ c'.endings) : c'.Fenced id last' := by
  have hother {g : Fence} (hg : g ≠ f) : c'.under id g = c.under id g := by
    rw [under_turn turn hfence, if_neg hg]
  have hself {g : Fence} {us' : List Save} (hi : c'.work? id i = some (g, us')) : g = f ∧ us' = us := by
    rw [turn.self] at hi
    rcases hwork with hnone | hsome
    · rw [hnone] at hi
      cases hi
    · rw [hsome] at hi
      cases hi
      exact ⟨rfl, rfl⟩
  have hothers {j : Nat} (hj : j ≠ i) {g : Fence} {us' : List Save}
      (hj' : c'.work? id j = some (g, us')) : c.work? id j = some (g, us') ∧ g ≠ f := by
    rw [turn.others j hj] at hj'
    refine ⟨hj', ?_⟩
    rintro rfl
    exact hfree j hj us' hj'
  refine ⟨fun w hw => ?_, fun j g us' hj => ?_, fun j g us' hj => ?_, fun j j' g us' vs' hj hj' => ?_,
    fun g => ?_⟩
  · rcases List.mem_append.mp (turn.saves ▸ hw) with hold | hnew
    · exact Nat.le_trans (h.bounded w hold) hle
    · rw [hfence w hnew]
      exact hissued
  · by_cases hji : j = i
    · subst hji
      rw [(hself hj).1]
      exact hissued
    · exact Nat.le_trans (h.issued j g us' (hothers hji hj).1) hle
  · by_cases hji : j = i
    · subst hji
      obtain ⟨rfl, rfl⟩ := hself hj
      exact hown
    · obtain ⟨hj, hg⟩ := hothers hji hj
      rw [hother hg, h.own j g us' hj]
  · by_cases hji : j = i
    · by_cases hji' : j' = i
      · exact hji.trans hji'.symm
      · subst hji
        exact absurd (hself hj).1 (hothers hji' hj').2
    · by_cases hji' : j' = i
      · subst hji'
        exact absurd (hself hj').1 (hothers hji hj).2
      · exact h.alone j j' g us' vs' (hothers hji hj).1 (hothers hji' hj').1
  · by_cases hg : g = f
    · subst hg
      rw [hown]
      exact hmade.imp_right fun hmade => hmade.imp_right fun hwork => ⟨i, turn.self.trans hwork⟩
    · rw [hother hg]
      rcases h.made g with hnil | ⟨e, he, hsaved⟩ | ⟨j, hj⟩
      · exact Or.inl hnil
      · exact Or.inr (Or.inl ⟨e, hendings e he, hsaved⟩)
      · have hji : j ≠ i := by
          rintro rfl
          exact hg (hbefore g _ hj)
        exact Or.inr (Or.inr ⟨j, (turn.others j hji).trans hj⟩)

/-- A fence that is granted now is later than all that are held and all that were saved under. -/
theorem granted (h : c.Fenced id last) {i : Nat} (turn : c.Turn c' id i (some (last', [])) [])
    (before : c.work? id i = none) (later : last < last')
    (hendings : ∀ e ∈ c.endings, e ∈ c'.endings) : c'.Fenced id last' := by
  have hnew {f : Fence} (hf : f ≤ last) : f ≠ last' := by
    rintro rfl
    exact Nat.lt_irrefl _ (Nat.lt_of_le_of_lt hf later)
  refine h.turned turn (Nat.le_of_lt later) (Nat.le_refl _) (fun w hw => absurd hw List.not_mem_nil)
    (fun g vs hi => ?_) (fun j _ vs hj => hnew (h.issued j last' vs hj) rfl) (Or.inr rfl) ?_
    (Or.inl rfl) hendings
  · rw [before] at hi
    cases hi
  · refine List.filter_eq_nil_iff.mpr fun w hw hf => ?_
    rw [turn.saves, List.append_nil] at hw
    exact hnew (h.bounded w hw) (of_decide_eq_true hf)

/-- A client that saves under the fence that it holds goes on with it, or it is done. -/
theorem saved (h : c.Fenced id last) {i : Nat} {f : Fence} {vs ws : List Save}
    {work : Option (Fence × List Save)} (turn : c.Turn c' id i work ws)
    (before : c.work? id i = some (f, vs)) (fence : ∀ w ∈ ws, w.stored.fence = f)
    (hwork : work = none ∨ work = some (f, vs ++ ws))
    (hmade : (∃ e ∈ c'.endings, e.notes.saves = vs ++ ws) ∨ work = some (f, vs ++ ws))
    (hendings : ∀ e ∈ c.endings, e ∈ c'.endings) : c'.Fenced id last := by
  refine h.turned turn (Nat.le_refl _) (h.issued i f vs before) fence (fun g vs' hi => ?_)
    (fun j hj vs' hj' => hj (h.alone j i f vs' vs hj' before)) hwork ?_ (Or.inr hmade) hendings
  · rw [before] at hi
    cases hi
    rfl
  · rw [under_turn turn fence, if_pos rfl, h.own i f vs before]

theorem works (h : c.Fenced id last) (hle : last ≤ last') (hworks : c.Works c' id last last')
    (hendings : ∀ e ∈ c.endings, e ∈ c'.endings) : c'.Fenced id last' := by
  cases hworks with
  | idle turn => exact (h.idle turn hendings).mono hle
  | granted turn before later => exact h.granted turn before later hendings
  | goes turn before fence =>
    exact (h.saved turn before fence (Or.inr rfl) (Or.inr rfl) hendings).mono hle
  | ends turn before fence ended =>
    exact (h.saved turn before fence (Or.inl rfl) (Or.inl ended) hendings).mono hle

end Fenced

/-- What holds of the fences of a session at any time. -/
structure Fencing (staleness : Nat → Int) (id : SessionId) (k : KeyState) (m : MemoryRepository)
    (c : Crowd) : Prop where
  told : c.Told staleness
  loaded : c.Each fun _ x => x.Loaded
  ordered : c.Ordered m
  keeps : c.site.Keeps id.text k
  fenced : c.Fenced id k.lastFence

theorem Fencing.act (h : c.Fencing staleness id k m) {a : Act}
    (hfit : c.site.fits id.text (c.call? a)) (hrange : (c.act a).InRange) :
    ∃ k' m', (c.act a).Fencing staleness id k' m' := by
  obtain ⟨k', hkeeps, hrun⟩ := act_keeps h.keeps hfit
  obtain ⟨m', hordered⟩ := h.ordered.act a hrange
  have hworks := act_works h.keeps a hfit h.told h.loaded
  rw [hkeeps.keyState] at hworks
  have hle : k.lastFence ≤ k'.lastFence := by
    rcases hrun with rfl | ⟨op, -, rfl⟩
    · exact Nat.le_refl _
    · exact KeyState.issued_run (Nat.le_refl _) id.text c.now op
  exact ⟨k', m', h.told.act a, loaded_act h.ordered.written h.told h.loaded a, hordered, hkeeps,
    h.fenced.works hle hworks fun e he => by
      rw [act_endings]
      exact List.mem_append_left _ he⟩

theorem Fencing.run (h : c.Fencing staleness id k m) {acts : List Act} (hfit : c.fitting id.text acts)
    (hrange : (c.run acts).InRange) : ∃ k' m', (c.run acts).Fencing staleness id k' m' := by
  refine (run_induction (P := fun c acts => c.fitting id.text acts ∧ (c.run acts).InRange ∧
    ∃ k m, c.Fencing staleness id k m) ?_ ⟨hfit, hrange, k, m, h⟩).2.2
  rintro c a acts ⟨hfit, hrange, k, m, h⟩
  have hrest : ((c.act a).run acts).InRange := hrange
  obtain ⟨hone, hfit'⟩ := (Bool.and_eq_true _ _).mp hfit
  exact ⟨hfit', hrest, h.act hone hrest.begun⟩

theorem fencing_crowd {s : Site} (hkeeps : s.Keeps id.text {}) (h : s.Unwritten) :
    s.crowd.Fencing (fun n => (s.settings n).orchestrator.staleness) id {} {} where
  told := (honest_crowd s).told
  loaded _ _ hx := by cases hx
  ordered := ordered_crowd h
  keeps := hkeeps
  fenced :=
    { bounded := fun _ hw => absurd hw List.not_mem_nil
      issued := fun _ _ _ hi => by cases hi
      own := fun _ _ _ hi => by cases hi
      alone := fun _ _ _ _ _ hi => by cases hi
      made := fun _ => Or.inl rfl }

/-- What the steps have learnt, those that are over and those that the clients are at. -/
def noted (c : Crowd) : List Notes := c.endings.map (·.notes) ++ c.clients.map (·.notes)

/-- The saves of a session store the versions from two on, and those under one fence are the saves of
one step and stand together, after all saves under earlier fences and before all under later ones. -/
structure ByFence (c : Crowd) (id : SessionId) : Prop where
  versions : (c.savesOf id).map (·.version) = List.range' 2 (c.savesOf id).length
  steps : ∀ w ∈ c.savesOf id, ∃ n ∈ c.noted, ∃ earlier later,
    c.savesOf id = earlier ++ n.saves ++ later ∧ w ∈ n.saves ∧
    (∀ v ∈ n.saves, v.stored.fence = w.stored.fence) ∧
    (∀ v ∈ earlier, v.stored.fence < w.stored.fence) ∧ ∀ v ∈ later, w.stored.fence < v.stored.fence

/-- In the order of their fences, the saves under one fence stand between those under earlier ones and
those under later ones. -/
theorem segments {ws : List Save} (h : ws.Pairwise fun v w => v.stored.fence ≤ w.stored.fence)
    (f : Fence) : ∃ earlier later, ws = earlier ++ ws.filter (·.stored.fence = f) ++ later ∧
      (∀ v ∈ earlier, v.stored.fence < f) ∧ ∀ v ∈ later, f < v.stored.fence := by
  induction ws with
  | nil => exact ⟨[], [], rfl, fun v hv => absurd hv List.not_mem_nil, fun v hv => absurd hv List.not_mem_nil⟩
  | cons w ws ih =>
    obtain ⟨hfirst, hrest⟩ := List.pairwise_cons.mp h
    obtain ⟨earlier, later, hws, hearlier, hlater⟩ := ih hrest
    by_cases hlt : w.stored.fence < f
    · have hne : ¬w.stored.fence = f := fun heq => Nat.lt_irrefl _ (heq ▸ hlt)
      refine ⟨w :: earlier, later, ?_, fun v hv => ?_, hlater⟩
      · rw [List.filter_cons_of_neg (by simpa using hne), List.cons_append, List.cons_append, ← hws]
      · rcases List.mem_cons.mp hv with rfl | hv
        · exact hlt
        · exact hearlier v hv
    · have hle : f ≤ w.stored.fence := Nat.le_of_not_lt hlt
      have hall : ∀ v ∈ ws, f ≤ v.stored.fence := fun v hv => Nat.le_trans hle (hfirst v hv)
      by_cases heq : w.stored.fence = f
      · have hnil : earlier = [] := by
          refine List.eq_nil_iff_forall_not_mem.mpr fun v hv => ?_
          have hv' : v ∈ ws := by
            rw [hws]
            exact List.mem_append_left _ (List.mem_append_left _ hv)
          exact Nat.lt_irrefl _ (Nat.lt_of_lt_of_le (hearlier v hv) (hall v hv'))
        refine ⟨[], later, ?_, fun v hv => absurd hv List.not_mem_nil, hlater⟩
        rw [hnil, List.nil_append] at hws
        rw [List.filter_cons_of_pos (by simpa using heq), List.nil_append, List.cons_append, ← hws]
      · have hlater' : ∀ v ∈ w :: ws, f < v.stored.fence := by
          have hw : f < w.stored.fence := by
            refine Nat.lt_of_le_of_ne hle fun hvalue => heq ?_
            exact (congrArg Fence.mk hvalue).symm
          intro v hv
          rcases List.mem_cons.mp hv with rfl | hv
          · exact hw
          · exact Nat.lt_of_lt_of_le hw (hfirst v hv)
        refine ⟨[], w :: ws, ?_, fun v hv => absurd hv List.not_mem_nil, hlater'⟩
        rw [List.filter_eq_nil_iff.mpr fun v hv hf => ?_, List.nil_append, List.nil_append]
        have hlt' := hlater' v hv
        rw [of_decide_eq_true hf] at hlt'
        exact Nat.lt_irrefl _ hlt'

theorem work?_noted {i : Nat} {f : Fence} {ws : List Save} (h : c.work? id i = some (f, ws)) :
    ∃ n ∈ c.noted, n.saves = ws := by
  obtain ⟨x, hx, hwork⟩ := Option.bind_eq_some_iff.mp h
  have hmem : x.notes ∈ c.noted :=
    List.mem_append_right _ (List.mem_map_of_mem (List.mem_of_getElem? hx))
  obtain ⟨-, -, -, hsaves⟩ := Client.work?_some hwork
  exact ⟨x.notes, hmem, hsaves⟩

theorem Fencing.byFence (h : c.Fencing staleness id k m) : c.ByFence id where
  versions := h.ordered.versions id
  steps w hw := by
    have hmem : w ∈ c.under id w.stored.fence := List.mem_filter.mpr ⟨hw, decide_eq_true rfl⟩
    have hmade : ∃ n ∈ c.noted, n.saves = c.under id w.stored.fence := by
      rcases h.fenced.made w.stored.fence with hnil | ⟨e, he, hsaves⟩ | ⟨i, hi⟩
      · rw [hnil] at hmem
        cases hmem
      · exact ⟨e.notes, List.mem_append_left _ (List.mem_map_of_mem he), hsaves⟩
      · exact work?_noted hi
    obtain ⟨n, hn, hsaves⟩ := hmade
    obtain ⟨earlier, later, hall, hearlier, hlater⟩ :=
      segments (h.ordered.fences id) w.stored.fence
    refine ⟨n, hn, earlier, later, ?_, ?_, fun v hv => ?_, hearlier, hlater⟩
    · rw [hsaves]
      exact hall
    · rw [hsaves]
      exact hmem
    · rw [hsaves] at hv
      exact of_decide_eq_true (List.mem_filter.mp hv).2

/-- What is stored of a session is stored under a fence that was issued. -/
theorem Fencing.issued (h : c.Fencing staleness id k m) {r : StoredSession}
    (hr : m.find? id = some r) : r.fence ≤ (c.site.keyState id.text).lastFence := by
  rw [h.keeps.keyState]
  rcases h.ordered.written.stored hr with ⟨ws, w, hws, rfl⟩ | ⟨-, x, -, -, rfl⟩
  · exact h.fenced.bounded w (by rw [hws]; exact List.mem_append_right _ (List.mem_singleton_self w))
  · exact Nat.zero_le _

/-- Fences order the writes of a session. In every run of steps over one lease store and one
repository, which hold nothing at first: the fence that a session is stored under was issued for it,
and it never goes back; the saves under one fence are those of one step, and no other save comes
between them; and once a save was accepted, none is under an earlier fence. -/
theorem fences_order_writes (s : Site) (before after : List Act) (id : SessionId)
    (hserves : s.Serves id.text (before ++ after)) (hempty : s.Unwritten)
    (hrange : (s.crowd.run (before ++ after)).InRange) :
    let c := s.crowd.run before
    let d := c.run after
    ∃ m m', c.Written m ∧ d.Written m' ∧
      (∀ r, m.find? id = some r → r.fence ≤ (c.site.keyState id.text).lastFence ∧
        ∃ r', m'.find? id = some r' ∧ r.fence ≤ r'.fence) ∧
      d.ByFence id ∧
      ∃ new, d.savesOf id = c.savesOf id ++ new ∧
        ∀ v ∈ c.savesOf id, ∀ w ∈ new, v.stored.fence ≤ w.stored.fence := by
  intro c d
  obtain ⟨hkeeps, hfit⟩ := Serves.keeps hserves
  rw [fitting, along_append, Bool.and_eq_true] at hfit
  rw [run_append] at hrange
  have hrange' : d.InRange := hrange
  obtain ⟨k, m, hc⟩ := (fencing_crowd hkeeps hempty).run hfit.1 hrange'.begun
  obtain ⟨k', m', hd⟩ := hc.run hfit.2 hrange'
  obtain ⟨new, hnew⟩ := c.savesOf_run after id
  refine ⟨m, m', hc.ordered.written, hd.ordered.written, fun r hr => ⟨hc.issued hr, ?_⟩, hd.byFence,
    new, hnew.symm, fun v hv w hw => ?_⟩
  · exact hc.ordered.fences_run hd.ordered hr
  · have hfences := hd.ordered.fences id
    rw [← hnew] at hfences
    exact (List.pairwise_append.mp hfences).2.2 v hv w hw

set_option maxRecDepth 8192 in
/-- A step that saves the session as abandoned and then changes it, and one that is overtaken when it
has renewed its lease for the last time: its save under the earlier fence is refused. -/
theorem fences_order_writes_overtaken :
    let id := SessionId.fresh 1
    let step (event : SessionEvent) : Act := .steps { maxRetries := 0 }
      ⟨0, id, some (.transition event none), ⟨1000000000⟩⟩ []
    let before := [.create 3 [], step .start] ++ List.replicate 12 (.go 0) ++
      [.set ⟨400000000000000⟩, step .retry] ++ List.replicate 14 (.go 1) ++
      [step .start] ++ List.replicate 8 (.go 2)
    let after := [.set ⟨800000000000000⟩, step .start] ++ List.replicate 12 (.go 3) ++
      List.replicate 3 (.go 2)
    let c := Site.single.crowd.run before
    let d := c.run after
    (c.savesOf id).map (fun w => (w.client, w.stored.fence.value, w.version)) =
      [(0, 1, 2), (1, 2, 3), (1, 2, 4)] ∧
    (d.savesOf id).map (fun w => (w.client, w.stored.fence.value, w.version)) =
      [(0, 1, 2), (1, 2, 3), (1, 2, 4), (3, 4, 5)] ∧
    (c.site.keyState id.text).lastFence = ⟨3⟩ ∧ d.ByFence id := by
  intro id step before after c d
  obtain ⟨m, hrecorded⟩ := (Site.recorded_crowd (s := Site.single) rfl).run (before ++ after)
  obtain ⟨-, -, -, -, -, hfences, -⟩ := fences_order_writes Site.single before after id rfl rfl
    (inRange_memory hrecorded.1)
  exact ⟨by decide +kernel, by decide +kernel, by decide +kernel, hfences⟩

end FencedSessions.Crowd
