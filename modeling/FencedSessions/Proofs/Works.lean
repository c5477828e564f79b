import FencedSessions.Proofs.Grants
import FencedSessions.Proofs.Versions

/-! The work of the clients on one session: the fences that they hold for it and what they have saved
under them, and what an act does to it. -/

namespace FencedSessions

open Site

theorem Activity.call?_stepping {s : Site} {a : Activity} {r : StepRequest} {p : StepPhase}
    (h : a.stepping? = some (r, p)) : a.call? s = p.call? r s := by
  cases a with
  | series y q =>
    cases h
    rfl
  | _ => cases h

/-- What a step would change is the session that it found. -/
theorem Notes.Sound.before_id {client : Nat} {r : StepRequest} {threshold : Int} {n : Notes}
    (h : n.Sound client r threshold) {b : Session} (hb : n.before? = some b) :
    ∃ f, n.found = some f ∧ b.id = f.id := by
  unfold before? at hb
  split at hb
  · rename_i w hw
    cases hb
    obtain ⟨-, f, hf, -, hreplay⟩ := h.orphaned w hw
    exact ⟨f, hf, (Save.grows_replay? hreplay).id⟩
  · exact ⟨b, hb, rfl⟩

/-- What a step saves is the session that it found. -/
theorem StepPhase.save?_id {client : Nat} {r : StepRequest} {threshold : Int} {n : Notes} {s : Site}
    {p : StepPhase} {w : Save} (hs : (s.settings r.node).orchestrator.staleness = threshold)
    (h : p.Told client threshold r n) (hw : n.save? client r s p = some w) :
    ∃ f, n.found = some f ∧ w.id = f.id := by
  cases p with
  | savingOrphan lease o =>
    obtain ⟨f, hf, -, hreplay, -⟩ := save?_orphaned hs h hw
    exact ⟨f, hf, (Save.grows_replay? hreplay).id⟩
  | saving lease x d =>
    obtain ⟨b, hb, -, hreplay, -⟩ := save?_changed hs h hw
    obtain ⟨f, hf, hid⟩ := hb.sound.before_id hb.before
    exact ⟨f, hf, (Save.grows_replay? hreplay).id.trans hid⟩
  | _ => cases hw

namespace Client

/-- The session that a client has found is the one that its step asked for. -/
def Loaded (x : Client) : Prop := ∀ r p f, x.activity.stepping? = some (r, p) →
  x.notes.found = some f → f.id = r.id

theorem loaded_wake {x : Client} (h : x.Loaded) : Loaded { x with activity := x.activity.wake } := by
  intro r p f hs hf
  rw [Activity.stepping_wake] at hs
  obtain ⟨⟨r', p'⟩, hs', he⟩ := Option.map_eq_some_iff.mp hs
  cases he
  exact h r p' f hs' hf

/-- What a client is at work with on a session: the fence of the lease that it holds, and what it has
saved so far. -/
def work? (id : SessionId) (x : Client) : Option (Fence × List Save) :=
  match x.activity.stepping? with
  | some (r, p) => if r.id = id then p.held?.map fun l => (l.fence, x.notes.saves) else none
  | none => none

variable {id : SessionId} {x : Client}

theorem work?_idle (h : x.activity.stepping? = none) : x.work? id = none := by
  unfold work?
  rw [h]

theorem work?_stepping (id : SessionId) {r : StepRequest} {p : StepPhase}
    (h : x.activity.stepping? = some (r, p)) :
    x.work? id = if r.id = id then p.held?.map fun l => (l.fence, x.notes.saves) else none := by
  unfold work?
  rw [h]

theorem work?_some {f : Fence} {ws : List Save} (h : x.work? id = some (f, ws)) :
    ∃ r p, x.activity.stepping? = some (r, p) ∧ x.notes.saves = ws := by
  unfold work? at h
  split at h
  · rename_i r p hs
    split at h
    · obtain ⟨l, -, he⟩ := Option.map_eq_some_iff.mp h
      exact ⟨r, p, hs, congrArg Prod.snd he⟩
    · cases h
  · cases h

theorem work?_fresh {a : Activity} (h : a.Fresh) (n : Notes) : work? id ⟨a, n⟩ = none := by
  cases hs : a.stepping? with
  | none => exact work?_idle hs
  | some step =>
    obtain ⟨r, p⟩ := step
    rw [work?_stepping id hs, h r p hs]
    exact ite_self _

theorem work?_wake (x : Client) : work? id { x with activity := x.activity.wake } = x.work? id := by
  unfold work?
  rw [Activity.stepping_wake]
  cases x.activity.stepping? with
  | none => rfl
  | some step =>
    obtain ⟨r, p⟩ := step
    simp only [Option.map_some, p.held?_wake]

end Client

namespace Crowd

variable {c : Crowd} {id : SessionId} {staleness : Nat → Int} {m : MemoryRepository} {k : KeyState}

/-- A step loads the session that it asked for. -/
theorem loaded_next (hm : c.Written m) {i : Nat} {x : Client} (htold : x.Told staleness i)
    (h : x.Loaded) : (c.next i x).Loaded := by
  rcases c.next_cases i x with ⟨b, hs, -, he⟩ | ⟨r, p, b, hs, -, hb, he⟩ | ⟨-, -, -, b, -, -, -, he⟩
  · rw [he, (Client.told_idle hs).mp htold]
    intro r p f _ hf
    cases hf
  · intro r' p' f hs' hf
    rw [he] at hs' hf
    rw [hb] at hs'
    cases hs'
    rcases Notes.after_found x.notes i r c.site p with hfound | ⟨-, hanswer⟩
    · rw [hfound] at hf
      exact h r p f hs hf
    · rw [hf] at hanswer
      have hasked := Site.repo_asked c.site (.load r.id)
      have hfound := (hasked.holds_load hm.holds).2 _ hanswer
      obtain ⟨stored, hstored, rfl⟩ := Option.map_eq_some_iff.mp hfound.symm
      exact hm.keyed _ _ hstored
  · rw [he]
    intro r p f _ hf
    cases hf

theorem loaded_act (hm : c.Written m) (htold : c.Told staleness)
    (h : c.Each fun _ x => x.Loaded) (a : Act) : (c.act a).Each fun _ x => x.Loaded := by
  refine h.act a (fun _ _ hx => hx) ?_ (fun _ _ hx => Client.loaded_wake hx) ?_
  · intro i b _ r p f _ hf
    cases hf
  · intro i x _ hx
    exact loaded_next hm (htold.clients i x hx) (h i x hx)

/-- What the client numbered `i` is at work with on a session. -/
def work? (c : Crowd) (id : SessionId) (i : Nat) : Option (Fence × List Save) :=
  c.clients[i]?.bind (·.work? id)

theorem work?_client {i : Nat} {x : Client} (hx : c.clients[i]? = some x) : c.work? id i = x.work? id := by
  simp only [work?, hx, Option.bind_some]

/-- A client that has just come is at no work. -/
theorem work?_arrived {j : Nat} (h : c.clients[j]? = none) (a : Act) : (c.act a).work? id j = none := by
  have hbefore : c.Each fun i x => c.clients[i]? = some x := fun i x hx => hx
  have hafter : (c.act a).Each fun i x => c.clients[i]? = none → x.work? id = none := by
    refine hbefore.act a (fun i x hx hnone => ?_) (fun i b hb _ => Client.work?_fresh hb _)
      (fun i x hx hnone => (Client.work?_wake x).trans (hx hnone)) (fun i x _ hx hnone => ?_)
    · rw [hnone] at hx
      cases hx
    · rw [hnone] at hx
      cases hx
  cases hy : (c.act a).clients[j]? with
  | none => simp only [work?, hy, Option.bind_none]
  | some y => exact (work?_client hy).trans (hafter j y hy h)

/-- What becomes of a client's work in an act. -/
theorem work?_act (c : Crowd) (a : Act) (id : SessionId) (j : Nat) :
    (∃ x, c.clients[j]? = some x ∧ (a = .go j ∧ (c.act a).work? id j = (c.next j x).work? id ∨
      a = .leave j ∧ (c.act a).work? id j = none)) ∨ (c.act a).work? id j = c.work? id j := by
  cases hx : c.clients[j]? with
  | none =>
    right
    rw [work?_arrived hx]
    simp only [work?, hx, Option.bind_none]
  | some x =>
    obtain ⟨y, hy, hview⟩ := view_next (f := Client.work? id) Client.work?_wake hx a
    rw [work?_client hy, work?_client hx]
    rcases hview with ⟨hact, hview⟩ | ⟨hact, hview⟩ | ⟨-, -, hview⟩
    · exact Or.inl ⟨x, rfl, Or.inl ⟨hact, hview⟩⟩
    · exact Or.inl ⟨x, rfl, Or.inr ⟨hact, hview.trans (Client.work?_idle rfl)⟩⟩
    · exact Or.inr hview

/-- The work of a client changes only when it goes on or is dropped. -/
theorem work?_other {a : Act} {j : Nat} (hgo : a ≠ .go j) (hleave : a ≠ .leave j) :
    (c.act a).work? id j = c.work? id j := by
  rcases c.work?_act a id j with ⟨-, -, ⟨hact, -⟩ | ⟨hact, -⟩⟩ | hsame
  · exact absurd hact hgo
  · exact absurd hact hleave
  · exact hsame

/-- From one crowd to the next, the work of one client on a session becomes `work`, and it saves
`ws`. -/
structure Turn (c c' : Crowd) (id : SessionId) (i : Nat) (work : Option (Fence × List Save))
    (ws : List Save) : Prop where
  saves : c'.savesOf id = c.savesOf id ++ ws
  self : c'.work? id i = work
  others : ∀ j ≠ i, c'.work? id j = c.work? id j

/-- What happens to the work on a session in an act: nothing; or one client is granted a lease, makes
saves under the one that it holds, or is done with it. -/
inductive Works (c c' : Crowd) (id : SessionId) (last last' : Fence) : Prop where
  | idle {i : Nat} (turn : c.Turn c' id i (c.work? id i) [])
  | granted {i : Nat} (turn : c.Turn c' id i (some (last', [])) []) (before : c.work? id i = none)
    (later : last < last')
  | goes {i : Nat} {f : Fence} {vs ws : List Save} (turn : c.Turn c' id i (some (f, vs ++ ws)) ws)
    (before : c.work? id i = some (f, vs)) (fence : ∀ w ∈ ws, w.stored.fence = f)
  | ends {i : Nat} {f : Fence} {vs ws : List Save} (turn : c.Turn c' id i none ws)
    (before : c.work? id i = some (f, vs)) (fence : ∀ w ∈ ws, w.stored.fence = f)
    (ended : ∃ e ∈ c'.endings, e.notes.saves = vs ++ ws)

section Go

variable {i : Nat} {x : Client} (hx : c.clients[i]? = some x)
include hx

theorem go_turn (id : SessionId) : c.Turn (c.act (.go i)) id i ((c.next i x).work? id)
    ((c.saving i x).filter (·.id = id)) where
  saves := by
    unfold savesOf
    rw [show (c.act (.go i)).saves = _ from (c.go_logs hx).1, List.filter_append]
  self := by
    obtain ⟨y, hy, hview⟩ := view_next (f := Client.work? id) Client.work?_wake hx (.go i)
    rw [work?_client hy]
    rcases hview with ⟨-, hview⟩ | ⟨hact, -⟩ | ⟨hact, -⟩
    · exact hview
    · cases hact
    · exact absurd rfl hact
  others j hj := work?_other (fun hact => hj (Act.go.inj hact).symm) fun hact => by cases hact

variable {r : StepRequest} {p : StepPhase} (hs : x.activity.stepping? = some (r, p))
include hs

/-- What a step on a session saves is the session; what another one saves is not. -/
theorem saving_of (id : SessionId) (htold : c.Told staleness) (hloaded : x.Loaded) :
    (c.saving i x).filter (·.id = id) = if r.id = id then c.saving i x else [] := by
  have hid : ∀ w ∈ c.saving i x, w.id = r.id := by
    intro w hw
    simp only [saving, hs, Option.mem_toList] at hw
    obtain ⟨f, hf, hid⟩ := StepPhase.save?_id (htold.settings r.node)
      ((Client.told_stepping hs).mp (htold.clients i x hx)) hw
    exact hid.trans (hloaded r p f hs hf)
  split
  · rename_i hr
    exact List.filter_eq_self.mpr fun w hw => decide_eq_true ((hid w hw).trans hr)
  · rename_i hr
    refine List.filter_eq_nil_iff.mpr fun w hw hw' => hr ?_
    rw [← hid w hw]
    exact of_decide_eq_true hw'

omit hx in
theorem saving_held {w : Save} (hw : w ∈ c.saving i x) :
    ∃ l, p.held? = some l ∧ w.stored.fence = l.fence := by
  simp only [saving, hs, Option.mem_toList] at hw
  exact StepPhase.save?_held hw

omit hx in
theorem saving_unheld (h : p.held? = none) : c.saving i x = [] := by
  refine List.eq_nil_iff_forall_not_mem.mpr fun w hw => ?_
  obtain ⟨l, hl, -⟩ := saving_held hs hw
  rw [h] at hl
  cases hl

/-- A step that goes on holds its lease still, or it may have come by one. -/
theorem going_works (hkeeps : c.site.Keeps r.id.text k)
    (hfit : c.site.fits r.id.text (c.call? (.go i))) (htold : x.Told staleness i)
    (hon : (p.step r c.site).1.result? = none) {y : Client}
    (hy : y.activity.stepping? = some (r, (p.step r c.site).1))
    (hnotes : y.notes = x.notes.after i r c.site p)
    (hturn : c.Turn (c.act (.go i)) r.id i (y.work? r.id) (c.saving i x)) :
    c.Works (c.act (.go i)) r.id k.lastFence
      ((c.act (.go i)).site.keyState r.id.text).lastFence := by
  have hwork := (work?_client hx).trans (Client.work?_stepping r.id hs)
  have hwork' := Client.work?_stepping r.id hy
  rw [if_pos rfl] at hwork hwork'
  rw [hwork'] at hturn
  have hsaved : y.notes.saves = x.notes.saves ++ c.saving i x := by
    rw [hnotes]
    simp only [Notes.after_saves, saving, hs]
  cases hheld : p.held? with
  | some l =>
    rw [hheld] at hwork
    rw [StepPhase.step_held hheld hon, Option.map_some, hsaved] at hturn
    refine .goes hturn hwork fun w hw => ?_
    obtain ⟨l', hl', hf⟩ := saving_held hs hw
    rw [hheld] at hl'
    cases hl'
    exact hf
  | none =>
    have hnil := saving_unheld (c := c) (i := i) hs hheld
    rw [hheld] at hwork
    rw [hnil] at hturn hsaved
    cases hheld' : (p.step r c.site).1.held? with
    | none =>
      rw [hheld', Option.map_none] at hturn
      exact .idle (by rw [hwork]; exact hturn)
    | some l =>
      have hcall : c.call? (.go i) = p.call? r c.site := by
        simp only [call?, hx, Option.bind_some]
        exact Activity.call?_stepping hs
      rw [hcall] at hfit
      obtain ⟨hlater, hlast⟩ := StepPhase.granted_held hheld hheld' hkeeps hfit
      have hsite : (c.act (.go i)).site = (p.step r c.site).2.1 :=
        (c.go_site hx).trans (Activity.step_stepping hs)
      have hnew := StepPhase.told_unheld ((Client.told_stepping hs).mp htold) hheld hon
      rw [hheld', Option.map_some, hsaved, hnew, ← hlast, ← hsite] at hturn
      refine .granted hturn hwork ?_
      rw [hsite, hlast, hlater]
      exact k.lastFence.lt_next

/-- A step that comes to its end is done with its lease. -/
theorem ending_works {result : Except Stop Outcome} (hover : (p.step r c.site).1.result? = some result)
    (hturn : c.Turn (c.act (.go i)) r.id i none (c.saving i x)) {last last' : Fence} :
    c.Works (c.act (.go i)) r.id last last' := by
  have hwork := (work?_client hx).trans (Client.work?_stepping r.id hs)
  rw [if_pos rfl] at hwork
  cases hheld : p.held? with
  | none =>
    rw [saving_unheld (c := c) (i := i) hs hheld] at hturn
    rw [hheld, Option.map_none] at hwork
    exact .idle (by rw [hwork]; exact hturn)
  | some l =>
    rw [hheld, Option.map_some] at hwork
    refine .ends hturn hwork (fun w hw => ?_) ?_
    · obtain ⟨l', hl', hf⟩ := saving_held hs hw
      rw [hheld] at hl'
      cases hl'
      exact hf
    · refine ⟨⟨i, r, result.toOption, x.notes.after i r c.site p⟩, ?_, ?_⟩
      · rw [show (c.act (.go i)).endings = _ from (c.go_logs hx).2.1]
        refine List.mem_append_right _ ?_
        simp only [ending, hs, hover, List.mem_singleton]
      · simp only [Notes.after_saves, saving, hs]

end Go

/-- What a client that goes on does to the work on a session. -/
theorem go_works {i : Nat} (hkeeps : c.site.Keeps id.text k)
    (hfit : c.site.fits id.text (c.call? (.go i))) (htold : c.Told staleness) {x : Client}
    (hx : c.clients[i]? = some x) (hloaded : x.Loaded) :
    c.Works (c.act (.go i)) id k.lastFence ((c.act (.go i)).site.keyState id.text).lastFence := by
  have hturn := go_turn hx id
  have hidle (hbefore : x.work? id = none) (hafter : (c.next i x).work? id = none)
      (hnone : (c.saving i x).filter (·.id = id) = []) {last last' : Fence} :
      c.Works (c.act (.go i)) id last last' := by
    rw [hafter, ← hbefore, ← work?_client hx, hnone] at hturn
    exact .idle hturn
  rcases c.next_cases i x with
    ⟨b, hs, hb, he⟩ | ⟨r, p, b, hs, hon, hb, he⟩ | ⟨r, p, result, b, hs, hover, hb, he⟩
  · refine hidle (Client.work?_idle hs) (by rw [he]; exact Client.work?_fresh hb _) ?_
    simp only [saving, hs, List.filter_nil]
  · have hof := saving_of hx hs id htold hloaded
    by_cases hr : r.id = id
    · subst hr
      rw [hof, if_pos rfl, he] at hturn
      exact going_works hx hs hkeeps hfit (htold.clients i x hx) hon hb rfl hturn
    · have hbefore := Client.work?_stepping id hs
      have hafter := Client.work?_stepping (x := c.next i x) id (by rw [he]; exact hb)
      rw [if_neg hr] at hof hbefore hafter
      exact hidle hbefore hafter hof
  · have hof := saving_of hx hs id htold hloaded
    have hafter : (c.next i x).work? id = none := by
      rw [he]
      exact Client.work?_fresh hb _
    by_cases hr : r.id = id
    · subst hr
      rw [hof, if_pos rfl, hafter] at hturn
      exact ending_works hx hs hover hturn
    · have hbefore := Client.work?_stepping id hs
      rw [if_neg hr] at hof hbefore
      exact hidle hbefore hafter hof

/-- A client that is dropped is done with its lease. -/
theorem leave_works {i : Nat} {x : Client} (hx : c.clients[i]? = some x) {last last' : Fence} :
    c.Works (c.act (.leave i)) id last last' := by
  obtain ⟨hsaves, hendings, -⟩ := c.leave_logs hx
  obtain ⟨y, hy, hview⟩ := view_next (f := Client.work? id) Client.work?_wake hx (.leave i)
  have hturn : c.Turn (c.act (.leave i)) id i none [] := by
    refine ⟨?_, ?_, fun j hj => ?_⟩
    · unfold savesOf
      rw [show (c.act (.leave i)).saves = _ from hsaves, List.append_nil]
    · rw [work?_client hy]
      rcases hview with ⟨hact, -⟩ | ⟨-, hview⟩ | ⟨-, hact, -⟩
      · cases hact
      · exact hview.trans (Client.work?_idle rfl)
      · exact absurd rfl hact
    · exact work?_other (fun hact => by cases hact) fun hact => hj (Act.leave.inj hact).symm
  cases hwork : x.work? id with
  | none => exact .idle (by rw [work?_client hx, hwork]; exact hturn)
  | some work =>
    obtain ⟨f, vs⟩ := work
    refine .ends hturn ((work?_client hx).trans hwork) (fun w hw => absurd hw List.not_mem_nil) ?_
    obtain ⟨r, p, hs, hsaves⟩ := Client.work?_some hwork
    refine ⟨⟨i, r, none, x.notes⟩, ?_, ?_⟩
    · rw [show (c.act (.leave i)).endings = _ from hendings]
      refine List.mem_append_right _ ?_
      simp only [dropping, hs, List.mem_singleton]
    · rw [List.append_nil]
      exact hsaves

/-- What an act does to the work on a session. -/
theorem act_works (hkeeps : c.site.Keeps id.text k) (a : Act)
    (hfit : c.site.fits id.text (c.call? a)) (htold : c.Told staleness)
    (hloaded : c.Each fun _ x => x.Loaded) :
    c.Works (c.act a) id k.lastFence ((c.act a).site.keyState id.text).lastFence := by
  by_cases hgo : ∃ i x, c.clients[i]? = some x ∧ a = .go i
  · obtain ⟨i, x, hx, rfl⟩ := hgo
    exact go_works hkeeps hfit htold hx (hloaded i x hx)
  · by_cases hleave : ∃ i x, c.clients[i]? = some x ∧ a = .leave i
    · obtain ⟨i, x, hx, rfl⟩ := hleave
      exact leave_works hx
    · -- nobody's step goes on
      have hsame (j : Nat) : (c.act a).work? id j = c.work? id j := by
        rcases c.work?_act a id j with ⟨x, hx, ⟨hact, -⟩ | ⟨hact, -⟩⟩ | hsame
        · exact absurd ⟨j, x, hx, hact⟩ hgo
        · exact absurd ⟨j, x, hx, hact⟩ hleave
        · exact hsame
      have hwriting : c.writing a = [] := by
        unfold writing
        split
        · rename_i i
          split
          · rename_i x hx
            exact absurd ⟨i, x, hx, rfl⟩ hgo
          · rfl
        · rfl
      refine .idle (i := 0) ⟨?_, hsame 0, fun j _ => hsame j⟩
      rw [savesOf_act, hwriting, List.filter_nil]

end Crowd

end FencedSessions
