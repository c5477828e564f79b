import FencedSessions.Proofs.Crowd
import FencedSessions.Proofs.Phases
import FencedSessions.Proofs.Records

/-! What an act does to the site of a crowd: the effect of one call, of the one that the client is
about to make. -/

namespace FencedSessions

open Site

namespace Site

/-- The session that a site stores when it is asked for a new one. -/
def draft (s : Site) (priority : Nat) (metadata : List (String × Json)) : Session :=
  { Session.create (SessionId.fresh (s.created + 1)) priority s.now with metadata }

theorem createSession_eq (s : Site) (priority : Nat) (metadata : List (String × Json)) :
    s.createSession priority metadata =
      match s.repo (.create (s.draft priority metadata)) with
      | (.error e, t) => (.error e, t)
      | (.ok version, t) => (.ok { s.draft priority metadata with version },
        { t with created := t.created + 1 }.emit (.created (s.draft priority metadata).id s.now)) := by
  unfold createSession draft
  dsimp only
  -- the id is no matter here, and long to compute
  generalize SessionId.fresh (s.created + 1) = id
  generalize s.repo _ = asked
  obtain ⟨_ | _, t⟩ := asked <;> rfl

theorem createSession_asked (s : Site) (priority : Nat) (metadata : List (String × Json)) :
    Alike (s.repo (.create (s.draft priority metadata))).2 (s.createSession priority metadata).2 := by
  rw [createSession_eq]
  generalize s.repo (.create (s.draft priority metadata)) = asked
  obtain ⟨_ | _, t⟩ := asked <;> exact ⟨rfl, rfl, rfl, fun _ => rfl⟩

end Site

namespace Activity

/-- The call to the lease store that a client makes next, and the key it is about. -/
def call? (s : Site) : Activity → Option (String × LeaseOp)
  | .acquire r p _ => (p.call? r).map fun op => (r.key, op)
  | .series x p => p.call? x.current s
  | .revoke key ticket => some (key, .remove ticket)
  | .pause .. | .sleep _ | .join _ | .ended => none

variable (s : Site)

theorem acquire_site (r : AcquireRequest) (p : AcquirePhase) (keep : Option String) :
    ((acquire r p keep).step s).2.2.1 = (p.step r s).2.1 := by
  simp only [step]
  split <;> rfl

theorem series_site (x : Series) (p : StepPhase) :
    ((series x p).step s).2.2.1 = (p.step x.current s).2.1 := by
  simp only [step]
  split <;> rfl

theorem step_called {a : Activity} {key : String} {op : LeaseOp} (h : a.call? s = some (key, op)) :
    ∃ answer t, Called s key op answer t ∧ Emitted t (a.step s).2.2.1 := by
  cases a with
  | acquire r p keep =>
    obtain ⟨op', hop, he⟩ := Option.map_eq_some_iff.mp h
    cases he
    have hc := p.step_called r s
    rw [hop] at hc
    obtain ⟨answer, hc⟩ := hc
    exact ⟨answer, _, hc, Or.inl (acquire_site s r p keep)⟩
  | series x p =>
    obtain ⟨answer, t, hc, he⟩ := p.step_called x.current s h
    rw [series_site]
    exact ⟨answer, t, hc, he⟩
  | revoke key' ticket =>
    cases h
    exact ⟨_, _, lease_called .., Or.inl rfl⟩
  | pause x due => cases h
  | sleep due => cases h
  | join task => cases h
  | ended => cases h

/-- A client that is not about to call the lease store calls the repository or nothing. -/
theorem step_uncalled {a : Activity} (h : a.call? s = none) :
    Emitted s (a.step s).2.2.1 ∨ ∃ op, Emitted (s.repo op).2 (a.step s).2.2.1 := by
  cases a with
  | acquire r p keep =>
    have hc := p.step_called r s
    rw [Option.map_eq_none_iff.mp h] at hc
    rw [acquire_site]
    exact Or.inl (Or.inl hc)
  | series x p =>
    rw [series_site]
    cases ha : p.ask? x.current with
    | none => exact Or.inl (p.step_silent x.current s h ha)
    | some op => exact Or.inr ⟨op, p.step_asked x.current s ha⟩
  | revoke key' ticket => cases h
  | pause x due => exact Or.inl (Or.inl rfl)
  | sleep due => exact Or.inl (Or.inl rfl)
  | join task => exact Or.inl (Or.inl rfl)
  | ended => exact Or.inl (Or.inl rfl)

/-- An activity that is not in the middle of a step. -/
def Fresh (a : Activity) : Prop := ∀ r p, a.stepping? = some (r, p) → p = .initial

theorem fresh_of_idle {a : Activity} (h : a.stepping? = none) : a.Fresh := by
  intro r p hp
  rw [h] at hp
  cases hp

theorem fresh_ofSteps (policy : RetryPolicy) (r : StepRequest) (rest : List StepRequest) :
    (ofSteps policy r rest).Fresh := by
  intro r' p hp
  cases hp
  rfl

theorem fresh_afterStep (x : Series) (timer : Nat) (o : Outcome) : (afterStep x timer o).1.Fresh := by
  unfold afterStep
  split
  · exact fresh_of_idle rfl
  · dsimp only
    split
    · exact fresh_of_idle rfl
    · intro r p hp
      cases hp
      rfl

theorem stepping_wake {a : Activity} : a.wake.stepping? = a.stepping?.map fun (r, p) => (r, p.wake) := by
  cases a <;> rfl

end Activity

namespace Crowd

/-- The call to the lease store that an act makes, and the key it is about. -/
def call? (c : Crowd) : Act → Option (String × LeaseOp)
  | .go i => (c.clients[i]?).bind fun x => x.activity.call? c.site
  | .renew _ key fence extension => some (key, .extend fence extension)
  | .release _ key fence => some (key, .delete fence)
  | .check _ key _ => some (key, .get)
  | .acquire _ | .steps .. | .leave _ | .create .. | .set _ | .tick _ | .disturb _ => none

theorem foldl_effect_site (fx : List Effect) (c : Crowd) : (fx.foldl effect c).site = c.site := by
  induction fx generalizing c with
  | nil => rfl
  | cons e fx ih =>
    rw [List.foldl_cons, ih]
    cases e <;> rfl

variable (c : Crowd)

/-- Nothing comes of a client that never came. -/
theorem go_absent {i : Nat} (h : c.clients[i]? = none) : c.go i = c := by
  simp only [go, h]

theorem leave_absent {i : Nat} (h : c.clients[i]? = none) : c.leave i = c := by
  simp only [leave, h]

theorem go_site {i : Nat} {x : Client} (h : c.clients[i]? = some x) :
    (c.go i).site = (x.activity.step c.site).2.2.1 := by
  simp only [go, h, foldl_effect_site]

theorem leave_site (i : Nat) : (c.leave i).site = c.site := by
  simp only [leave]
  split
  · rfl
  · rw [foldl_effect_site]; rfl

theorem act_called {a : Act} {key : String} {op : LeaseOp} (h : c.call? a = some (key, op)) :
    ∃ answer t, Called c.site key op answer t ∧ Emitted t (c.act a).site := by
  cases a with
  | go i =>
    obtain ⟨x, hx, hcall⟩ := Option.bind_eq_some_iff.mp h
    change ∃ answer t, Called c.site key op answer t ∧ Emitted t (c.go i).site
    rw [c.go_site hx]
    exact x.activity.step_called c.site hcall
  | renew node key' fence extension =>
    cases h
    refine ⟨_, _, guarded_called c.site node key (.extend fence extension), Or.inl ?_⟩
    exact renew_site ..
  | release node key' fence =>
    cases h
    refine ⟨_, _, unguarded_called c.site node key (.delete fence), Or.inl ?_⟩
    rw [← release_site]
    exact foldl_effect_site ..
  | check node key' fence =>
    cases h
    refine ⟨_, _, guarded_called c.site node key .get, Or.inl ?_⟩
    exact check_site ..
  | acquire r => cases h
  | steps policy first rest => cases h
  | leave i => cases h
  | create priority metadata => cases h
  | set t => cases h
  | tick ms => cases h
  | disturb plan => cases h

/-- An act that does not call the lease store calls the repository or nothing. -/
theorem act_uncalled {a : Act} (h : c.call? a = none) :
    Alike c.site (c.act a).site ∨ ∃ op, Alike (c.site.repo op).2 (c.act a).site := by
  cases a with
  | go i =>
    change Alike c.site (c.go i).site ∨ ∃ op, Alike (c.site.repo op).2 (c.go i).site
    cases hx : c.clients[i]? with
    | none =>
      rw [c.go_absent hx]
      exact Or.inl (Alike.refl _)
    | some x =>
      rw [c.go_site hx]
      simp only [call?, hx, Option.bind_some] at h
      rcases x.activity.step_uncalled c.site h with he | ⟨op, he⟩
      · exact Or.inl he.alike
      · exact Or.inr ⟨op, he.alike⟩
  | create priority metadata => exact Or.inr ⟨_, createSession_asked c.site priority metadata⟩
  | leave i =>
    change Alike c.site (c.leave i).site ∨ _
    rw [leave_site]
    exact Or.inl (Alike.refl _)
  | acquire r => exact Or.inl (Alike.refl _)
  | steps policy first rest => exact Or.inl (Alike.refl _)
  | set t => exact Or.inl ⟨rfl, rfl, rfl, fun _ => rfl⟩
  | tick ms => exact Or.inl ⟨rfl, rfl, rfl, fun _ => rfl⟩
  | disturb plan => exact Or.inl ⟨rfl, rfl, rfl, fun _ => rfl⟩
  | renew node key fence extension => cases h
  | release node key fence => cases h
  | check node key fence => cases h

/-- The settings of the nodes never change. -/
theorem act_settings (a : Act) (n : Nat) : (c.act a).site.settings n = c.site.settings n := by
  cases hcall : c.call? a with
  | some call =>
    obtain ⟨answer, t, hc, he⟩ := c.act_called hcall
    exact (he.alike.settings n).trans (hc.frame.settings n)
  | none =>
    rcases c.act_uncalled hcall with h | ⟨op, h⟩
    · exact h.settings n
    · exact (h.settings n).trans ((repo_asked c.site op).frame.settings n)

/-- What a client is after its next step: it goes on with the step that it is at, or it is between
two steps. -/
theorem next_cases (i : Nat) (x : Client) :
    (∃ b : Activity, x.activity.stepping? = none ∧ b.Fresh ∧ c.next i x = ⟨b, x.notes⟩) ∨
    (∃ r p b, x.activity.stepping? = some (r, p) ∧ (p.step r c.site).1.result? = none ∧
      b.stepping? = some (r, (p.step r c.site).1) ∧
      c.next i x = ⟨b, x.notes.after i r c.site p⟩) ∨
    (∃ r p result b, x.activity.stepping? = some (r, p) ∧
      (p.step r c.site).1.result? = some result ∧ b.Fresh ∧ c.next i x = ⟨b, {}⟩) := by
  obtain ⟨a, n⟩ := x
  cases a with
  | series x p =>
    right
    simp only [next, Activity.stepping?, Activity.step]
    generalize hstep : p.step x.current c.site = stepped
    obtain ⟨p', t, fx⟩ := stepped
    dsimp only
    cases hr : p'.result? with
    | none => exact Or.inl ⟨x.current, p, .series x p', rfl, by rw [hstep]; exact hr, by rw [hstep],
        rfl⟩
    | some result =>
      refine Or.inr ⟨x.current, p, result, _, rfl, by rw [hstep]; exact hr, ?_, rfl⟩
      cases result with
      | error e => exact Activity.fresh_of_idle rfl
      | ok o => exact Activity.fresh_afterStep x t.timer o
  | acquire r p keep =>
    refine Or.inl ⟨_, rfl, ?_, rfl⟩
    simp only [Activity.step]
    split <;> exact Activity.fresh_of_idle rfl
  | pause x due =>
    refine Or.inl ⟨_, rfl, ?_, rfl⟩
    intro r p hp
    cases hp
    rfl
  | sleep due => exact Or.inl ⟨_, rfl, Activity.fresh_of_idle rfl, rfl⟩
  | revoke key ticket => exact Or.inl ⟨_, rfl, Activity.fresh_of_idle rfl, rfl⟩
  | join task => exact Or.inl ⟨_, rfl, Activity.fresh_of_idle rfl, rfl⟩
  | ended => exact Or.inl ⟨_, rfl, Activity.fresh_of_idle rfl, rfl⟩

/-- Something holds of every client, by its number. -/
def Each (c : Crowd) (P : Nat → Client → Prop) : Prop := ∀ i x, c.clients[i]? = some x → P i x

section Each

variable {c : Crowd} {P Q : Nat → Client → Prop}

theorem Each.enter (h : c.Each Q) {a : Activity} (new : ∀ i, Q i ⟨a, {}⟩) : (c.enter a).Each Q := by
  intro i x hx
  change (c.clients ++ [_])[i]? = some x at hx
  rw [List.getElem?_append] at hx
  split at hx
  · exact h i x hx
  · rw [List.getElem?_singleton] at hx
    split at hx
    · cases hx
      exact new i
    · cases hx

theorem Each.set (h : c.Each Q) {i : Nat} {x : Client} (hx : Q i x) : (c.setClient i x).Each Q := by
  intro j y hy
  change (c.clients.set i x)[j]? = some y at hy
  by_cases hj : i = j
  · subst hj
    rw [List.getElem?_set_self'] at hy
    obtain ⟨_, -, rfl⟩ := Option.map_eq_some_iff.mp hy
    exact hx
  · rw [List.getElem?_set_ne hj] at hy
    exact h j y hy

theorem Each.effects (h : c.Each Q) (new : ∀ i b, Activity.Fresh b → Q i ⟨b, {}⟩)
    (wake : ∀ i x, Q i x → Q i { x with activity := x.activity.wake }) (fx : List Effect) :
    (fx.foldl effect c).Each Q := by
  induction fx generalizing c with
  | nil => exact h
  | cons e fx ih =>
    refine ih ?_
    cases e with
    | revoke key ticket => exact h.enter fun i => new i _ (Activity.fresh_of_idle rfl)
    | wake node key =>
      intro i x hx
      obtain ⟨y, hy, rfl⟩ := List.getElem?_map.symm.trans hx |> Option.map_eq_some_iff.mp
      split
      · exact wake i y (h i y hy)
      · exact h i y hy

/-- What an act does to the clients: some come, some are woken, some end, and one may go on. -/
theorem Each.act (h : c.Each P) (a : Act) (keep : ∀ i x, P i x → Q i x)
    (new : ∀ i b, Activity.Fresh b → Q i ⟨b, {}⟩)
    (wake : ∀ i x, Q i x → Q i { x with activity := x.activity.wake })
    (step : ∀ i x, a = .go i → c.clients[i]? = some x → Q i (c.next i x)) :
    (c.act a).Each Q := by
  have hkept : c.Each Q := fun i x hx => keep i x (h i x hx)
  cases a with
  | acquire r => exact hkept.enter fun i => new i _ (Activity.fresh_of_idle rfl)
  | steps policy first rest =>
    exact hkept.enter fun i => new i _ (Activity.fresh_ofSteps policy first rest)
  | go i =>
    change (c.go i).Each Q
    unfold go
    split
    · exact hkept
    · rename_i x hx
      refine Each.effects ?_ new wake _
      exact hkept.set (step i x rfl hx)
  | leave i =>
    change (c.leave i).Each Q
    unfold leave
    split
    · exact hkept
    · refine Each.effects ?_ new wake _
      exact hkept.set (new i .ended (Activity.fresh_of_idle rfl))
  | release node key fence =>
    exact Each.effects (c := { c with site := (c.site.release node key fence).2.1 }) hkept new wake
      (c.site.release node key fence).2.2
  | create priority metadata => exact hkept
  | renew node key fence extension => exact hkept
  | check node key fence => exact hkept
  | set t => exact hkept
  | tick ms => exact hkept
  | disturb plan => exact hkept

end Each

end Crowd

end FencedSessions
