import FencedSessions.Proofs.Standing

/-! What an act may do to the clients of a crowd, and what `Moves` makes of it for the queues: one
client shifts, a task may start that removes its ticket, and nobody else's standing changes. -/

namespace FencedSessions

open Site

namespace Crowd

variable {c : Crowd}

theorem next_activity (i : Nat) (x : Client) :
    (c.next i x).activity = (x.activity.step c.site).1 := by
  simp only [next]
  split
  · rfl
  · split <;> rfl

theorem act_go {i : Nat} {x : Client} (hx : c.clients[i]? = some x) :
    c.act (.go i) = (x.activity.step c.site).2.2.2.foldl effect
      { c.setClient i (c.next i x) with
        site := (x.activity.step c.site).2.2.1
        saves := c.saves ++ c.saving i x
        endings := c.endings ++ c.ending i x } := by
  simp only [act, go, hx]

theorem act_leave {i : Nat} {x : Client} (hx : c.clients[i]? = some x) :
    c.act (.leave i) = (x.activity.dropped c.site).foldl effect
      { c.setClient i ⟨.ended, {}⟩ with endings := c.endings ++ dropping i x } := by
  simp only [act, leave, hx]

section View

/-! A client as far as waking it tells no difference. -/

variable {β : Type} {P : Client → Prop} {f : Client → β} {j : Nat} {x : Client}

theorem kept_enter (hx : c.clients[j]? = some x) (a : Activity) : (c.enter a).clients[j]? = some x := by
  obtain ⟨hj, -⟩ := List.getElem?_eq_some_iff.mp hx
  exact (List.getElem?_append_left hj).trans hx

theorem kept_effects (hwake : ∀ x : Client, P x → P { x with activity := x.activity.wake })
    (hx : c.clients[j]? = some x) (h : P x) (fx : List Effect) :
    ∃ y, (fx.foldl effect c).clients[j]? = some y ∧ P y := by
  induction fx generalizing c x with
  | nil => exact ⟨x, hx, h⟩
  | cons e fx ih =>
    rw [List.foldl_cons]
    cases e with
    | revoke key n => exact ih (kept_enter hx _) h
    | wake node key =>
      have hwoken : (c.effect (.wake node key)).clients[j]? = some
          (if x.activity.waitsOn c.site node key then { x with activity := x.activity.wake } else x) := by
        simp only [effect, List.getElem?_map, hx, Option.map_some]
      refine ih hwoken ?_
      split
      · exact hwake x h
      · exact h

theorem kept_client (hwake : ∀ x : Client, P x → P { x with activity := x.activity.wake })
    (hx : c.clients[j]? = some x) {a : Act} {i : Nat} {z : Client} {c' : Crowd} {fx : List Effect}
    (ha : c.act a = fx.foldl effect c') (hc' : c'.clients = c.clients.set i z)
    (h : P (if i = j then z else x)) : ∃ y, (c.act a).clients[j]? = some y ∧ P y := by
  obtain ⟨hj, -⟩ := List.getElem?_eq_some_iff.mp hx
  rw [ha]
  refine kept_effects hwake ?_ h fx
  rw [hc']
  by_cases hi : i = j
  · rw [if_pos hi, hi, List.getElem?_set_self hj]
  · rw [if_neg hi, List.getElem?_set_ne hi, hx]

/-- What holds of a client after an act: it has gone on, it was dropped, or it is as it was. -/
theorem kept_act (hwake : ∀ x : Client, P x → P { x with activity := x.activity.wake })
    (hx : c.clients[j]? = some x) {a : Act} (hgo : a = .go j → P (c.next j x))
    (hleave : a = .leave j → P ⟨.ended, {}⟩) (hother : a ≠ .go j → a ≠ .leave j → P x) :
    ∃ y, (c.act a).clients[j]? = some y ∧ P y := by
  cases a with
  | go i =>
    cases hz : c.clients[i]? with
    | none =>
      have hne : Act.go i ≠ .go j := by
        rintro he
        cases he
        rw [hx] at hz
        cases hz
      rw [show c.act (.go i) = c from c.go_absent hz]
      exact ⟨x, hx, hother hne nofun⟩
    | some z =>
      refine kept_client hwake hx (act_go hz) rfl ?_
      by_cases hi : i = j
      · subst hi
        rw [hx] at hz
        cases hz
        rw [if_pos rfl]
        exact hgo rfl
      · rw [if_neg hi]
        exact hother (fun he => hi (Act.go.inj he)) nofun
  | leave i =>
    cases hz : c.clients[i]? with
    | none =>
      have hne : Act.leave i ≠ .leave j := by
        rintro he
        cases he
        rw [hx] at hz
        cases hz
      rw [show c.act (.leave i) = c from c.leave_absent hz]
      exact ⟨x, hx, hother nofun hne⟩
    | some z =>
      refine kept_client hwake hx (act_leave hz) rfl ?_
      by_cases hi : i = j
      · subst hi
        rw [if_pos rfl]
        exact hleave rfl
      · rw [if_neg hi]
        exact hother nofun fun he => hi (Act.leave.inj he)
  | acquire r => exact ⟨x, kept_enter hx _, hother nofun nofun⟩
  | steps policy first rest => exact ⟨x, kept_enter hx _, hother nofun nofun⟩
  | release node key fence =>
    exact kept_effects (c := { c with site := (c.site.release node key fence).2.1 }) hwake hx
      (hother nofun nofun) (c.site.release node key fence).2.2
  | create priority metadata => exact ⟨x, hx, hother nofun nofun⟩
  | renew node key fence extension => exact ⟨x, hx, hother nofun nofun⟩
  | check node key fence => exact ⟨x, hx, hother nofun nofun⟩
  | set t => exact ⟨x, hx, hother nofun nofun⟩
  | tick ms => exact ⟨x, hx, hother nofun nofun⟩
  | disturb plan => exact ⟨x, hx, hother nofun nofun⟩

/-- What becomes of a client in an act, as seen through something that waking it does not change. -/
theorem view_next (hwake : ∀ x : Client, f { x with activity := x.activity.wake } = f x)
    (hx : c.clients[j]? = some x) (a : Act) :
    ∃ y, (c.act a).clients[j]? = some y ∧
      (a = .go j ∧ f y = f (c.next j x) ∨ a = .leave j ∧ f y = f ⟨.ended, {}⟩ ∨
        a ≠ .go j ∧ a ≠ .leave j ∧ f y = f x) := by
  refine kept_act (fun y hy => ?_) hx (fun hgo => .inl ⟨hgo, rfl⟩) (fun hleave => .inr (.inl ⟨hleave, rfl⟩))
    fun hgo hleave => .inr (.inr ⟨hgo, hleave, rfl⟩)
  rw [hwake]
  exact hy

/-- What becomes of a client's activity in an act. -/
theorem view_act {f : Activity → β} (hwake : ∀ a, f a.wake = f a) (hx : c.clients[j]? = some x)
    (a : Act) :
    ∃ y, (c.act a).clients[j]? = some y ∧
      (a = .go j ∧ f y.activity = f (x.activity.step c.site).1 ∨
        a = .leave j ∧ f y.activity = f .ended ∨
        a ≠ .go j ∧ a ≠ .leave j ∧ f y.activity = f x.activity) := by
  obtain ⟨y, hy, hview⟩ := view_next (f := fun x => f x.activity) (fun x => hwake x.activity) hx a
  rw [next_activity] at hview
  exact ⟨y, hy, hview⟩

end View

/-- How a client stands to the queues; one that never came has nothing to do with them. -/
def standing (c : Crowd) (i : Nat) : Standing :=
  match c.clients[i]? with
  | some x => x.activity.standing
  | none => .out

theorem standing_some {i : Nat} {x : Client} (h : c.clients[i]? = some x) :
    c.standing i = x.activity.standing := by
  simp only [standing, h]

theorem standing_absent {i : Nat} (h : c.clients[i]? = none) : c.standing i = .out := by
  simp only [standing, h]

theorem standing_beyond {i : Nat} (h : c.clients.length ≤ i) : c.standing i = .out :=
  standing_absent (List.getElem?_eq_none h)

theorem standing_enter (a : Activity) (j : Nat) :
    (c.enter a).standing j = if j = c.clients.length then a.standing else c.standing j := by
  unfold standing enter
  dsimp only
  by_cases hj : j = c.clients.length
  · subst hj
    simp
  · rw [if_neg hj]
    by_cases hlt : j < c.clients.length
    · rw [List.getElem?_append_left hlt]
    · rw [List.getElem?_eq_none (by simp; omega), List.getElem?_eq_none (by omega)]

theorem standing_set {i : Nat} (h : i < c.clients.length) (x : Client) (j : Nat) :
    (c.setClient i x).standing j = if j = i then x.activity.standing else c.standing j := by
  unfold standing setClient
  dsimp only
  by_cases hj : j = i
  · subst hj
    rw [if_pos rfl, List.getElem?_set_self h]
  · rw [if_neg hj, List.getElem?_set_ne (Ne.symm hj)]

theorem standing_wake (node : Nat) (key : String) (j : Nat) :
    (c.effect (.wake node key)).standing j = c.standing j := by
  unfold standing effect
  dsimp only
  rw [List.getElem?_map]
  cases c.clients[j]? with
  | none => rfl
  | some x =>
    dsimp only [Option.map_some]
    split
    · exact Activity.standing_wake x.activity
    · rfl

/-- The effects of a step start the tasks that remove tickets, and nobody else's standing changes. -/
theorem standing_effects {fx : List Effect} {rev : Option (String × Nat)}
    (h : fx.filterMap Effect.revocation? = rev.toList) (j : Nat) :
    (fx.foldl effect c).standing j =
      if j = c.clients.length then .ofRevocation rev else c.standing j := by
  induction fx generalizing c rev with
  | nil =>
    cases rev with
    | some p => cases h
    | none =>
      rw [List.foldl_nil]
      split
      · exact standing_beyond (by omega)
      · rfl
  | cons e fx ih =>
    rw [List.foldl_cons]
    cases e with
    | wake node key =>
      rw [ih (show fx.filterMap Effect.revocation? = rev.toList from h), standing_wake]
      simp [effect]
    | revoke key n =>
      cases rev with
      | none => cases h
      | some p =>
        obtain ⟨rfl, hrest⟩ := List.cons.inj h
        rw [ih (show fx.filterMap Effect.revocation? = Option.toList none from hrest), effect,
          standing_enter]
        by_cases hj : j = c.clients.length
        · subst hj
          simp [enter, Standing.ofRevocation, Activity.standing]
        · rw [if_neg hj, if_neg hj]
          split
          · exact (standing_beyond (by simp [enter] at *; omega)).symm
          · rfl

theorem standing_idle {fx : List Effect} (h : fx.filterMap Effect.revocation? = []) (j : Nat) :
    (fx.foldl effect c).standing j = c.standing j := by
  rw [standing_effects (show fx.filterMap Effect.revocation? = Option.toList none from h)]
  split
  · exact (standing_beyond (by omega)).symm
  · rfl

theorem standing_arrived {a : Activity} (h : a.standing = .out) (j : Nat) :
    (c.enter a).standing j = c.standing j := by
  rw [standing_enter, h]
  split
  · exact (standing_beyond (by omega)).symm
  · rfl

/-- What an act may do to the queues: one client moves, a task may start that removes its ticket, and
nobody else's standing changes. -/
structure Moves (c : Crowd) (a : Act) (i : Nat) (rev : Option (String × Nat))
    (news : Option News) : Prop where
  shift : Shift c.site (c.act a).site (c.standing i) ((c.act a).standing i) rev news
  started : (c.act a).standing c.clients.length = .ofRevocation rev
  others : ∀ j, j ≠ i → j ≠ c.clients.length → (c.act a).standing j = c.standing j
  before : i ≠ c.clients.length
  noted : c.news a = news.toList.map fun n => ⟨i, c.now, n⟩
  leaves : news = some .dropped → a = .leave i
  /-- The client goes on or is dropped, if it was about to remove a ticket. -/
  removal : ∀ key n, (c.standing i).removal? = some (key, n) →
    (a = .go i ∨ a = .leave i) ∧ c.call? (.go i) = some (key, .remove n)

theorem moves_apart {a : Act} (hu : Untouched c.site (c.act a).site)
    (hstanding : ∀ j, (c.act a).standing j = c.standing j) (hnews : c.news a = []) :
    Moves c a (c.clients.length + 1) none none where
  shift := by
    rw [hstanding, standing_beyond (by omega)]
    exact .apart hu
  started := by
    rw [hstanding]
    exact standing_beyond (Nat.le_refl _)
  others j _ _ := hstanding j
  before := by omega
  noted := hnews
  leaves := nofun
  removal key n h := by
    rw [standing_beyond (by omega)] at h
    cases h

/-- An act that calls no queue leaves them all. -/
theorem act_untouched {m : MemoryLeases} (hm : c.site.leases = .memory m) {a : Act}
    (h : ∀ key op, c.call? a = some (key, op) → op.queues = false) :
    Untouched c.site (c.act a).site := by
  cases hcall : c.call? a with
  | some call =>
    obtain ⟨answer, t, hc, he⟩ := c.act_called hcall
    exact (hc.untouched hm (h _ _ hcall)).trans he.alike.untouched
  | none =>
    rcases c.act_uncalled hcall with he | ⟨op, he⟩
    · exact he.untouched
    · exact ((repo_asked c.site op).untouched hm).trans he.untouched

theorem removal_call {a : Activity} {s : Site} {key : String} {n : Nat}
    (h : a.standing.removal? = some (key, n)) : a.call? s = some (key, .remove n) := by
  have hacquire {p : AcquirePhase} {r : AcquireRequest} {key' : String}
      (h : (p.standing key').removal? = some (key, n)) :
      key' = key ∧ p.call? r = some (.remove n) := by
    cases p with
    | taking w l => cases h; exact ⟨rfl, rfl⟩
    | leaving w => cases h; exact ⟨rfl, rfl⟩
    | _ => cases h
  cases a with
  | acquire r p keep =>
    obtain ⟨rfl, hcall⟩ := hacquire (r := r) h
    exact Option.map_eq_some_iff.mpr ⟨_, hcall, rfl⟩
  | series x p =>
    cases p with
    | acquiring p =>
      obtain ⟨rfl, hcall⟩ := hacquire (r := StepPhase.acquireRequest x.current s) h
      exact Option.map_eq_some_iff.mpr ⟨_, hcall, rfl⟩
    | _ => cases h
  | revoke key' n' => cases h; rfl
  | _ => cases h

/-- An act of one client, with the effects of its step. -/
theorem moves_client {a : Act} {i : Nat} {x y : Client} {c' : Crowd} {fx : List Effect}
    {rev : Option (String × Nat)} {news : Option News} (hx : c.clients[i]? = some x)
    (ha : c.act a = fx.foldl effect c') (hc' : c'.clients = c.clients.set i y)
    (hshift : Shift c.site (c.act a).site x.activity.standing y.activity.standing rev news)
    (hrev : fx.filterMap Effect.revocation? = rev.toList)
    (hnews : c.news a = news.toList.map fun n => ⟨i, c.now, n⟩)
    (hact : a = .go i ∧ news ≠ some .dropped ∨ a = .leave i) : Moves c a i rev news := by
  obtain ⟨hi, -⟩ := List.getElem?_eq_some_iff.mp hx
  have hlength : c'.clients.length = c.clients.length := by rw [hc', List.length_set]
  have hset (j : Nat) : c'.standing j = if j = i then y.activity.standing else c.standing j := by
    rw [← standing_set hi]
    unfold standing setClient
    rw [hc']
  have hstanding (j : Nat) : (c.act a).standing j =
      if j = c.clients.length then .ofRevocation rev
      else if j = i then y.activity.standing else c.standing j := by
    rw [ha, standing_effects hrev, hlength, hset]
  constructor
  · rw [hstanding i, if_neg (by omega), if_pos rfl, standing_some hx]
    exact hshift
  · rw [hstanding, if_pos rfl]
  · intro j hj hne
    rw [hstanding, if_neg hne, if_neg hj]
  · omega
  · exact hnews
  · intro hdropped
    rcases hact with ⟨-, hne⟩ | hleave
    · exact absurd hdropped hne
    · exact hleave
  · intro key n h
    rw [standing_some hx] at h
    refine ⟨hact.imp And.left id, ?_⟩
    simp only [call?, hx, Option.bind_some]
    exact removal_call h

theorem go_moves {m : MemoryLeases} (hm : c.site.leases = .memory m) {i : Nat} {x : Client}
    (hx : c.clients[i]? = some x) : ∃ rev news, Moves c (.go i) i rev news := by
  obtain ⟨rev, news, hshift, hrev, hnews⟩ := x.activity.step_shift c.site hm
  refine ⟨rev, news, moves_client hx (act_go hx) rfl ?_ hrev ?_ (Or.inl ⟨rfl, ?_⟩)⟩
  · rw [next_activity]
    change Shift c.site (c.go i).site _ _ rev news
    rw [c.go_site hx]
    exact hshift
  · simp only [Crowd.news, hx, hnews]
  · rintro rfl
    exact x.activity.not_dropped c.site (by rw [hnews]; exact List.mem_singleton_self _)

theorem dropped_revocation (a : Activity) (s : Site) :
    (a.dropped s).filterMap Effect.revocation? = a.standing.revocation?.toList := by
  have hacquire (p : AcquirePhase) (r : AcquireRequest) :
      (p.dropped r).filterMap Effect.revocation? = (p.standing r.key).revocation?.toList := by
    cases p <;> rfl
  cases a with
  | acquire r p keep => exact hacquire p r
  | series x p =>
    cases p with
    | acquiring p => exact hacquire p (StepPhase.acquireRequest x.current s)
    | _ => rfl
  | _ => rfl

theorem leave_moves {i : Nat} {x : Client} (hx : c.clients[i]? = some x) :
    ∃ rev news, Moves c (.leave i) i rev news := by
  obtain ⟨hi, -⟩ := List.getElem?_eq_some_iff.mp hx
  refine ⟨x.activity.standing.revocation?, some .dropped,
    moves_client hx (act_leave hx) rfl ?_ (dropped_revocation x.activity c.site) ?_ (Or.inr rfl)⟩
  · refine .dropped ?_
    change Untouched c.site (c.leave i).site
    rw [leave_site]
    exact .refl _
  · simp only [Crowd.news, if_pos hi]
    rfl

/-- All that an act may do to the queues. -/
theorem act_moves {m : MemoryLeases} (hm : c.site.leases = .memory m) (a : Act) :
    ∃ i rev news, Moves c a i rev news := by
  have hsilent {a : Act} (h : c.call? a = none) (key : String) (op : LeaseOp)
      (hcall : c.call? a = some (key, op)) : op.queues = false := by
    rw [h] at hcall
    cases hcall
  cases a with
  | go i =>
    cases hx : c.clients[i]? with
    | some x => exact ⟨i, go_moves hm hx⟩
    | none =>
      have hgo : c.act (.go i) = c := c.go_absent hx
      refine ⟨_, _, _, moves_apart ?_ ?_ ?_⟩
      · rw [hgo]
        exact .refl _
      · rw [hgo]
        exact fun _ => rfl
      · simp only [Crowd.news, hx]
  | leave i =>
    cases hx : c.clients[i]? with
    | some x => exact ⟨i, leave_moves hx⟩
    | none =>
      have hleave : c.act (.leave i) = c := c.leave_absent hx
      refine ⟨_, _, _, moves_apart ?_ ?_ ?_⟩
      · rw [hleave]
        exact .refl _
      · rw [hleave]
        exact fun _ => rfl
      · simp only [Crowd.news, if_neg (Nat.not_lt.mpr (List.getElem?_eq_none_iff.mp hx))]
  | acquire r =>
    exact ⟨_, _, _, moves_apart (act_untouched hm (hsilent rfl)) (standing_arrived rfl) rfl⟩
  | steps policy first rest =>
    exact ⟨_, _, _, moves_apart (act_untouched hm (hsilent rfl)) (standing_arrived rfl) rfl⟩
  | create priority metadata =>
    exact ⟨_, _, _, moves_apart (act_untouched hm (hsilent rfl)) (fun _ => rfl) rfl⟩
  | renew node key fence extension =>
    refine ⟨_, _, _, moves_apart (act_untouched hm ?_) (fun _ => rfl) rfl⟩
    intro key' op h
    cases h
    rfl
  | release node key fence =>
    refine ⟨_, _, _, moves_apart (act_untouched hm ?_) ?_ rfl⟩
    · intro key' op h
      cases h
      rfl
    · exact standing_idle (c := { c with site := _ }) (release_out ..)
  | check node key fence =>
    refine ⟨_, _, _, moves_apart (act_untouched hm ?_) (fun _ => rfl) rfl⟩
    intro key' op h
    cases h
    rfl
  | set t => exact ⟨_, _, _, moves_apart (act_untouched hm (hsilent rfl)) (fun _ => rfl) rfl⟩
  | tick ms => exact ⟨_, _, _, moves_apart (act_untouched hm (hsilent rfl)) (fun _ => rfl) rfl⟩
  | disturb plan => exact ⟨_, _, _, moves_apart (act_untouched hm (hsilent rfl)) (fun _ => rfl) rfl⟩

end Crowd

end FencedSessions
