import FencedSessions.Proofs.Queues
import FencedSessions.Proofs.Releases

/-! Nothing is leaked. A ticket in a queue belongs to a caller that is not done with it or to a task
that is about to remove it; an acquire answers a lease if it was granted one, and that one; and a
service step answers after its lease was released. -/

namespace FencedSessions

open Site

namespace Standing

variable {σ : Standing} {p : String × Nat}

/-- If its client is dropped, a ticket is removed in the background, unless it was about to be
removed anyway. -/
theorem place_cases (h : σ.place? = some p) : σ.revocation? = some p ∨ σ.removal? = some p := by
  cases σ with
  | waits key t giveUp stage =>
    by_cases hstage : stage = .leaving
    · subst hstage
      exact Or.inr h
    · left
      cases stage with
      | leaving => exact absurd rfl hstage
      | _ => exact h
  | served key t l => exact Or.inr h
  | revokes key n => exact Or.inr h
  | out => cases h
  | comes d => cases h

end Standing

namespace Shift

variable {s s' : Site} {σ σ' : Standing} {rev : Option (String × Nat)} {news : Option News}
  {q : String} {n : Nat}

/-- What becomes of a client's ticket: the client keeps it, it is removed in the background, the client
removes it or is dropped when it was about to, or the client found it gone. -/
theorem passes (h : Shift s s' σ σ' rev news) (hσ : σ.place? = some (q, n)) :
    σ'.place? = some (q, n) ∨ rev = some (q, n) ∨
      (σ.removal? = some (q, n) ∧ (Swept s s' q n ∨ news = some .dropped)) ∨
      ∃ t giveUp, σ = .waits q t giveUp .lost ∧ t.number = n := by
  cases h with
  | apart h => cases hσ
  | started h hd => cases hσ
  | joined ht h => cases hσ
  | refused h hnone =>
    rw [hnone] at hσ
    cases hσ
  | looked hk h first lost => exact Or.inl hσ
  | moved h first lost => exact Or.inl hσ
  | granted h => exact Or.inl hσ
  | abandoned h => exact Or.inr (Or.inl hσ)
  | rejoined ht h first lost =>
    cases hσ
    exact Or.inr (Or.inr (Or.inr ⟨_, _, rfl, rfl⟩))
  | took h =>
    cases hσ
    exact Or.inr (Or.inr (Or.inl ⟨rfl, Or.inl h⟩))
  | left h =>
    cases hσ
    exact Or.inr (Or.inr (Or.inl ⟨rfl, Or.inl h⟩))
  | revoked h =>
    cases hσ
    exact Or.inr (Or.inr (Or.inl ⟨rfl, Or.inl h⟩))
  | dropped h =>
    rcases Standing.place_cases hσ with hrev | hremoval
    · exact Or.inr (Or.inl hrev)
    · exact Or.inr (Or.inr (Or.inl ⟨hremoval, Or.inr rfl⟩))

/-- A task that removes a ticket is done after that. -/
theorem revokes (h : Shift s s' σ σ' rev news) (hσ : σ = .revokes q n) : σ' = .out := by
  cases h with
  | revoked h => rfl
  | refused h hnone => rfl
  | dropped h => rfl
  | _ => cases hσ

/-- Who is done has nothing to do with a queue any more. -/
theorem ends (h : Shift s s' σ σ' rev news) {n : News} (hnews : news = some n) (hends : n.ends) :
    σ' = .out := by
  cases h with
  | joined ht h =>
    cases hnews
    cases hends
  | rejoined ht h first lost =>
    cases hnews
    cases hends
  | granted h =>
    cases hnews
    cases hends
  | refused h hnone => rfl
  | abandoned h => rfl
  | took h => rfl
  | left h => rfl
  | dropped h => rfl
  | _ => cases hnews

/-- An acquire holds the leases that it was granted. -/
theorem leases (h : Shift s s' σ σ' rev news) :
    σ'.leases = news.elim σ.leases (News.grants σ.leases) := by
  cases h with
  | _ => rfl

/-- An acquire that answers a lease was granted it, and one that fails was granted none. -/
theorem answers (h : Shift s s' σ σ' rev news) :
    (∀ l, news = some (.obtained l) → σ.leases = [l]) ∧
      ∀ e, news = some (.failed e) → σ.leases = [] := by
  cases h with
  | took h => exact ⟨fun l hl => by cases hl; rfl, nofun⟩
  | refused h hnone =>
    refine ⟨nofun, fun e he => ?_⟩
    cases σ with
    | served key t l => cases hnone
    | _ => rfl
  | abandoned h => exact ⟨nofun, fun e he => rfl⟩
  | left h => exact ⟨nofun, fun e he => rfl⟩
  | _ => exact ⟨nofun, nofun⟩

end Shift

/-- Whether a client is a task that is about to remove a ticket. -/
def Activity.revokes (q : String) (n : Nat) : Activity → Bool
  | .revoke key ticket => key = q && ticket = n
  | _ => false

theorem Activity.revokes_of_standing {a : Activity} {q : String} {n : Nat}
    (h : a.standing = .revokes q n) : a.revokes q n := by
  have hacquire {p : AcquirePhase} {key : String} (h : p.standing key = .revokes q n) : False := by
    cases p <;> cases h
  cases a with
  | revoke key ticket =>
    cases h
    simp [revokes]
  | acquire r p keep => exact (hacquire h).elim
  | series x p =>
    cases p with
    | acquiring p => exact (hacquire h).elim
    | _ => cases h
  | _ => cases h

namespace Crowd

variable {c : Crowd} {a : Act} {i j : Nat} {rev : Option (String × Nat)} {news : Option News}
  {q : String} {n : Nat}

/-- Whether an act does not hinder the removal of a ticket: the call that removes it is not made to
fail, and nobody is dropped who is about to make this call. -/
def clears (q : String) (n : Nat) (c : Crowd) (a : Act) : Bool :=
  match a with
  | .go i => c.call? (.go i) ≠ some (q, .remove n) || c.site.spares (.remove n)
  | .leave i => c.call? (.go i) ≠ some (q, .remove n)
  | _ => true

/-- A ticket that is queued has somebody who is to remove it. -/
def Owned (q : String) (n : Nat) (c : Crowd) : Prop :=
  ∀ u ∈ (c.site.keyState q).tickets, u.number = n → ∃ j, (c.standing j).place? = some (q, n)

/-- A ticket was issued, and only some clients have it, besides the tasks that are to remove it. -/
structure Confined (P : Nat → Prop) (q : String) (n : Nat) (c : Crowd) : Prop where
  issued : n ≤ (c.site.keyState q).lastTicket
  held : ∀ j, (c.standing j).place? = some (q, n) → P j ∨ c.standing j = .revokes q n

theorem Owned.act (h : c.Owned q n) (hlined : c.Lined) (hclears : clears q n c a) :
    (c.act a).Owned q n := by
  obtain ⟨m, hm⟩ := hlined.memory
  obtain ⟨i, rev, news, hmoves⟩ := act_moves hm a
  intro u hu hn
  rcases hmoves.shift.tickets_sub hu with hold | ⟨-, hplace⟩
  · obtain ⟨j, hj⟩ := h u hold hn
    by_cases hi : j = i
    · subst hi
      rcases hmoves.shift.passes hj with hkept | hrev | ⟨hremoval, hdone⟩ | ⟨t, giveUp, hlost, ht⟩
      · exact ⟨j, hkept⟩
      · refine ⟨c.clients.length, ?_⟩
        rw [hmoves.started, Standing.place_ofRevocation]
        exact hrev
      · exfalso
        obtain ⟨hact, hcall⟩ := hmoves.removal q n hremoval
        rcases hact with rfl | rfl
        · have hspares : c.site.spares (.remove n) := by simpa [clears, hcall] using hclears
          rcases hdone with (hswept | ⟨-, hfailed⟩) | hdropped
          · rw [hswept.here.1] at hu
            exact (KeyState.mem_remove.mp hu).2 hn
          · rw [hspares] at hfailed
            cases hfailed
          · cases hmoves.leaves hdropped
        · simp [clears, hcall] at hclears
      · exact absurd (hn.trans ht.symm) (hlined.lost j q t giveUp hlost u hold)
    · refine ⟨j, ?_⟩
      rw [hmoves.stays hi (by intro hout; rw [hout] at hj; cases hj)]
      exact hj
  · exact ⟨i, by rw [hplace, hn]⟩

theorem Owned.run (h : c.Owned q n) (hlined : c.Lined) {acts : List Act}
    (hclears : c.along (clears q n) acts) : (c.run acts).Owned q n :=
  (along_invariant (P := fun c => c.Owned q n ∧ c.Lined)
    (fun _ a hstep h => ⟨h.1.act h.2 hstep, h.2.act a⟩) ⟨h, hlined⟩ hclears).1

/-- A ticket is issued once, so nobody else ever comes to have it. -/
theorem Confined.act {P : Nat → Prop} (h : c.Confined P q n) (hlined : c.Lined) (a : Act) :
    (c.act a).Confined P q n := by
  obtain ⟨m, hm⟩ := hlined.memory
  obtain ⟨i, rev, news, hmoves⟩ := act_moves hm a
  refine ⟨Nat.le_trans h.issued (hmoves.shift.last_le q), fun j hj => ?_⟩
  rcases hmoves.place hj with ⟨j', hold, rfl | ⟨-, rfl, -⟩⟩ | ⟨-, hnew, -⟩
  · rcases h.held j' hold with hp | hrevokes
    · exact Or.inl hp
    · by_cases hi : j' = i
      · subst hi
        rw [hmoves.shift.revokes hrevokes] at hj
        cases hj
      · right
        rw [hmoves.stays hi (by rw [hrevokes]; nofun)]
        exact hrevokes
  · right
    rw [hmoves.started, Standing.place_ofRevocation] at hj
    rw [hmoves.started, hj]
    rfl
  · have hissued := h.issued
    omega

theorem Confined.run {P : Nat → Prop} (h : c.Confined P q n) (hlined : c.Lined) (acts : List Act) :
    (c.run acts).Confined P q n :=
  (run_invariant (P := fun c => c.Confined P q n ∧ c.Lined)
    (fun _ a h => ⟨h.1.act h.2 a, h.2.act a⟩) ⟨h, hlined⟩ acts).1

/-- When an acquire is over, its ticket is not in the queue, unless a task is still to remove it. -/
theorem ticket_removed (h : c.Lined) {acts : List Act} {x y z : List Entry} {e f : Entry} {t : Ticket}
    (hlog : c.log acts = x ++ e :: (y ++ f :: z)) (he : e.news = .queued q t)
    (hclient : f.client = e.client) (hends : f.news.ends)
    (hclears : c.along (clears q t.number) acts)
    (hrevoked : ∀ x ∈ (c.run acts).clients, x.activity.revokes q t.number = false) :
    ∀ u ∈ ((c.run acts).site.keyState q).tickets, u.number ≠ t.number := by
  obtain ⟨before, a, after, rfl, -, hnews, hrest⟩ := log_split hlog
  obtain ⟨mid, b, last, rfl, -, hnews', -⟩ := log_split hrest
  rw [along_append, Bool.and_eq_true] at hclears
  obtain ⟨-, hclears⟩ := (Bool.and_eq_true _ _).mp hclears.2
  rw [run_append, run_cons] at hrevoked ⊢
  -- the ticket is taken
  have hlined := (h.run before).act a
  obtain ⟨m, hm⟩ := (h.run before).memory
  obtain ⟨i, rev, news, hmoves⟩ := act_moves hm a
  obtain ⟨rfl, -, hsome⟩ := hmoves.entry hnews
  obtain ⟨⟨giveUp, stage, hwaits⟩, -, hissued, -⟩ := hmoves.shift.queued (hsome.trans (congrArg _ he))
  generalize (c.run before).act a = c₁ at *
  have hplace : (c₁.standing e.client).place? = some (q, t.number) := by
    rw [hwaits]
    rfl
  have howned : c₁.Owned q t.number := fun u _ _ => ⟨e.client, hplace⟩
  have hconfined : c₁.Confined (· = e.client) q t.number :=
    ⟨hissued, fun j hj => Or.inl (hlined.unique j e.client _ hj hplace)⟩
  have howned' := howned.run hlined hclears
  -- the acquire is over
  have hlined' := hlined.run mid
  have hconfined' := (hconfined.run hlined mid).act hlined' b
  obtain ⟨m', hm'⟩ := hlined'.memory
  obtain ⟨i', rev', news', hmoves'⟩ := act_moves hm' b
  obtain ⟨rfl, -, hsome'⟩ := hmoves'.entry hnews'
  have hout := hmoves'.shift.ends hsome' hends
  have hnobody : ((c₁.run mid).act b).Confined (fun _ => False) q t.number := by
    refine ⟨hconfined'.issued, fun j hj => Or.inr ?_⟩
    rcases hconfined'.held j hj with rfl | hrevokes
    · rw [← hclient, hout] at hj
      cases hj
    · exact hrevokes
  have hnobody' := hnobody.run (hlined'.act b) last
  rw [run_append, run_cons] at howned' hrevoked ⊢
  intro u hu hn
  obtain ⟨j, hj⟩ := howned' u hu hn
  rcases hnobody'.held j hj with hfalse | hrevokes
  · exact hfalse
  · cases hx : (((c₁.run mid).act b).run last).clients[j]? with
    | none =>
      rw [standing_absent hx] at hrevokes
      cases hrevokes
    | some x =>
      rw [standing_some hx] at hrevokes
      have hnone := hrevoked x (List.mem_of_getElem? hx)
      rw [Activity.revokes_of_standing hrevokes] at hnone
      cases hnone

theorem Moves.leases (h : Moves c a i rev news) (j : Nat) :
    ((c.act a).standing j).leases =
      if i = j then news.elim (c.standing j).leases (News.grants (c.standing j).leases)
      else (c.standing j).leases := by
  by_cases hi : i = j
  · subst hi
    rw [if_pos rfl]
    exact h.shift.leases
  · rw [if_neg hi]
    by_cases hstarted : j = c.clients.length
    · subst hstarted
      rw [h.started, standing_beyond (Nat.le_refl _)]
      cases rev <;> rfl
    · rw [h.others j (Ne.symm hi) hstarted]

/-- The journal tells which leases an acquire was granted. -/
theorem grants_act {log : List Entry} (h : ∀ j, grants j log = (c.standing j).leases)
    {m : MemoryLeases} (hm : c.site.leases = .memory m) (a : Act) (j : Nat) :
    grants j (log ++ c.news a) = ((c.act a).standing j).leases := by
  obtain ⟨i, rev, news, hmoves⟩ := act_moves hm a
  rw [hmoves.leases, hmoves.noted, ← h j]
  cases news with
  | none =>
    simp
  | some n =>
    unfold grants
    rw [List.foldl_append]
    rfl

theorem grants_run {log : List Entry} (h : ∀ j, grants j log = (c.standing j).leases)
    {m : MemoryLeases} (hm : c.site.leases = .memory m) (acts : List Act) (j : Nat) :
    grants j (log ++ c.log acts) = ((c.run acts).standing j).leases := by
  refine (log_induction (P := fun c log _ => (∃ m, c.site.leases = .memory m) ∧
    ∀ j, grants j log = (c.standing j).leases) ?_ ⟨⟨m, hm⟩, h⟩).2 j
  rintro c log a _ ⟨⟨m, hm⟩, h⟩
  exact ⟨act_memory hm a, grants_act h hm a⟩

/-- An acquire that answers a lease was granted this one and no other; one that answers an error was
granted none. -/
theorem answers_granted {s : Site} (h : s.leases = .memory {}) {acts : List Act} {x y : List Entry}
    {e : Entry} (hlog : s.crowd.log acts = x ++ e :: y) :
    (∀ l, e.news = .obtained l → grants e.client x = [l]) ∧
      ∀ err, e.news = .failed err → grants e.client x = [] := by
  obtain ⟨before, a, after, rfl, rfl, hnews, -⟩ := log_split hlog
  have hnone : ∀ j, grants j [] = (s.crowd.standing j).leases := fun j => rfl
  have hgrants := grants_run hnone h before e.client
  rw [List.nil_append] at hgrants
  rw [hgrants]
  obtain ⟨m, hm⟩ := ((lined_crowd h).run before).memory
  obtain ⟨i, rev, news, hmoves⟩ := act_moves hm a
  obtain ⟨rfl, -, hsome⟩ := hmoves.entry hnews
  obtain ⟨hobtained, hfailed⟩ := hmoves.shift.answers
  exact ⟨fun l hl => hobtained l (hsome.trans (congrArg _ hl)),
    fun err herr => hfailed err (hsome.trans (congrArg _ herr))⟩

/-- Nothing is leaked by a run over a store in memory, whatever the clock does. Once an acquire has
answered or was dropped, no ticket that it took is in the queue, except while a task is still about
to remove it, provided that no removal of this ticket was made to fail and nobody was dropped who
was about to remove it. An acquire answers a lease if and only if it was granted one, and it was
granted this one only; one that answers an error was granted none. And from the moment when a
service step has answered, no lease is on record with the fence of one that it was granted, provided
that no release was made to fail. -/
theorem nothing_leaked (s : Site) (acts : List Act) (h : s.leases = .memory {}) :
    let c := s.crowd.run acts
    let log := s.crowd.log acts
    (∀ x y z e f q t, log = x ++ e :: (y ++ f :: z) → e.news = .queued q t →
      f.client = e.client → f.news.ends → s.crowd.along (clears q t.number) acts →
      (∀ x ∈ c.clients, x.activity.revokes q t.number = false) →
      ∀ u ∈ (c.site.keyState q).tickets, u.number ≠ t.number) ∧
    (∀ x y e, log = x ++ e :: y →
      (∀ l, e.news = .obtained l → grants e.client x = [l]) ∧
      ∀ err, e.news = .failed err → grants e.client x = []) ∧
    ∀ before i after, acts = before ++ .go i :: after → (s.crowd.run before).answers i →
      s.crowd.along frees acts → ∀ e ∈ s.crowd.log before, e.client = i →
        ∀ q l, e.news = .granted q l →
          ∀ l', (c.site.keyState q).lease = some l' → l'.fence ≠ l.fence := by
  intro c log
  refine ⟨?_, fun x y e hlog => answers_granted h hlog, ?_⟩
  · intro x y z e f q t hlog he hclient hends hclears hrevoked
    exact ticket_removed (lined_crowd h) hlog he hclient hends hclears hrevoked
  · intro before i after hacts hanswers hfrees e he hclient q l hnews
    have hbalanced : s.crowd.Balanced [] := ⟨nofun, nofun⟩
    change ∀ l', (((s.crowd.run acts).site.keyState q).lease = some l') → _
    rw [hacts] at hfrees ⊢
    rw [along_append, Bool.and_eq_true] at hfrees
    obtain ⟨hbefore, hrest⟩ := hfrees
    obtain ⟨hgo, -⟩ := (Bool.and_eq_true _ _).mp hrest
    obtain ⟨m, hm⟩ := ((lined_crowd h).run before).memory
    obtain ⟨m', hm'⟩ := act_memory hm (.go i)
    have hspent := (hbalanced.run h hbefore).answered hm hgo hanswers he hclient hnews
    rw [run_append, run_cons]
    exact (spent_run hm' after hspent).absent

set_option maxRecDepth 8192 in
/-- A service step finds no session, releases its lease and answers. Meanwhile another caller for the
same key is dropped, and its ticket is removed in the background. -/
theorem nothing_leaked_dropped :
    let key := (SessionId.fresh 1).text
    let acts := [.steps { maxRetries := 0 } ⟨0, SessionId.fresh 1, none, ⟨5000000000⟩⟩ [],
      .acquire ⟨0, key, "b", ⟨5000000000⟩, ⟨30000000000⟩⟩, .go 0, .go 0, .go 1, .go 1, .go 0, .go 0,
      .go 0, .leave 1, .go 2, .go 0]
    let c := Site.single.crowd.run (acts ++ [.go 0])
    let lease : Lease := ⟨key, "a", ⟨1⟩, ⟨30000000000⟩, 0⟩
    let ticket : Ticket := ⟨2, "b", ⟨5020000000⟩, 1⟩
    (∀ u ∈ (c.site.keyState key).tickets, u.number ≠ ticket.number) ∧
    grants 0 [⟨0, ⟨0⟩, .queued key ⟨1, "a", ⟨5020000000⟩, 0⟩⟩, ⟨1, ⟨0⟩, .queued key ticket⟩,
      ⟨0, ⟨0⟩, .granted key lease⟩] = [lease] ∧
    ∀ l, (c.site.keyState key).lease = some l → l.fence ≠ lease.fence := by
  intro key acts c lease ticket
  have hlog : Site.single.crowd.log (acts ++ [.go 0]) =
      [⟨0, ⟨0⟩, .queued key ⟨1, "a", ⟨5020000000⟩, 0⟩⟩, ⟨1, ⟨0⟩, .queued key ticket⟩,
        ⟨0, ⟨0⟩, .granted key lease⟩, ⟨0, ⟨0⟩, .obtained lease⟩, ⟨1, ⟨0⟩, .dropped⟩] := by
    decide +kernel
  obtain ⟨htickets, hgrants, hleases⟩ := nothing_leaked Site.single (acts ++ [.go 0]) rfl
  refine ⟨?_, ?_, ?_⟩
  · exact htickets [_] [_, _] [] _ _ key ticket hlog rfl rfl rfl (by decide +kernel)
      (by decide +kernel)
  · exact (hgrants [_, _, _] [_] _ hlog).1 lease rfl
  · exact hleases acts 0 [] rfl (by decide +kernel) (by decide +kernel) ⟨0, ⟨0⟩, .granted key lease⟩
      (by decide +kernel) rfl key lease rfl

end Crowd

end FencedSessions
