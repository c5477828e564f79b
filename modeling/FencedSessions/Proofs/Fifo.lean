import FencedSessions.Proofs.Queues

/-! Grants of a key come in the order of the tickets. As long as the clock never goes back, a caller's
ticket stays in the queue until its deadline, and the caller gives up before it looks for a ticket
whose deadline has come. So no caller takes a second ticket, and whoever is granted the key has the
first ticket of all that are still waited with. -/

namespace FencedSessions

open Site

/-- What a waiting caller can rely on. -/
structure Site.Awaits (s : Site) (q : String) (t : Ticket) (giveUp : Instant) (stage : Stage) :
    Prop where
  outlasts : giveUp ≤ t.deadline
  queued : t ∈ (s.keyState q).tickets ∨ t.deadline ≤ s.now
  found : stage ≠ .lost
  first : stage = .first → ∀ u ∈ (s.keyState q).tickets, t.number ≤ u.number

namespace Standing

/-- The ticket that a caller took itself. -/
def ticket? : Standing → Option (String × Ticket)
  | .waits key t _ _ | .served key t _ => some (key, t)
  | .out | .comes _ | .revokes .. => none

end Standing

namespace Shift

variable {s s' : Site} {σ σ' : Standing} {rev : Option (String × Nat)} {news : Option News}
  {q : String} {t : Ticket} {giveUp : Instant} {stage : Stage}

/-- A caller with a ticket can rely on it after its next step, too. -/
theorem awaits (h : Shift s s' σ σ' rev news) (hnow : s.now ≤ s'.now)
    (hnumbered : ∀ q, (s.keyState q).Numbered)
    (hdue : ∀ d, σ = .comes d → d.clockGiveUp ≤ d.ticketDeadline)
    (hbefore : ∀ q t giveUp stage, σ = .waits q t giveUp stage → s.Awaits q t giveUp stage)
    (hσ : σ' = .waits q t giveUp stage) : s'.Awaits q t giveUp stage := by
  cases h with
  | joined ht h =>
    cases hσ
    cases ht
    refine ⟨hdue _ rfl, Or.inl ?_, nofun, nofun⟩
    rw [h.here.1]
    exact KeyState.mem_enqueue.mpr (Or.inr rfl)
  | rejoined ht h first lost => exact absurd rfl (hbefore _ _ _ _ rfl).found
  | moved h first lost =>
    cases hσ
    have hb := hbefore _ _ _ _ rfl
    refine ⟨hb.outlasts, ?_, lost, fun hfirst => absurd hfirst first⟩
    rcases hb.queued with hmem | hdeadline
    · rw [(h q).1]
      exact Or.inl hmem
    · exact Or.inr (Int.le_trans hdeadline hnow)
  | looked hk h first lost =>
    cases hσ
    have hb := hbefore _ _ _ _ rfl
    -- the look drops what is due, so a ticket is found or its deadline has come
    have hqueued : t ∈ ((s.keyState q).prune s.now).tickets ∨ t.deadline ≤ s.now := by
      rcases hb.queued with hmem | hdeadline
      · by_cases hdue : s.now < t.deadline
        · exact Or.inl (KeyState.mem_prune.mpr ⟨hmem, hdue⟩)
        · exact Or.inr (Instant.not_lt.mp hdue)
      · exact Or.inr hdeadline
    cases hk
    refine ⟨hb.outlasts, ?_, ?_, ?_⟩
    · rw [h.here.1]
      rcases hqueued with hmem | hdeadline
      · exact Or.inl hmem
      · exact Or.inr (Int.le_trans hdeadline hnow)
    · intro hlost
      obtain ⟨hnone, hgiveUp⟩ := lost hlost
      rcases hqueued with hmem | hdeadline
      · exact KeyState.position_none hnone t hmem rfl
      · exact hgiveUp (Int.le_trans hb.outlasts (Int.le_trans hdeadline hnow))
    · intro hfirst
      obtain ⟨u, ts, hts, hu⟩ := KeyState.position_first (first hfirst)
      rw [h.here.1, ← hu]
      exact ((hnumbered q).prune s.now).first_le hts
  | _ => cases hσ

theorem due (h : Shift s s' σ σ' rev news) {d : Deadlines} (hσ : σ' = .comes d) :
    d.clockGiveUp ≤ d.ticketDeadline := by
  cases h with
  | started h hd =>
    cases hσ
    exact hd
  | _ => cases hσ

/-- A caller keeps its ticket until its acquire is over. -/
theorem ticket (h : Shift s s' σ σ' rev news) (hσ : σ.ticket? = some (q, t))
    (hfound : ∀ q t giveUp, σ ≠ .waits q t giveUp .lost) :
    σ'.ticket? = some (q, t) ∨ ∃ n, news = some n ∧ n.ends := by
  cases h with
  | apart h => cases hσ
  | started h hd => cases hσ
  | joined ht h => cases hσ
  | revoked h => cases hσ
  | looked hk h first lost => exact Or.inl hσ
  | moved h first lost => exact Or.inl hσ
  | granted h => exact Or.inl hσ
  | rejoined ht h first lost => exact absurd rfl (hfound _ _ _)
  | refused h hσ => exact Or.inr ⟨_, rfl, rfl⟩
  | abandoned h => exact Or.inr ⟨_, rfl, rfl⟩
  | took h => exact Or.inr ⟨_, rfl, rfl⟩
  | left h => exact Or.inr ⟨_, rfl, rfl⟩
  | dropped h => exact Or.inr ⟨_, rfl, rfl⟩

/-- A caller waits until its acquire is granted, fails, or is dropped. -/
theorem waiting (h : Shift s s' σ σ' rev news) (hσ : σ = .waits q t giveUp stage)
    (hfound : stage ≠ .lost) :
    (∃ stage', σ' = .waits q t giveUp stage') ∧ news = none ∨ ∃ n, news = some n ∧ n.settles := by
  cases h with
  | looked hk h first lost =>
    cases hσ
    exact Or.inl ⟨⟨_, rfl⟩, rfl⟩
  | moved h first lost =>
    cases hσ
    exact Or.inl ⟨⟨_, rfl⟩, rfl⟩
  | rejoined ht h first lost =>
    cases hσ
    exact absurd rfl hfound
  | granted h => exact Or.inr ⟨_, rfl, rfl⟩
  | refused h hσ => exact Or.inr ⟨_, rfl, rfl⟩
  | abandoned h => exact Or.inr ⟨_, rfl, rfl⟩
  | left h => exact Or.inr ⟨_, rfl, rfl⟩
  | dropped h => exact Or.inr ⟨_, rfl, rfl⟩
  | _ => cases hσ

/-- Who is granted a key found its ticket first in the queue. -/
theorem first (h : Shift s s' σ σ' rev news) {l : Lease} (hnews : news = some (.granted q l)) :
    ∃ t giveUp, σ = .waits q t giveUp .first := by
  cases h with
  | granted h =>
    cases hnews
    exact ⟨_, _, rfl⟩
  | _ => cases hnews

end Shift

namespace Crowd

variable {c : Crowd} {a : Act} {i j : Nat} {rev : Option (String × Nat)} {news : Option News}
  {q : String} {t : Ticket} {giveUp : Instant} {stage : Stage}

/-- All callers can rely on their tickets. -/
structure Kept (c : Crowd) : Prop where
  lined : c.Lined
  due : ∀ i d, c.standing i = .comes d → d.clockGiveUp ≤ d.ticketDeadline
  awaits : ∀ i q t giveUp stage, c.standing i = .waits q t giveUp stage →
    c.site.Awaits q t giveUp stage

theorem Kept.found (h : c.Kept) (i : Nat) (q : String) (t : Ticket) (giveUp : Instant) :
    c.standing i ≠ .waits q t giveUp .lost :=
  fun hi => (h.awaits i q t giveUp .lost hi).found rfl

theorem Kept.act (h : c.Kept) (hnow : c.now ≤ (c.act a).now) : (c.act a).Kept := by
  obtain ⟨m, hm⟩ := h.lined.memory
  obtain ⟨i, rev, news, hmoves⟩ := act_moves hm a
  refine ⟨h.lined.act a, fun j d hj => ?_, fun j q t giveUp stage hj => ?_⟩
  · by_cases hi : j = i
    · subst hi
      exact hmoves.shift.due hj
    · have hstayed := hmoves.stayed hi (by rw [hj]; nofun) (by rw [hj]; nofun)
      exact h.due j d (hstayed.trans hj)
  · by_cases hi : j = i
    · subst hi
      exact hmoves.shift.awaits hnow h.lined.numbered (h.due j) (h.awaits j) hj
    · have hstayed := hmoves.stayed hi (by rw [hj]; nofun) (by rw [hj]; nofun)
      have hbefore := h.awaits j q t giveUp stage (hstayed.trans hj)
      have hplace : (c.standing j).place? = some (q, t.number) := by
        rw [hstayed, hj]
        rfl
      refine ⟨hbefore.outlasts, ?_, hbefore.found, fun hfirst u hu => ?_⟩
      · rcases hbefore.queued with hmem | hdeadline
        · rcases hmoves.shift.tickets_stay hmem with hstay | hdue | hremoval
          · exact Or.inl hstay
          · exact Or.inr (Int.le_trans hdue hnow)
          · -- nobody else removes the ticket
            have hother := Standing.place_of_removal hremoval
            exact absurd (h.lined.unique j i _ hplace hother) hi
        · exact Or.inr (Int.le_trans hdeadline hnow)
      · rcases hmoves.shift.tickets_sub hu with hold | ⟨hnew, -⟩
        · exact hbefore.first hfirst u hold
        · have hissued := h.lined.issued j q t.number hplace
          omega

theorem Kept.run (h : c.Kept) {acts : List Act} (hforward : c.forward acts) :
    (c.run acts).Kept :=
  along_invariant (fun _ _ hstep h => h.act (of_decide_eq_true hstep)) h hforward

theorem kept_crowd {s : Site} (h : s.leases = .memory {}) : s.crowd.Kept where
  lined := lined_crowd h
  due i d h := by cases h
  awaits i q t giveUp stage h := by cases h

/-- One act: a caller keeps its ticket unless its acquire ends. -/
theorem Kept.ticket_act (h : c.Kept) (hj : (c.standing j).ticket? = some (q, t))
    (hlasts : lasts j (c.news a)) : ((c.act a).standing j).ticket? = some (q, t) := by
  obtain ⟨m, hm⟩ := h.lined.memory
  obtain ⟨i, rev, news, hmoves⟩ := act_moves hm a
  by_cases hi : j = i
  · subst hi
    rcases hmoves.shift.ticket hj (h.found j) with hkept | ⟨n, rfl, hends⟩
    · exact hkept
    · rw [hmoves.noted] at hlasts
      simp [lasts, hends] at hlasts
  · rw [hmoves.stays hi (by intro hout; rw [hout] at hj; cases hj)]
    exact hj

/-- A caller keeps its ticket until its acquire ends. -/
theorem Kept.ticket_run (h : c.Kept) {acts : List Act} (hforward : c.forward acts)
    (hj : (c.standing j).ticket? = some (q, t)) (hlasts : lasts j (c.log acts)) :
    ((c.run acts).standing j).ticket? = some (q, t) := by
  refine (run_induction (P := fun c acts => c.Kept ∧ c.forward acts ∧ lasts j (c.log acts) ∧
    (c.standing j).ticket? = some (q, t)) ?_ ⟨h, hforward, hlasts, hj⟩).2.2.2
  rintro c a acts ⟨h, hforward, hlasts, hj⟩
  obtain ⟨hstep, hrest⟩ := (Bool.and_eq_true _ _).mp hforward
  rw [log, lasts_append, Bool.and_eq_true] at hlasts
  exact ⟨h.act (of_decide_eq_true hstep), hrest, hlasts.2, h.ticket_act hj hlasts.1⟩

/-- One act: a caller waits on unless its acquire is settled. -/
theorem Kept.waiting_act (h : c.Kept) (hj : c.standing j = .waits q t giveUp stage)
    {l : List Entry} (hsettled : settled j (c.news a ++ l) = false) :
    (∃ stage', (c.act a).standing j = .waits q t giveUp stage') ∧ settled j l = false := by
  obtain ⟨m, hm⟩ := h.lined.memory
  obtain ⟨i, rev, news, hmoves⟩ := act_moves hm a
  rw [hmoves.noted] at hsettled
  by_cases hi : j = i
  · subst hi
    rcases hmoves.shift.waiting hj (h.awaits j q t giveUp stage hj).found with
      ⟨hwaits, rfl⟩ | ⟨n, rfl, hn⟩
    · exact ⟨hwaits, hsettled⟩
    · simp [settled, hn] at hsettled
  · rw [hmoves.stays hi (by rw [hj]; nofun)]
    refine ⟨⟨stage, hj⟩, ?_⟩
    cases news with
    | none => exact hsettled
    | some n => simpa [settled, Ne.symm hi] using hsettled

/-- A caller waits until its acquire is settled. -/
theorem Kept.waiting_run (h : c.Kept) {acts : List Act} (hforward : c.forward acts)
    (hj : c.standing j = .waits q t giveUp stage) (hsettled : settled j (c.log acts) = false) :
    ∃ stage', (c.run acts).standing j = .waits q t giveUp stage' := by
  refine (run_induction (P := fun c acts => c.Kept ∧ c.forward acts ∧ settled j (c.log acts) = false ∧
    ∃ stage', c.standing j = .waits q t giveUp stage') ?_ ⟨h, hforward, hsettled, stage, hj⟩).2.2.2
  rintro c a acts ⟨h, hforward, hsettled, stage, hj⟩
  obtain ⟨hstep, hrest⟩ := (Bool.and_eq_true _ _).mp hforward
  obtain ⟨hj', hsettled'⟩ := h.waiting_act hj hsettled
  exact ⟨h.act (of_decide_eq_true hstep), hrest, hsettled', hj'⟩

/-- Where a ticket comes from. -/
theorem Kept.queued_act (h : c.Kept) {e : Entry} (he : c.news a = [e])
    (hnews : e.news = .queued q t) :
    (∃ giveUp stage, (c.act a).standing e.client = .waits q t giveUp stage) ∧
      t.number = (c.site.keyState q).lastTicket + 1 ∧
      t.number ≤ ((c.act a).site.keyState q).lastTicket ∧
      (c.standing e.client).ticket? = none := by
  obtain ⟨m, hm⟩ := h.lined.memory
  obtain ⟨i, rev, news, hmoves⟩ := act_moves hm a
  obtain ⟨hclient, -, hsome⟩ := hmoves.entry he
  subst hclient
  obtain ⟨hwaits, hnumber, hissued, hbefore⟩ := hmoves.shift.queued (hsome.trans (congrArg _ hnews))
  refine ⟨hwaits, hnumber, hissued, ?_⟩
  rcases hbefore with ⟨d, hd⟩ | ⟨q', t', giveUp, hlost⟩
  · rw [hd]
    rfl
  · exact absurd hlost (h.found e.client q' t' giveUp)

/-- Where a run is when it makes an entry, with what can be relied on there. -/
theorem Kept.log_split (h : c.Kept) {acts : List Act} (hforward : c.forward acts)
    {x y : List Entry} {e : Entry} (hlog : c.log acts = x ++ e :: y) :
    ∃ before a after, acts = before ++ a :: after ∧ c.forward before ∧ c.log before = x ∧
      (c.run before).Kept ∧ (c.run before).news a = [e] ∧
      ((c.run before).act a).Kept ∧ ((c.run before).act a).forward after ∧
      ((c.run before).act a).log after = y := by
  obtain ⟨before, a, after, rfl, hx, he, hy⟩ := Crowd.log_split hlog
  rw [forward, along_append, Bool.and_eq_true] at hforward
  obtain ⟨hbefore, hrest⟩ := hforward
  obtain ⟨hstep, hafter⟩ := (Bool.and_eq_true _ _).mp hrest
  have hkept := h.run hbefore
  exact ⟨before, a, after, rfl, hbefore, hx, hkept, he, hkept.act (of_decide_eq_true hstep), hafter,
    hy⟩

/-- An acquire takes one ticket at most. -/
theorem Kept.one_ticket (h : c.Kept) {acts : List Act} (hforward : c.forward acts)
    {x y z : List Entry} {e f : Entry} (hlog : c.log acts = x ++ e :: (y ++ f :: z))
    (he : e.news = .queued q t) {q' : String} {t' : Ticket} (hf : f.news = .queued q' t')
    (hclient : f.client = e.client) : lasts e.client y = false := by
  obtain ⟨before, a, after, rfl, -, -, hkept, hnews, hkept', hafter, hrest⟩ := h.log_split hforward hlog
  obtain ⟨⟨giveUp, stage, hwaits⟩, -⟩ := hkept.queued_act hnews he
  obtain ⟨mid, b, last, rfl, hmid, rfl, hkept₂, hnews₂, -⟩ := hkept'.log_split hafter hrest
  obtain ⟨-, -, -, hnone⟩ := hkept₂.queued_act hnews₂ hf
  rw [hclient] at hnone
  cases hlasts : lasts e.client (((c.run before).act a).log mid) with
  | false => rfl
  | true =>
    have hsome := hkept'.ticket_run hmid (by rw [hwaits]; rfl) hlasts
    rw [hnone] at hsome
    cases hsome

/-- A ticket stays in the queue until its deadline, unless the acquire is settled. -/
theorem Kept.ticket_stays (h : c.Kept) {acts : List Act} (hforward : c.forward acts)
    {x y : List Entry} {e : Entry} (hlog : c.log acts = x ++ e :: y) (he : e.news = .queued q t)
    (hsettled : settled e.client y = false) (hdeadline : (c.run acts).now < t.deadline) :
    t ∈ ((c.run acts).site.keyState q).tickets := by
  obtain ⟨before, a, after, rfl, -, -, hkept, hnews, hkept', hafter, rfl⟩ := h.log_split hforward hlog
  obtain ⟨⟨giveUp, stage, hwaits⟩, -⟩ := hkept.queued_act hnews he
  obtain ⟨stage', hwaits'⟩ := hkept'.waiting_run hafter hwaits hsettled
  rw [run_append, run_cons] at hdeadline ⊢
  rcases ((hkept'.run hafter).awaits _ _ _ _ _ hwaits').queued with hmem | hdue
  · exact hmem
  · exact absurd hdeadline (Instant.not_lt.mpr hdue)

/-- Who is granted a key has the first ticket of those that are waited with. -/
theorem Kept.in_order (h : c.Kept) {acts : List Act} (hforward : c.forward acts)
    {x y z w : List Entry} {e f g : Entry} {u : Ticket} {l : Lease}
    (hlog : c.log acts = x ++ e :: (y ++ f :: (z ++ g :: w))) (he : e.news = .queued q t)
    (hf : f.news = .queued q u) (hg : g.news = .granted q l) (hclient : g.client = f.client)
    (hlasts : lasts f.client z) (hdeadline : g.time < t.deadline) :
    settled e.client (y ++ f :: z) := by
  obtain ⟨before, a, after, rfl, -, -, hkept, hnews, hkept₁, hafter, hlog₁⟩ := h.log_split hforward hlog
  obtain ⟨⟨giveUp, stage, hwaits⟩, -, hissued, -⟩ := hkept.queued_act hnews he
  generalize (c.run before).act a = c₁ at hkept₁ hafter hlog₁ hwaits hissued
  -- from the ticket up to the grant
  obtain ⟨upto, d, rest, rfl, hupto, hlog₂, hkept₂, hgranted, -⟩ :=
    hkept₁.log_split hafter (x := y ++ f :: z) (by rw [hlog₁, List.append_assoc, List.cons_append])
  -- from the later ticket up to the grant
  obtain ⟨mid, b, late, rfl, -, -, hkept₃, hnews₃, hkept₄, hlate, rfl⟩ := hkept₁.log_split hupto hlog₂
  obtain ⟨⟨giveUp', stage', hwaits'⟩, hnumber, -, -⟩ := hkept₃.queued_act hnews₃ hf
  have hlater := run_last_le hkept₁.lined mid q
  have hticket := hkept₄.ticket_run hlate (by rw [hwaits']; rfl) hlasts
  rw [run_append, run_cons] at hkept₂ hgranted
  obtain ⟨m, hm⟩ := hkept₂.lined.memory
  obtain ⟨i, rev, news, hmoves⟩ := act_moves hm d
  obtain ⟨rfl, htime, hsome⟩ := hmoves.entry hgranted
  obtain ⟨t', giveUp₂, hfirst⟩ := hmoves.shift.first (hsome.trans (congrArg _ hg))
  rw [hclient] at hfirst
  rw [hfirst] at hticket
  cases hticket
  cases hsettled : settled e.client (y ++ f :: (((c₁.run mid).act b).log late)) with
  | true => rfl
  | false =>
    obtain ⟨stage₂, hwaits₂⟩ := hkept₁.waiting_run hupto hwaits (by rw [hlog₂]; exact hsettled)
    rw [run_append, run_cons] at hwaits₂
    rcases (hkept₂.awaits _ _ _ _ _ hwaits₂).queued with hmem | hdue
    · have hle := (hkept₂.awaits _ _ _ _ _ hfirst).first rfl t hmem
      omega
    · rw [htime] at hdeadline
      exact absurd hdeadline (Instant.not_lt.mpr hdue)

/-- Grants come in the order of the tickets. Take any run over a store in memory in which the clock
never goes back. Nobody is ever about to take a ticket for a second time, and between two tickets of
one client its acquire has ended. A ticket stays in the queue until its deadline, unless the acquire
was granted, failed, or was dropped. And when a key is granted to an acquire before the deadline of a
ticket that was queued before its own, then the acquire with that ticket was granted by then, has
failed, or was dropped. -/
theorem grants_in_order (s : Site) (acts : List Act) (h : s.leases = .memory {})
    (hforward : s.crowd.forward acts) :
    let c := s.crowd.run acts
    let log := s.crowd.log acts
    (∀ x ∈ c.clients, ∀ w : Waiter, (∀ r keep, x.activity ≠ .acquire r (.rejoining w) keep) ∧
      ∀ y, x.activity ≠ .series y (.acquiring (.rejoining w))) ∧
    (∀ x y z e f q t q' t', log = x ++ e :: (y ++ f :: z) → e.news = .queued q t →
      f.news = .queued q' t' → f.client = e.client → lasts e.client y = false) ∧
    (∀ x y e q t, log = x ++ e :: y → e.news = .queued q t → settled e.client y = false →
      c.now < t.deadline → t ∈ (c.site.keyState q).tickets) ∧
    ∀ x y z w e f g q t u l, log = x ++ e :: (y ++ f :: (z ++ g :: w)) → e.news = .queued q t →
      f.news = .queued q u → g.news = .granted q l → g.client = f.client → lasts f.client z →
      g.time < t.deadline → settled e.client (y ++ f :: z) := by
  intro c log
  have hkept := kept_crowd h
  refine ⟨fun x hx w => ?_, ?_, ?_, ?_⟩
  · obtain ⟨i, hi⟩ := List.getElem?_of_mem hx
    have hfound := (hkept.run hforward).found i
    rw [standing_some hi] at hfound
    refine ⟨fun r keep hact => ?_, fun y hact => ?_⟩
    · rw [hact] at hfound
      exact hfound _ _ _ rfl
    · rw [hact] at hfound
      exact hfound _ _ _ rfl
  · intro x y z e f q t q' t' hlog he hf hclient
    exact hkept.one_ticket hforward hlog he hf hclient
  · intro x y e q t hlog he hsettled hdeadline
    exact hkept.ticket_stays hforward hlog he hsettled hdeadline
  · intro x y z w e f g q t u l hlog he hf hg hclient hlasts hdeadline
    exact hkept.in_order hforward hlog he hf hg hclient hlasts hdeadline

set_option maxRecDepth 4096 in
/-- The first of two callers is dropped while it waits; its ticket is removed in the background, and
only then the second one finds itself first and is granted the key. -/
theorem grants_in_order_dropped :
    let acquire (holder : String) : Act := .acquire ⟨0, "k", holder, ⟨5000000000⟩, ⟨30000000000⟩⟩
    let acts := [acquire "a", acquire "b", .go 0, .go 0, .go 1, .go 1, .leave 0, .go 2, .go 1, .go 1]
    let first : Ticket := ⟨1, "a", ⟨5020000000⟩, 0⟩
    let second : Ticket := ⟨2, "b", ⟨5020000000⟩, 1⟩
    let start : Instant := ⟨0⟩
    Site.single.crowd.forward acts ∧
    Site.single.crowd.log acts =
      [⟨0, start, .queued "k" first⟩, ⟨1, start, .queued "k" second⟩, ⟨0, start, .dropped⟩,
        ⟨1, start, .granted "k" ⟨"k", "b", ⟨1⟩, ⟨30000000000⟩, 1⟩⟩] ∧
    settled 0 [⟨1, start, .queued "k" second⟩, ⟨0, start, .dropped⟩] := by
  intro acquire acts first second start
  have hforward : Site.single.crowd.forward acts := by decide +kernel
  have hlog : Site.single.crowd.log acts =
      [⟨0, start, .queued "k" first⟩, ⟨1, start, .queued "k" second⟩, ⟨0, start, .dropped⟩,
        ⟨1, start, .granted "k" ⟨"k", "b", ⟨1⟩, ⟨30000000000⟩, 1⟩⟩] := by decide +kernel
  obtain ⟨-, -, -, horder⟩ := grants_in_order Site.single acts rfl hforward
  exact ⟨hforward, hlog, horder [] [] [_] [] _ _ _ "k" first second _ hlog rfl rfl rfl rfl rfl
    (by decide)⟩

end Crowd

end FencedSessions
