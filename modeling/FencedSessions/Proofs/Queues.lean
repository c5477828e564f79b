import FencedSessions.Proofs.Moves
import FencedSessions.Proofs.Ownership

/-! Who stands where in the queues of a lease store in memory. Every ticket is issued once, so no two
clients have the same one, and a client that found its ticket gone does not find it again. This holds
along every run, whatever the clock does and whichever calls fail. -/

namespace FencedSessions

open Site

namespace Standing

variable {σ : Standing} {p : String × Nat}

theorem place_of_removal (h : σ.removal? = some p) : σ.place? = some p := by
  unfold removal? at h
  split at h
  · exact h
  · exact h
  · exact h
  · cases h

theorem place_of_revocation (h : σ.revocation? = some p) : σ.place? = some p := by
  unfold revocation? at h
  split at h
  · cases h
  · exact h
  · cases h

theorem place_ofRevocation {rev : Option (String × Nat)} : (ofRevocation rev).place? = rev := by
  cases rev <;> rfl

end Standing

namespace Shift

variable {s s' : Site} {σ σ' : Standing} {rev : Option (String × Nat)} {news : Option News}

/-- What a shift may do to the queue of a key: leave it, append a ticket that becomes the client's
own, drop the tickets whose deadline has come, or remove the client's ticket. -/
theorem queue_cases (h : Shift s s' σ σ' rev news) (q : String) :
    KeyState.SameQueue (s.keyState q) (s'.keyState q) ∨
    (∃ holder deadline,
      KeyState.SameQueue ((s.keyState q).enqueue s.now holder deadline).2 (s'.keyState q) ∧
      σ'.place? = some (q, (s.keyState q).lastTicket + 1)) ∨
    KeyState.SameQueue ((s.keyState q).prune s.now) (s'.keyState q) ∨
    ∃ n, KeyState.SameQueue ((s.keyState q).remove n).2 (s'.keyState q) ∧
      σ.removal? = some (q, n) := by
  have hrequeued {key : String} {k : KeyState} (h : Requeued s s' key k) :
      KeyState.SameQueue (s.keyState q) (s'.keyState q) ∨
        (q = key ∧ KeyState.SameQueue k (s'.keyState q)) := by
    by_cases hq : q = key
    · subst hq
      exact Or.inr ⟨rfl, h.here⟩
    · exact Or.inl (h.others q hq)
  have hswept {key : String} {n : Nat} (h : Swept s s' key n) (hσ : σ.removal? = some (key, n)) :
      KeyState.SameQueue (s.keyState q) (s'.keyState q) ∨
        ∃ n, KeyState.SameQueue ((s.keyState q).remove n).2 (s'.keyState q) ∧
          σ.removal? = some (q, n) := by
    rcases h with h | ⟨h, -⟩
    · rcases hrequeued h with hsame | ⟨rfl, hremoved⟩
      · exact Or.inl hsame
      · exact Or.inr ⟨n, hremoved, hσ⟩
    · exact Or.inl (h q)
  cases h with
  | apart h => exact Or.inl (h q)
  | started h hd => exact Or.inl (h q)
  | refused h hσ => exact Or.inl (h q)
  | moved h first lost => exact Or.inl (h q)
  | granted h => exact Or.inl (h q)
  | abandoned h => exact Or.inl (h q)
  | dropped h => exact Or.inl (h q)
  | joined ht h =>
    rcases hrequeued h with hsame | ⟨rfl, hqueue⟩
    · exact Or.inl hsame
    · cases ht
      exact Or.inr (Or.inl ⟨_, _, hqueue, rfl⟩)
  | rejoined ht h first lost =>
    rcases hrequeued h with hsame | ⟨rfl, hqueue⟩
    · exact Or.inl hsame
    · cases ht
      exact Or.inr (Or.inl ⟨_, _, hqueue, rfl⟩)
  | looked hk h first lost =>
    rcases hrequeued h with hsame | ⟨rfl, hqueue⟩
    · exact Or.inl hsame
    · cases hk
      exact Or.inr (Or.inr (Or.inl hqueue))
  | took h =>
    rcases hswept h rfl with hsame | hremoved
    · exact Or.inl hsame
    · exact Or.inr (Or.inr (Or.inr hremoved))
  | left h =>
    rcases hswept h rfl with hsame | hremoved
    · exact Or.inl hsame
    · exact Or.inr (Or.inr (Or.inr hremoved))
  | revoked h =>
    rcases hswept h rfl with hsame | hremoved
    · exact Or.inl hsame
    · exact Or.inr (Or.inr (Or.inr hremoved))

theorem numbered (h : Shift s s' σ σ' rev news) {q : String} (hk : (s.keyState q).Numbered) :
    (s'.keyState q).Numbered := by
  rcases h.queue_cases q with h | ⟨holder, deadline, h, -⟩ | h | ⟨n, h, -⟩
  · exact hk.of_same h
  · exact (hk.enqueue s.now holder deadline).of_same h
  · exact (hk.prune s.now).of_same h
  · have hremoved : ((s.keyState q).remove n).2.Numbered := hk.filter rfl rfl
    exact hremoved.of_same h

theorem last_le (h : Shift s s' σ σ' rev news) (q : String) :
    (s.keyState q).lastTicket ≤ (s'.keyState q).lastTicket := by
  rcases h.queue_cases q with h | ⟨holder, deadline, h, -⟩ | h | ⟨n, h, -⟩
  · exact Nat.le_of_eq h.2.symm
  · rw [h.2]
    exact Nat.le_succ _
  · exact Nat.le_of_eq h.2.symm
  · exact Nat.le_of_eq h.2.symm

/-- The tickets of a queue were there before, but for the one that the client has taken. -/
theorem tickets_sub (h : Shift s s' σ σ' rev news) {q : String} {t : Ticket}
    (ht : t ∈ (s'.keyState q).tickets) : t ∈ (s.keyState q).tickets ∨
      (t.number = (s.keyState q).lastTicket + 1 ∧ σ'.place? = some (q, t.number)) := by
  rcases h.queue_cases q with h | ⟨holder, deadline, h, hplace⟩ | h | ⟨n, h, -⟩
  · exact Or.inl (h.1 ▸ ht)
  · rw [h.1] at ht
    rcases KeyState.mem_enqueue.mp ht with ⟨hold, -⟩ | rfl
    · exact Or.inl hold
    · exact Or.inr ⟨rfl, hplace⟩
  · rw [h.1] at ht
    exact Or.inl (KeyState.mem_prune.mp ht).1
  · rw [h.1] at ht
    exact Or.inl (KeyState.mem_remove.mp ht).1

/-- A ticket stays, unless its deadline has come or the client removes it. -/
theorem tickets_stay (h : Shift s s' σ σ' rev news) {q : String} {t : Ticket}
    (ht : t ∈ (s.keyState q).tickets) : t ∈ (s'.keyState q).tickets ∨ t.deadline ≤ s.now ∨
      σ.removal? = some (q, t.number) := by
  by_cases hdue : s.now < t.deadline
  · rcases h.queue_cases q with h | ⟨holder, deadline, h, -⟩ | h | ⟨n, h, hremoval⟩
    · exact Or.inl (h.1 ▸ ht)
    · exact Or.inl (h.1 ▸ KeyState.mem_enqueue.mpr (Or.inl ⟨ht, hdue⟩))
    · exact Or.inl (h.1 ▸ KeyState.mem_prune.mpr ⟨ht, hdue⟩)
    · by_cases hn : t.number = n
      · exact Or.inr (Or.inr (hn ▸ hremoval))
      · exact Or.inl (h.1 ▸ KeyState.mem_remove.mpr ⟨ht, hn⟩)
  · exact Or.inr (Or.inl (Instant.not_lt.mp hdue))

/-- The client's ticket was its own before, or it was issued just now. -/
theorem place (h : Shift s s' σ σ' rev news) {q : String} {n : Nat}
    (hn : σ'.place? = some (q, n)) : σ.place? = some (q, n) ∨
      (n = (s.keyState q).lastTicket + 1 ∧ n ≤ (s'.keyState q).lastTicket) := by
  cases h with
  | apart h => cases hn
  | started h hd => cases hn
  | refused h hσ => cases hn
  | moved h first lost => exact Or.inl hn
  | granted h => exact Or.inl hn
  | looked hk h first lost => exact Or.inl hn
  | abandoned h => cases hn
  | dropped h => cases hn
  | took h => cases hn
  | left h => cases hn
  | revoked h => cases hn
  | joined ht h =>
    cases ht
    cases hn
    exact Or.inr ⟨rfl, Nat.le_of_eq h.here.2.symm⟩
  | rejoined ht h first lost =>
    cases ht
    cases hn
    exact Or.inr ⟨rfl, Nat.le_of_eq h.here.2.symm⟩

/-- Who is told of a ticket waits with it, and had none that was still to be found. -/
theorem queued (h : Shift s s' σ σ' rev news) {q : String} {t : Ticket}
    (hnews : news = some (.queued q t)) :
    (∃ giveUp stage, σ' = .waits q t giveUp stage) ∧
      t.number = (s.keyState q).lastTicket + 1 ∧ t.number ≤ (s'.keyState q).lastTicket ∧
      ((∃ d, σ = .comes d) ∨ ∃ q t giveUp, σ = .waits q t giveUp .lost) := by
  cases h with
  | joined ht h =>
    cases hnews
    cases ht
    exact ⟨⟨_, _, rfl⟩, rfl, Nat.le_of_eq h.here.2.symm, Or.inl ⟨_, rfl⟩⟩
  | rejoined ht h first lost =>
    cases hnews
    cases ht
    exact ⟨⟨_, _, rfl⟩, rfl, Nat.le_of_eq h.here.2.symm, Or.inr ⟨_, _, _, rfl⟩⟩
  | _ => cases hnews

/-- A ticket that is to be removed in the background was the client's own. -/
theorem revocation (h : Shift s s' σ σ' rev news) {p : String × Nat} (hp : rev = some p) :
    σ.place? = some p ∧ σ' = .out := by
  cases h with
  | abandoned h => exact ⟨hp, rfl⟩
  | dropped h => exact ⟨Standing.place_of_revocation hp, rfl⟩
  | _ => cases hp

/-- A ticket that is gone is not in the queue. -/
theorem lost (h : Shift s s' σ σ' rev news) {q : String} {t : Ticket} {giveUp : Instant}
    (hσ : σ' = .waits q t giveUp .lost) : ∀ u ∈ (s'.keyState q).tickets, u.number ≠ t.number := by
  cases h with
  | moved h first lost =>
    cases hσ
    exact absurd rfl lost
  | rejoined ht h first lost =>
    cases hσ
    exact absurd rfl lost
  | looked hk h first lost =>
    cases hσ
    intro u hu
    rw [h.here.1] at hu
    cases hk
    exact KeyState.position_none (lost rfl).1 u hu
  | joined ht h => cases hσ
  | _ => cases hσ

end Shift

namespace Crowd

/-- The queues are in order: tickets are numbered, and every client's ticket is its own. -/
structure Lined (c : Crowd) : Prop where
  memory : ∃ m, c.site.leases = .memory m
  numbered : ∀ q, (c.site.keyState q).Numbered
  issued : ∀ i q n, (c.standing i).place? = some (q, n) → n ≤ (c.site.keyState q).lastTicket
  unique : ∀ i j p, (c.standing i).place? = some p → (c.standing j).place? = some p → i = j
  lost : ∀ i q t giveUp, c.standing i = .waits q t giveUp .lost →
    ∀ u ∈ (c.site.keyState q).tickets, u.number ≠ t.number

variable {c : Crowd} {a : Act} {i j : Nat} {rev : Option (String × Nat)} {news : Option News}

/-- Where a client's ticket comes from: it had it, the client that moved had it, or it was issued to
the client that moved. -/
theorem Moves.place (h : Moves c a i rev news) {q : String} {n : Nat}
    (hn : ((c.act a).standing j).place? = some (q, n)) :
    (∃ j', (c.standing j').place? = some (q, n) ∧
      (j' = j ∨ (j' = i ∧ j = c.clients.length ∧ (c.act a).standing i = .out))) ∨
    (j = i ∧ n = (c.site.keyState q).lastTicket + 1 ∧
      n ≤ ((c.act a).site.keyState q).lastTicket) := by
  by_cases hj : j = i
  · subst hj
    rcases h.shift.place hn with hold | hnew
    · exact Or.inl ⟨j, hold, Or.inl rfl⟩
    · exact Or.inr ⟨rfl, hnew⟩
  · by_cases hstarted : j = c.clients.length
    · subst hstarted
      rw [h.started, Standing.place_ofRevocation] at hn
      obtain ⟨hplace, hout⟩ := h.shift.revocation hn
      exact Or.inl ⟨i, hplace, Or.inr ⟨rfl, rfl, hout⟩⟩
    · rw [h.others j hj hstarted] at hn
      exact Or.inl ⟨j, hn, Or.inl rfl⟩

/-- Who has something to do with a queue and does not move stays as it is. -/
theorem Moves.stays (h : Moves c a i rev news) (hj : j ≠ i) (hσ : c.standing j ≠ .out) :
    (c.act a).standing j = c.standing j := by
  refine h.others j hj ?_
  rintro rfl
  exact hσ (standing_beyond (Nat.le_refl _))

/-- Who has not moved and is no new task was as it is. -/
theorem Moves.stayed (h : Moves c a i rev news) (hj : j ≠ i)
    (hout : (c.act a).standing j ≠ .out)
    (hrevokes : ∀ key n, (c.act a).standing j ≠ .revokes key n) :
    c.standing j = (c.act a).standing j := by
  refine (h.others j hj ?_).symm
  rintro rfl
  cases rev with
  | none => exact hout h.started
  | some p => exact hrevokes _ _ h.started

/-- The news of an act is about the client that moved. -/
theorem Moves.entry (h : Moves c a i rev news) {e : Entry} (he : c.news a = [e]) :
    e.client = i ∧ e.time = c.now ∧ news = some e.news := by
  rw [h.noted] at he
  cases news with
  | none => cases he
  | some n =>
    cases he
    exact ⟨rfl, rfl, rfl⟩

theorem Lined.act (h : c.Lined) (a : Act) : (c.act a).Lined := by
  obtain ⟨m, hm⟩ := h.memory
  obtain ⟨i, rev, news, hmoves⟩ := act_moves hm a
  constructor
  · exact act_memory hm a
  · exact fun q => hmoves.shift.numbered (h.numbered q)
  · intro j q n hn
    rcases hmoves.place hn with ⟨j', hold, -⟩ | ⟨-, -, hle⟩
    · exact Nat.le_trans (h.issued j' q n hold) (hmoves.shift.last_le q)
    · exact hle
  · intro j₁ j₂ p h₁ h₂
    obtain ⟨q, n⟩ := p
    rcases hmoves.place h₁ with ⟨j₁', hold₁, hj₁⟩ | ⟨rfl, hnew₁, -⟩
    · rcases hmoves.place h₂ with ⟨j₂', hold₂, hj₂⟩ | ⟨rfl, hnew₂, -⟩
      · -- a ticket that passes to a task leaves its client with none
        have hout {j : Nat} (hj : ((c.act a).standing j).place? = some (q, n))
            (h : (c.act a).standing j = .out) : False := by
          rw [h] at hj
          cases hj
        obtain rfl := h.unique j₁' j₂' _ hold₁ hold₂
        rcases hj₁ with rfl | ⟨rfl, rfl, hgone₁⟩
        · rcases hj₂ with rfl | ⟨rfl, -, hgone₂⟩
          · rfl
          · exact (hout h₁ hgone₂).elim
        · rcases hj₂ with rfl | ⟨-, rfl, -⟩
          · exact (hout h₂ hgone₁).elim
          · rfl
      · have hle := h.issued j₁' q n hold₁
        omega
    · rcases hmoves.place h₂ with ⟨j₂', hold₂, -⟩ | ⟨rfl, -, -⟩
      · have hle := h.issued j₂' q n hold₂
        omega
      · rfl
  · intro j q t giveUp hj u hu
    by_cases hi : j = i
    · subst hi
      exact hmoves.shift.lost hj u hu
    · have hj' : c.standing j = .waits q t giveUp .lost := by
        by_cases hstarted : j = c.clients.length
        · subst hstarted
          rw [hmoves.started] at hj
          cases rev <;> cases hj
        · rw [← hmoves.others j hi hstarted]
          exact hj
      rcases hmoves.shift.tickets_sub hu with hold | ⟨hnew, -⟩
      · exact h.lost j q t giveUp hj' u hold
      · have hle := h.issued j q t.number (by rw [hj']; rfl)
        omega

theorem Lined.run (h : c.Lined) (acts : List Act) : (c.run acts).Lined :=
  run_invariant (fun _ a h => h.act a) h acts

theorem run_last_le (h : c.Lined) (acts : List Act) (q : String) :
    (c.site.keyState q).lastTicket ≤ ((c.run acts).site.keyState q).lastTicket := by
  refine (run_invariant (P := fun d => d.Lined ∧
    (c.site.keyState q).lastTicket ≤ (d.site.keyState q).lastTicket) ?_ ⟨h, Nat.le_refl _⟩ acts).2
  rintro d a ⟨h, hle⟩
  obtain ⟨m, hm⟩ := h.memory
  obtain ⟨i, rev, news, hmoves⟩ := act_moves hm a
  exact ⟨h.act a, Nat.le_trans hle (hmoves.shift.last_le q)⟩

/-- Before the first client comes the queues of an unused store are in order. -/
theorem lined_crowd {s : Site} (h : s.leases = .memory {}) : s.crowd.Lined where
  memory := ⟨{}, h⟩
  numbered q := by
    have hk : s.crowd.site.keyState q = {} := by
      change s.keyState q = {}
      unfold Site.keyState
      rw [h]
      rfl
    rw [hk]
    exact KeyState.numbered_empty
  issued i q n h := by cases h
  unique i j p h := by cases h
  lost i q t giveUp h := by cases h

end Crowd

end FencedSessions
