import FencedSessions.Proofs.Notifiers
import FencedSessions.Proofs.Releases

/-! Who is next. A caller whose ticket is first in the queue of a free key stays next, whatever the others do,
as long as no time passes and none of them takes the key that was told before that it is first; and when it was
woken it is granted the key within three turns. Since every lock that lets go of a key wakes its callers, no
wake-up is lost. -/

namespace FencedSessions

open Site

/-- Whether a client has found itself first and is about to ask for the grant. -/
def Activity.asks : Activity → Bool
  | .acquire _ (.granting _) _ | .series _ (.acquiring (.granting _)) => true
  | _ => false

/-- Who has found itself first is about to ask for the grant, for itself or for a step. -/
theorem Activity.first_cases {a : Activity} {key : String} {t : Ticket} {giveUp : Instant}
    (h : a.standing = .waits key t giveUp .first) :
    (∃ r w keep, a = .acquire r (.granting w) keep ∧ r.key = key) ∨
      ∃ x w, a = .series x (.acquiring (.granting w)) ∧ x.current.id.text = key := by
  have hphase {p : AcquirePhase} {key' : String} (h : p.standing key' = .waits key t giveUp .first) :
      (∃ w, p = .granting w) ∧ key' = key := by
    cases p with
    | granting w =>
      cases h
      exact ⟨⟨w, rfl⟩, rfl⟩
    | _ => cases h
  cases a with
  | acquire r p keep =>
    obtain ⟨⟨w, rfl⟩, hkey⟩ := hphase h
    exact .inl ⟨r, w, keep, rfl, hkey⟩
  | series x p =>
    cases p with
    | acquiring p =>
      obtain ⟨⟨w, rfl⟩, hkey⟩ := hphase h
      exact .inr ⟨x, w, rfl, hkey⟩
    | _ => cases h
  | _ => cases h

theorem Activity.asks_of_standing {a : Activity} {key : String} {t : Ticket} {giveUp : Instant}
    (h : a.standing = .waits key t giveUp .first) : a.asks := by
  obtain ⟨r, w, keep, rfl, -⟩ | ⟨x, w, rfl, -⟩ := first_cases h <;> rfl

theorem Activity.caller_of_first {s : Site} {a : Activity} {key : String} {t : Ticket} {giveUp : Instant}
    (h : a.standing = .waits key t giveUp .first) :
    ∃ q w, a.caller? s = some (q, .granting w) ∧ q.key = key := by
  obtain ⟨r, w, keep, rfl, hkey⟩ | ⟨x, w, rfl, hkey⟩ := first_cases h
  · exact ⟨r, w, rfl, hkey⟩
  · exact ⟨_, w, rfl, hkey⟩

/-- A caller that asks for the grant and is not told of one leaves the lease as it was. -/
theorem AcquirePhase.lease_ungranted {q : AcquireRequest} {s : Site} {w : Waiter} {m : MemoryLeases}
    (hm : s.leases = .memory m) (h : ∀ l, .granted q.key l ∉ (granting w).news q s) :
    (((granting w).step q s).2.1.keyState q.key).lease = (s.keyState q.key).lease := by
  rw [news_eq q s rfl] at h
  simp only [told, call?] at h
  simp only [step]
  have hc := guarded_called s q.node q.key (.grant none q.holder w.ticket.position q.ttl)
  generalize s.guarded q.node q.key (.grant none q.holder w.ticket.position q.ttl) = called at h hc
  obtain ⟨answer, s'⟩ := called
  have hlease : (s'.keyState q.key).lease = (s.keyState q.key).lease := by
    rcases hc.followed hm with heq | ⟨heq, hanswer⟩
    · rw [heq]
    · rw [heq]
      refine KeyState.grant_refused fun l hl => h l ?_
      cases hanswer (some l) hl
      exact List.mem_append_left _ (List.mem_singleton_self _)
  rcases answer with e | _ | l <;> exact hlease

/-- Whether a client is dropped. -/
def Act.drops (j : Nat) : Act → Bool
  | .leave i => i = j
  | _ => false

namespace Crowd

variable {c : Crowd} {a : Act} {i j n r : Nat} {q : AcquireRequest} {p : AcquirePhase} {key : String} {t : Ticket}
  {giveUp : Instant} {rev : Option (String × Nat)} {news : Option News}

/-- The acquire that a client waits in, with its ticket. -/
def waiter? (c : Crowd) (i : Nat) : Option (AcquireRequest × Waiter) :=
  (c.caller? i).bind fun (q, p) => p.waiter?.map (q, ·)

theorem caller_of_waiter {w : Waiter} (h : c.waiter? j = some (q, w)) :
    ∃ p, c.caller? j = some (q, p) ∧ p.waiter? = some w := by
  obtain ⟨⟨q', p⟩, hj, hw⟩ := Option.bind_eq_some_iff.mp h
  obtain ⟨w', hw', he⟩ := Option.map_eq_some_iff.mp hw
  cases he
  exact ⟨p, hj, hw'⟩

theorem standing_caller (h : c.caller? j = some (q, p)) : c.standing j = p.standing q.key := by
  obtain ⟨x, hx, hcaller⟩ := Option.bind_eq_some_iff.mp h
  rw [standing_some hx, Activity.caller?_standing hcaller]

/-- Whoever asks for a grant has found itself first. -/
theorem first_of_call {expected : Option Fence} {holder : String} {position : Nat} {ttl : Span}
    (h : c.call? a = some (key, .grant expected holder position ttl)) :
    ∃ i t giveUp, a = .go i ∧ c.standing i = .waits key t giveUp .first := by
  cases a with
  | go i =>
    obtain ⟨x, hx, hcall⟩ := Option.bind_eq_some_iff.mp h
    obtain ⟨t, giveUp, hfirst⟩ := Activity.first_of_grant hcall
    exact ⟨i, t, giveUp, rfl, (standing_some hx).trans hfirst⟩
  | _ => cases h

/-- Who is granted a key has found itself first. -/
theorem first_of_news {e : Entry} {l : Lease} (hlined : c.Lined) (he : e ∈ c.news a)
    (hnews : e.news = .granted key l) :
    e.time = c.now ∧ ∃ t giveUp, c.standing e.client = .waits key t giveUp .first := by
  obtain ⟨m, hm⟩ := hlined.memory
  obtain ⟨i, rev, news, hmoves⟩ := act_moves hm a
  rw [hmoves.noted] at he
  obtain ⟨n, hn, rfl⟩ := List.mem_map.mp he
  have hshift := hmoves.shift
  obtain rfl : n = .granted key l := hnews
  rw [Option.mem_toList.mp hn] at hshift
  refine ⟨rfl, (?_ : ∃ t giveUp, c.standing i = .waits key t giveUp .first)⟩
  generalize c.standing i = before, (c.act a).standing i = after at hshift ⊢
  cases hshift
  exact ⟨_, _, rfl⟩

/-- A free key stays free until it is granted to a client. -/
theorem free_act (hlined : c.Lined) (hfree : (c.site.keyState key).liveLease c.now = none)
    (hnone : ∀ e ∈ c.news a, ∀ l, e.news ≠ .granted key l) :
    ((c.act a).site.keyState key).liveLease c.now = none := by
  obtain ⟨m, hm⟩ := hlined.memory
  rcases act_follows hm a key with heq | ⟨op, hcall, heq⟩
  · rw [heq]
    exact hfree
  · rw [heq]
    refine KeyState.run_free hfree fun expected holder position ttl hgrant => ?_
    subst hgrant
    obtain ⟨i, t, giveUp, rfl, hfirst⟩ := first_of_call hcall
    obtain ⟨x, hx, hstanding⟩ :
        ∃ x, c.clients[i]? = some x ∧ x.activity.standing = .waits key t giveUp .first := by
      unfold standing at hfirst
      split at hfirst
      · exact ⟨_, ‹_›, hfirst⟩
      · cases hfirst
    obtain ⟨q, w, hcaller, rfl⟩ := Activity.caller_of_first (s := c.site) hstanding
    have hsite : (c.act (.go i)).site = _ := c.go_site hx
    rw [← heq, hsite, (Activity.caller?_site hcaller).alike.keyState]
    refine AcquirePhase.lease_ungranted hm fun l hl => ?_
    refine hnone ⟨i, c.now, .granted q.key l⟩ ?_ l rfl
    simp only [news, hx, Activity.caller?_news hcaller]
    exact List.mem_map_of_mem hl

/-- Who has found itself first had done so before, or has just looked. -/
theorem Moves.first (h : Moves c a i rev news) (hj : (c.act a).standing j = .waits key t giveUp .first) :
    j ≠ i ∧ c.standing j = .waits key t giveUp .first ∨
      (c.standing j).place? = some (key, t.number) ∧
        ∃ u ts, ((c.site.keyState key).prune c.now).tickets = u :: ts ∧ u.number = t.number ∧
          ((c.act a).site.keyState key).tickets = u :: ts := by
  by_cases hi : j = i
  · subst hi
    have hshift := h.shift
    rw [hj] at hshift
    exact .inr hshift.told_first
  · exact .inl ⟨hi, (h.stayed hi (by rw [hj]; nofun) (by rw [hj]; nofun)).trans hj⟩

section First

/-! Those who have found themselves first. -/

/-- No ticket in the queue is before that of a client which has found itself first. -/
def Foremost (c : Crowd) : Prop :=
  ∀ i key t giveUp, c.standing i = .waits key t giveUp .first →
    ∀ u ∈ (c.site.keyState key).tickets, t.number ≤ u.number

theorem Foremost.act (h : c.Foremost) (hlined : c.Lined) (a : Act) : (c.act a).Foremost := by
  intro j key t giveUp hj u hu
  obtain ⟨m, hm⟩ := hlined.memory
  obtain ⟨i, rev, news, hmoves⟩ := act_moves hm a
  rcases hmoves.first hj with ⟨-, hbefore⟩ | ⟨-, v, ts, -, hv, htickets⟩
  · rcases hmoves.shift.tickets_sub hu with hold | ⟨hnew, -⟩
    · exact h j key t giveUp hbefore u hold
    · have hissued := hlined.issued j key t.number (by rw [hbefore]; rfl)
      omega
  · rw [← hv]
    exact ((hlined.act a).numbered key).first_le htickets u hu

theorem Foremost.run (h : c.Foremost) (hlined : c.Lined) (acts : List Act) : (c.run acts).Foremost :=
  (run_invariant (P := fun c => c.Foremost ∧ c.Lined)
    (fun _ a h => ⟨h.1.act h.2 a, h.2.act a⟩) ⟨h, hlined⟩ acts).1

/-- Whether no look is divided by time that passes: none does while a client has found itself first and has not
yet asked for the grant. -/
def undivided (c : Crowd) (a : Act) : Bool :=
  (c.act a).now = c.now || (c.act a).clients.all fun x => !x.activity.asks

/-- Who has found itself first has its ticket in the queue, with its deadline ahead. -/
def Prompt (c : Crowd) : Prop :=
  ∀ i key t giveUp, c.standing i = .waits key t giveUp .first →
    ∃ u ∈ (c.site.keyState key).tickets, u.number = t.number ∧ c.now < u.deadline

theorem now_of_undivided (h : undivided c a) (hj : (c.act a).standing j = .waits key t giveUp .first) :
    (c.act a).now = c.now := by
  rcases (Bool.or_eq_true _ _).mp h with hnow | hnone
  · exact of_decide_eq_true hnow
  · unfold standing at hj
    split at hj
    · rename_i x hx
      have hasks := List.all_eq_true.mp hnone x (List.mem_of_getElem? hx)
      simp [Activity.asks_of_standing hj] at hasks
    · cases hj

theorem Prompt.act (h : c.Prompt) (hlined : c.Lined) (hundivided : undivided c a) : (c.act a).Prompt := by
  intro j key t giveUp hj
  obtain ⟨m, hm⟩ := hlined.memory
  obtain ⟨i, rev, news, hmoves⟩ := act_moves hm a
  rw [now_of_undivided hundivided hj]
  rcases hmoves.first hj with ⟨hne, hbefore⟩ | ⟨-, u, ts, hts, hu, htickets⟩
  · obtain ⟨u, hmem, hu, hdue⟩ := h j key t giveUp hbefore
    rcases hmoves.shift.tickets_stay hmem with hstay | hpast | hremoval
    · exact ⟨u, hstay, hu, hdue⟩
    · exact absurd hdue (Instant.not_lt.mpr hpast)
    · -- nobody else removes the ticket
      rw [hu] at hremoval
      exact absurd (hlined.unique j i _ (by rw [hbefore]; rfl) (Standing.place_of_removal hremoval)) hne
  · have hpruned : u ∈ ((c.site.keyState key).prune c.now).tickets := by
      rw [hts]
      exact List.mem_cons_self
    refine ⟨u, ?_, hu, (KeyState.mem_prune.mp hpruned).2⟩
    rw [htickets]
    exact List.mem_cons_self

theorem Prompt.run (h : c.Prompt) (hlined : c.Lined) {acts : List Act} (hundivided : c.along undivided acts) :
    (c.run acts).Prompt :=
  (along_invariant (P := fun c => c.Prompt ∧ c.Lined)
    (fun _ a hone h => ⟨h.1.act h.2 hone, h.2.act a⟩) ⟨h, hlined⟩ hundivided).1

/-- A client has found itself first, and its ticket is no longer in the queue. -/
def Late (c : Crowd) (key : String) (i : Nat) : Prop :=
  ∃ t giveUp, c.standing i = .waits key t giveUp .first ∧ ∀ u ∈ (c.site.keyState key).tickets, u.number ≠ t.number

end First

variable {late : Nat → Prop}

/-- The key is free, and the ticket with a number, a client's own, is first in its queue. Nobody else has been
told that it is, but for clients which were late from the start. -/
structure Next (c : Crowd) (key : String) (n j : Nat) (late : Nat → Prop) : Prop where
  lined : c.Lined
  free : (c.site.keyState key).liveLease c.now = none
  head : ∃ t ts, (c.site.keyState key).tickets = t :: ts ∧ t.number = n ∧ c.now < t.deadline
  own : ∃ t giveUp stage, c.standing j = .waits key t giveUp stage ∧ t.number = n ∧ stage ≠ .leaving
  alone : ∀ i t giveUp, c.standing i = .waits key t giveUp .first → i = j ∨ late i

theorem Next.place (h : c.Next key n j late) : (c.standing j).place? = some (key, n) := by
  obtain ⟨t, giveUp, stage, hj, rfl, -⟩ := h.own
  rw [hj]
  rfl

theorem Next.removal (h : c.Next key n j late) : (c.standing j).removal? = none := by
  obtain ⟨t, giveUp, stage, hj, -, hstays⟩ := h.own
  rw [hj]
  cases stage with
  | leaving => exact absurd rfl hstays
  | _ => rfl

/-- A client stays next while no time passes, as long as it waits and nobody is granted the key. -/
theorem Next.act (h : c.Next key n j late) (hnow : (c.act a).now = c.now)
    (hown : ∃ t giveUp stage, (c.act a).standing j = .waits key t giveUp stage ∧ t.number = n ∧ stage ≠ .leaving)
    (hnone : ∀ e ∈ c.news a, ∀ l, e.news ≠ .granted key l) : (c.act a).Next key n j late := by
  obtain ⟨m, hm⟩ := h.lined.memory
  obtain ⟨i, rev, news, hmoves⟩ := act_moves hm a
  obtain ⟨t, ts, hts, hn, hdue⟩ := h.head
  have hpruned := KeyState.prune_head hts hdue
  refine ⟨h.lined.act a, ?_, ?_, hown, ?_⟩
  · rw [hnow]
    exact free_act h.lined h.free hnone
  · rw [hnow]
    rcases hmoves.shift.queue_cases key with hq | ⟨holder, deadline, hq, -⟩ | hq | ⟨n', hq, hremoval⟩
    · exact ⟨t, ts, hq.1.trans hts, hn, hdue⟩
    · obtain ⟨us, hus⟩ := KeyState.enqueue_head hts hdue holder deadline
      exact ⟨t, us, hq.1.trans hus, hn, hdue⟩
    · exact ⟨t, _, hq.1.trans hpruned, hn, hdue⟩
    · -- the ticket is the client's own, and it does not remove it
      have hne : t.number ≠ n' := by
        rintro rfl
        rw [hn] at hremoval
        obtain rfl := h.lined.unique i j _ (Standing.place_of_removal hremoval) h.place
        rw [h.removal] at hremoval
        cases hremoval
      refine ⟨t, ts.filter (·.number ≠ n'), hq.1.trans ?_, hn, hdue⟩
      simp [KeyState.remove, hts, hne]
  · intro i' t' giveUp hi'
    rcases hmoves.first hi' with ⟨-, hbefore⟩ | ⟨hplace, u, us, hus, hu, -⟩
    · exact h.alone i' t' giveUp hbefore
    · rw [hpruned] at hus
      obtain rfl := (List.cons.inj hus).1
      rw [← hu, hn] at hplace
      exact .inl (h.lined.unique i' j _ hplace h.place)

/-- A caller that is near stays so while the others act. -/
theorem near_other (hj : c.caller? j = some (q, p)) (hp : p.Near n r) (hgo : a ≠ .go j) (hleave : a ≠ .leave j) :
    ∃ p', (c.act a).caller? j = some (q, p') ∧ p'.Near n r := by
  obtain ⟨x, hx, hcaller⟩ := Option.bind_eq_some_iff.mp hj
  obtain ⟨y, hy, p', hp', hnear⟩ := kept_act
    (P := fun y => ∃ p', y.activity.caller? c.site = some (q, p') ∧ p'.Near n r)
    (fun y ⟨p', hp', hnear⟩ => ⟨p'.wake, by rw [Activity.caller?_wake, hp']; rfl, hnear.wake⟩) hx
    (fun h => absurd h hgo) (fun h => absurd h hleave) fun _ _ => ⟨p, hcaller, hp⟩
  refine ⟨p', ?_, hnear⟩
  simp only [caller?, hy, Option.bind_some]
  rw [Activity.caller?_settings (c.act_settings a)]
  exact hp'

/-- A caller that is next makes a turn: it is granted the key, or it is a turn nearer. -/
theorem Next.go (h : c.Next q.key n j late) (hj : c.caller? j = some (q, p)) (hp : p.Near n r)
    (hsmooth : c.site.smooth q.node) (hrange : (c.now.after? q.ttl).isSome) :
    (∃ l, ⟨j, c.now, .granted q.key l⟩ ∈ c.news (.go j)) ∨
      ∃ p' r', (c.act (.go j)).caller? j = some (q, p') ∧ p'.Near n r' ∧ r' + 1 = r := by
  obtain ⟨m, hm⟩ := h.lined.memory
  cases hp with
  | @granting w hw =>
    left
    obtain ⟨expiry, hexpiry⟩ := Option.isSome_iff_exists.mp hrange
    have hgrant := KeyState.grant_free h.free hexpiry q.key q.holder w.ticket.position
    have hanswer := smooth_guarded hsmooth hm hgrant
    refine ⟨⟨q.key, q.holder, (c.site.keyState q.key).lastFence.next, expiry, w.ticket.position⟩, ?_⟩
    rw [news_caller hj, AcquirePhase.news_eq _ _ rfl]
    refine List.mem_map_of_mem (List.mem_append_left _ ?_)
    simp only [AcquirePhase.told, AcquirePhase.call?, hanswer]
    exact List.mem_singleton_self _
  | @checking w hw =>
    refine .inr ⟨.granting w, 1, ?_, .granting hw, rfl⟩
    obtain ⟨t, ts, hts, hn, hdue⟩ := h.head
    have hanswer := smooth_guarded hsmooth hm (KeyState.position_head hts hdue)
    rw [hn, ← hw] at hanswer
    have hstep : ((AcquirePhase.checking w).step q c.site).1 = .granting w := by
      simp only [AcquirePhase.step]
      generalize c.site.guarded q.node q.key (.position w.ticket.number) = called at hanswer
      obtain ⟨answer, s'⟩ := called
      cases hanswer
      rfl
    have hgo := go_caller hj (by rw [hstep]; rfl)
    rw [hstep] at hgo
    exact hgo.1
  | @waiting w due hw hwoken =>
    exact .inr ⟨_, 2, (go_caller hj rfl).1, .checking hw, rfl⟩

/-- Whether nothing is in the way of a caller of a node: no time passes, no call is made to fail, and it is not
dropped. -/
def unhindered (node j : Nat) (c : Crowd) (a : Act) : Bool :=
  (c.act a).now = c.now && c.site.smooth node && !a.drops j

/-- Whether a caller makes a turn. -/
def turns (j : Nat) : Crowd → Act → Bool := goes j fun _ _ => true

/-- The key is granted to the caller that is next or to a late client, or the caller is as near as before, and
nearer if it has made a turn. -/
theorem Next.step (h : c.Next q.key n j late) (hj : c.caller? j = some (q, p)) (hp : p.Near n r)
    (hrange : (c.now.after? q.ttl).isSome) (ha : unhindered q.node j c a) :
    (∃ i l, (i = j ∨ late i) ∧ ⟨i, c.now, .granted q.key l⟩ ∈ c.news a) ∨
      (c.act a).Next q.key n j late ∧ ∃ p' r', (c.act a).caller? j = some (q, p') ∧ p'.Near n r' ∧
        (turns j c a).toNat + r' = r := by
  simp only [unhindered, Bool.and_eq_true, decide_eq_true_eq, Bool.not_eq_true'] at ha
  obtain ⟨⟨hnow, hsmooth⟩, hdrops⟩ := ha
  have hown {p' : AcquirePhase} {r' : Nat} (hj' : (c.act a).caller? j = some (q, p')) (hp' : p'.Near n r') :
      ∃ t giveUp stage, (c.act a).standing j = .waits q.key t giveUp stage ∧ t.number = n ∧ stage ≠ .leaving := by
    rw [standing_caller hj']
    exact hp'.standing q.key
  by_cases hgranted : ∃ e ∈ c.news a, ∃ l, e.news = .granted q.key l
  · obtain ⟨⟨i, now, news⟩, he, l, rfl⟩ := hgranted
    obtain ⟨rfl, t, giveUp, hfirst⟩ := first_of_news h.lined he rfl
    exact .inl ⟨i, l, h.alone i t giveUp hfirst, he⟩
  have hnone : ∀ e ∈ c.news a, ∀ l, e.news ≠ .granted q.key l := fun e he l hl => hgranted ⟨e, he, l, hl⟩
  by_cases hgo : a = .go j
  · subst hgo
    rcases h.go hj hp hsmooth hrange with ⟨l, hl⟩ | ⟨p', r', hj', hp', hr⟩
    · exact .inl ⟨j, l, .inl rfl, hl⟩
    · refine .inr ⟨h.act hnow (hown hj' hp') hnone, p', r', hj', hp', ?_⟩
      rw [turns, goes_go hj, Bool.toNat_true, Nat.add_comm]
      exact hr
  · have hleave : a ≠ .leave j := by
      rintro rfl
      simp [Act.drops] at hdrops
    obtain ⟨p', hj', hp'⟩ := near_other hj hp hgo hleave
    refine .inr ⟨h.act hnow (hown hj' hp') hnone, p', r, hj', hp', ?_⟩
    rw [turns, goes_other _ hgo, Bool.toNat_false, Nat.zero_add]

theorem Next.run (h : c.Next q.key n j late) (hj : c.caller? j = some (q, p)) (hp : p.Near n r)
    (hrange : (c.now.after? q.ttl).isSome) {acts : List Act} (hacts : c.along (unhindered q.node j) acts) :
    (∃ i l, (i = j ∨ late i) ∧ ⟨i, c.now, .granted q.key l⟩ ∈ c.log acts) ∨
      ∃ p' r', (c.run acts).caller? j = some (q, p') ∧ p'.Near n r' ∧ c.often (turns j) acts + r' = r := by
  induction acts generalizing c p r with
  | nil => exact .inr ⟨p, r, hj, hp, Nat.zero_add r⟩
  | cons a acts ih =>
    obtain ⟨ha, hrest⟩ := (Bool.and_eq_true _ _).mp hacts
    have hnow : (c.act a).now = c.now := by
      simp only [unhindered, Bool.and_eq_true, decide_eq_true_eq] at ha
      exact ha.1.1
    rw [log]
    rcases h.step hj hp hrange ha with ⟨i, l, hi, hl⟩ | ⟨h', p', r', hj', hp', hr⟩
    · exact .inl ⟨i, l, hi, List.mem_append_left _ hl⟩
    · rw [← hnow] at hrange
      rcases ih h' hj' hp' hrange hrest with ⟨i, l, hi, hl⟩ | ⟨p'', r'', hj'', hp'', hr'⟩
      · rw [hnow] at hl
        exact .inl ⟨i, l, hi, List.mem_append_right _ hl⟩
      · refine .inr ⟨p'', r'', hj'', hp'', ?_⟩
        rw [often, Nat.add_assoc, hr', hr]

/-- While a caller is near, not all clients have gone as far as they can. -/
theorem busy_of_near (hj : c.caller? j = some (q, p)) (hp : p.Near n r) : c.idle = false := by
  obtain ⟨x, hx, hcaller⟩ := Option.bind_eq_some_iff.mp hj
  cases hidle : c.idle with
  | false => rfl
  | true =>
    have hready := List.all_eq_true.mp hidle x (List.mem_of_getElem? hx)
    simp [Activity.ready, Activity.caller?_parked hcaller, hp.parked, Activity.readiness.ofDue] at hready

/-- The key is granted to a caller that is next and near, or to a late client, by the time that nothing can go on
or that the caller has made three turns. -/
theorem Next.granted (h : c.Next q.key n j late) (hj : c.caller? j = some (q, p)) (hp : p.Near n r) (hr : r ≤ 3)
    (hrange : (c.now.after? q.ttl).isSome) {acts : List Act} (hacts : c.along (unhindered q.node j) acts)
    (hdone : (c.run acts).idle ∨ 2 < c.often (turns j) acts) :
    ∃ i l, (i = j ∨ late i) ∧ ⟨i, c.now, .granted q.key l⟩ ∈ c.log acts := by
  rcases h.run hj hp hrange hacts with hgranted | ⟨p', r', hj', hp', hturns⟩
  · exact hgranted
  · have hpos := hp'.pos
    rcases hdone with hidle | hmany
    · rw [busy_of_near hj' hp'] at hidle
      cases hidle
    · omega

section Wakeup

/-! A caller whose ticket is first in the queue of a key when a lock lets go of it. -/

variable {w : Waiter} {ts : List Ticket}

/-- A caller that is awake is near, if its ticket is in the queue. -/
theorem near_of_waits (hlined : c.Lined) (hawake : c.Awake q.node q.key) (hj : c.caller? j = some (q, p))
    (hw : p.waiter? = some w) (ht : t ∈ (c.site.keyState q.key).tickets) (hown : t.number = w.ticket.number) :
    ∃ r ≤ 3, p.Near w.ticket.number r := by
  obtain ⟨x, hx, hcaller⟩ := Option.bind_eq_some_iff.mp hj
  have hwaits : x.activity.waitsOn c.site q.node q.key := by simp [Activity.caller?_waitsOn hcaller]
  have hwake := congrArg (Activity.caller? c.site) (hawake j x hx hwaits)
  rw [Activity.caller?_wake, hcaller] at hwake
  refine AcquirePhase.near_of_awake hw (congrArg Prod.snd (Option.some.inj hwake)) ?_
  rintro rfl
  exact hlined.lost j q.key w.ticket w.deadlines.clockGiveUp (standing_caller hj) t ht hown

/-- A caller whose ticket is first in the queue of a free key is next, but for those that are late. -/
theorem next_of_head (hlined : c.Lined) (hforemost : c.Foremost) (hj : c.caller? j = some (q, p))
    (hp : p.Near n r) (hfree : (c.site.keyState q.key).liveLease c.now = none)
    (hhead : (c.site.keyState q.key).tickets = t :: ts) (hown : t.number = n) (hdue : c.now < t.deadline) :
    c.Next q.key n j (c.Late q.key) := by
  obtain ⟨t', giveUp, stage, hstanding, hn, hstays⟩ := hp.standing q.key
  have hplace : (c.standing j).place? = some (q.key, n) := by
    rw [standing_caller hj, hstanding]
    exact congrArg (fun n => some (q.key, n)) hn
  refine ⟨hlined, hfree, ⟨t, ts, hhead, hown, hdue⟩, ⟨t', giveUp, stage, ?_, hn, hstays⟩, fun i u giveUp hi => ?_⟩
  · rw [standing_caller hj, hstanding]
  · -- a client whose ticket is in the queue has the first one, which is the caller's
    refine Decidable.or_iff_not_imp_left.mpr fun hne => ?_
    refine ⟨u, giveUp, hi, fun v hv hsame => hne (hlined.unique i j (q.key, n) ?_ hplace)⟩
    have hle := hforemost i q.key u giveUp hi t (by rw [hhead]; exact List.mem_cons_self)
    have hge := (hlined.numbered q.key).first_le hhead v hv
    have hnumber : u.number = n := by omega
    rw [hi, ← hnumber]
    rfl

/-- The ticket that is first in the queue of a key is not out of date, and it belongs to a client that waits for
the key with it. -/
def Heads (c : Crowd) (j : Nat) (q : AcquireRequest) : Prop :=
  ∃ w t ts, c.waiter? j = some (q, w) ∧ (c.site.keyState q.key).tickets = t :: ts ∧
    t.number = w.ticket.number ∧ c.now < t.deadline

/-- When a lock has let go of a key, the caller whose ticket is first is granted it, or a client that is late. -/
theorem LetsGo.granted (hgoes : LetsGo c q.node q.key a) (hlined : c.Lined) (hforemost : c.Foremost)
    (hsmooth : c.site.smooth q.node) (hheads : (c.act a).Heads j q)
    (hrange : ((c.act a).now.after? q.ttl).isSome) {acts : List Act}
    (hacts : (c.act a).along (unhindered q.node j) acts)
    (hdone : ((c.act a).run acts).idle ∨ 2 < (c.act a).often (turns j) acts) :
    ∃ i l, (i = j ∨ (c.act a).Late q.key i) ∧ ⟨i, (c.act a).now, .granted q.key l⟩ ∈ (c.act a).log acts := by
  obtain ⟨w, t, ts, hwaits, hhead, hown, hdue⟩ := hheads
  obtain ⟨p, hj, hw⟩ := caller_of_waiter hwaits
  obtain ⟨m, hm⟩ := hlined.memory
  obtain ⟨hawake, hfree⟩ := hgoes.wakes hm hsmooth
  have hqueued : t ∈ ((c.act a).site.keyState q.key).tickets := by
    rw [hhead]
    exact List.mem_cons_self
  obtain ⟨r, hr, hnear⟩ := near_of_waits (hlined.act a) hawake hj hw hqueued hown
  have hnext := next_of_head (hlined.act a) (hforemost.act hlined a) hj hnear hfree hhead hown hdue
  exact hnext.granted hj hnear hr hrange hacts hdone

end Wakeup

/-- A client is woken. In a run over a store in memory, whose callers are woken through the notifiers of their
locks, the lock of a node lets go of a key at the end: it deletes the live lease, or a caller of it has given up
and removes its ticket while the key is free. The ticket that is then first is that of a client which waits at the
same lock. In what follows no time passes, no call is made to fail and the client is not dropped, until all
clients have gone as far as they can, or this one has made three turns. -/
structure Woken (s : Site) (acts : List Act) (a : Act) (rest : List Act) (j : Nat) (q : AcquireRequest) :
    Prop where
  store : s.leases = .memory {}
  smooth : (s.switchboard.run acts).crowd.site.smooth q.node
  letsGo : LetsGo (s.switchboard.run acts).crowd q.node q.key a
  heads : ((s.switchboard.run acts).act a).crowd.Heads j q
  unhindered : ((s.switchboard.run acts).act a).crowd.along (unhindered q.node j) rest
  done : (((s.switchboard.run acts).act a).run rest).crowd.idle ∨
    2 < ((s.switchboard.run acts).act a).crowd.often (turns j) rest

/-- No wake-up is lost. Wherever a client was in its look when it was woken, and in whatever order the others go,
the key has been granted by the time that the clients have gone as far as they can, to the client itself or to a
late one: one that was told that it is first before its ticket left the queue, and that had not asked for the
grant yet. There is no late one, and the client itself is granted the key, if no time has passed in the middle of
a look, for which a store that answers at once leaves no room. The lease has to end on the time line. -/
theorem no_wakeup_lost {s : Site} {acts : List Act} {a : Act} {rest : List Act} (h : Woken s acts a rest j q)
    (hrange : (((s.switchboard.run acts).act a).crowd.now.after? q.ttl).isSome) :
    let d := ((s.switchboard.run acts).act a).crowd
    (∃ i l, (i = j ∨ d.Late q.key i) ∧ ⟨i, d.now, .granted q.key l⟩ ∈ d.log rest) ∧
      (s.crowd.along undivided (acts ++ [a]) → ∃ l, ⟨j, d.now, .granted q.key l⟩ ∈ d.log rest) := by
  obtain ⟨hs, hsmooth, hgoes, hheads, hrest, hdone⟩ := h
  have hx : (s.switchboard.run acts).Tuned := ((Switchboard.tuned_switchboard s).run acts).2
  have hc : (s.switchboard.run acts).crowd = s.crowd.run acts := Switchboard.run_crowd s acts
  obtain ⟨hd, hy⟩ := Switchboard.act_crowd hx a
  rw [(hy.run rest).1] at hdone
  rw [hd] at hheads hrest hdone hrange ⊢
  generalize (s.switchboard.run acts).crowd = c at *
  intro d
  have hlined : c.Lined := by
    rw [hc]
    exact (lined_crowd hs).run acts
  have hforemost : c.Foremost := by
    rw [hc]
    exact Foremost.run (fun i key t giveUp hi => by cases hi) (lined_crowd hs) acts
  have hgranted := hgoes.granted hlined hforemost hsmooth hheads hrange hrest hdone
  refine ⟨hgranted, fun hundivided => ?_⟩
  obtain ⟨i, l, rfl | ⟨u, giveUp, hi, hgone⟩, hl⟩ := hgranted
  · exact ⟨l, hl⟩
  · -- a client that has found itself first has its ticket in the queue still
    have hprompt : (s.crowd.run (acts ++ [a])).Prompt :=
      Prompt.run (fun i key t giveUp hi => by cases hi) (lined_crowd hs) hundivided
    rw [run_append, ← hc] at hprompt
    obtain ⟨v, hv, hsame, -⟩ := hprompt i q.key u giveUp hi
    exact absurd hsame (hgone v hv)

/-- A caller has asked for the grant in vain and has just gone to sleep when the holder releases the lease. It
is woken, looks, and is granted the key. -/
theorem no_wakeup_lost_asleep :
    let q : AcquireRequest := ⟨0, "k", "b", .ofMillis 5000, .ofMillis 30000⟩
    let acts := [.acquire ⟨0, "k", "a", .ofMillis 5000, .ofMillis 30000⟩] ++ List.replicate 6 (.go 0) ++
      [.acquire q] ++ List.replicate 4 (.go 1)
    let a : Act := .release 0 "k" ⟨1⟩
    let rest := List.replicate 3 (.go 1)
    let d := ((Site.single.switchboard.run acts).act a).crowd
    Woken Site.single acts a rest 1 q ∧ ∃ l, ⟨1, d.now, .granted "k" l⟩ ∈ d.log rest := by
  intro q acts a rest d
  have hwoken : Woken Site.single acts a rest 1 q :=
    { store := rfl
      smooth := by decide +kernel
      letsGo := .releases (l := ⟨"k", "a", ⟨1⟩, ⟨30000000000⟩, 0⟩) rfl (by decide +kernel)
      heads := ⟨⟨⟨0, 5000000000, ⟨5000000000⟩, ⟨5020000000⟩⟩, ⟨2, "b", ⟨5020000000⟩, 0⟩, true⟩,
        ⟨2, "b", ⟨5020000000⟩, 0⟩, [], by decide +kernel⟩
      unhindered := by decide +kernel
      done := .inr (by decide +kernel) }
  have hundivided : Site.single.crowd.along undivided (acts ++ [a]) := by decide +kernel
  exact ⟨hwoken, (no_wakeup_lost hwoken (by decide +kernel)).2 hundivided⟩

/-- A client that is woken need not be granted the key. First, a caller is told that it is first and is slow to
ask for the grant: the clock passes the deadline of its ticket, another caller joins the queue in its place and
goes to sleep, the holder releases the lease, and the slow one takes it, so that the woken caller finds the key
taken and goes back to sleep. Second, a caller asks for a lease of some 285 thousand years and fails when it is
woken, for the lease would end beyond the time line, and the key stays free. -/
theorem woken_ungranted :
    let hold : List Act := [.acquire ⟨0, "k", "a", .ofMillis 5000, .ofMillis 30000⟩] ++ List.replicate 6 (.go 0)
    let a : Act := .release 0 "k" ⟨1⟩
    (let q : AcquireRequest := ⟨0, "k", "c", .ofMillis 5000, .ofMillis 30000⟩
      let acts := hold ++ [.acquire ⟨0, "k", "b", .ofMillis 1000, .ofMillis 30000⟩] ++ List.replicate 3 (.go 1) ++
        [.set ⟨1020000000⟩, .acquire q] ++ List.replicate 4 (.go 2)
      let rest := List.replicate 2 (.go 1) ++ List.replicate 3 (.go 2)
      let y := (Site.single.switchboard.run acts).act a
      let l : Lease := ⟨"k", "b", ⟨2⟩, ⟨31020000000⟩, 0⟩
      Woken Site.single acts a rest 2 q ∧ (y.run rest).crowd.idle ∧
        y.crowd.log rest = [⟨1, y.crowd.now, .granted "k" l⟩, ⟨1, y.crowd.now, .obtained l⟩]) ∧
    (let q : AcquireRequest := ⟨0, "k", "b", .ofMillis 5000, .ofMillis 9000000000000000⟩
      let acts := hold ++ [.acquire q] ++ List.replicate 4 (.go 1)
      let rest := List.replicate 3 (.go 1) ++ [.go 2]
      let y := (Site.single.switchboard.run acts).act a
      Woken Site.single acts a rest 1 q ∧ (y.run rest).crowd.idle ∧
        y.crowd.log rest = [⟨1, y.crowd.now, .failed .overflow⟩]) := by
  intro hold a
  constructor
  · intro q acts rest y l
    have hwoken : Woken Site.single acts a rest 2 q :=
      { store := rfl
        smooth := by decide +kernel
        letsGo := .releases (l := ⟨"k", "a", ⟨1⟩, ⟨30000000000⟩, 0⟩) rfl (by decide +kernel)
        heads := ⟨⟨⟨0, 5000000000, ⟨6020000000⟩, ⟨6040000000⟩⟩, ⟨3, "c", ⟨6040000000⟩, 0⟩, true⟩,
          ⟨3, "c", ⟨6040000000⟩, 0⟩, [], by decide +kernel⟩
        unhindered := by decide +kernel
        done := .inl (by decide +kernel) }
    exact ⟨hwoken, by decide +kernel, by decide +kernel⟩
  · intro q acts rest y
    have hwoken : Woken Site.single acts a rest 1 q :=
      { store := rfl
        smooth := by decide +kernel
        letsGo := .releases (l := ⟨"k", "a", ⟨1⟩, ⟨30000000000⟩, 0⟩) rfl (by decide +kernel)
        heads := ⟨⟨⟨0, 5000000000, ⟨5000000000⟩, ⟨5020000000⟩⟩, ⟨2, "b", ⟨5020000000⟩, 0⟩, true⟩,
          ⟨2, "b", ⟨5020000000⟩, 0⟩, [], by decide +kernel⟩
        unhindered := by decide +kernel
        done := .inl (by decide +kernel) }
    exact ⟨hwoken, by decide +kernel, by decide +kernel⟩

end Crowd

end FencedSessions
