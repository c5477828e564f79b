import FencedSessions.Proofs.Callers
import FencedSessions.Proofs.Ownership

/-! How long a caller waits. Its deadlines are set once. After that every look is paid for: by a part of its
timeout that has passed, a poll interval or all that was left, or by a wake-up that came before its time. It
gives up only when one of the two clocks says so, and it never sleeps beyond the end of its timeout on the
timer, rounded up to a whole millisecond. -/

namespace FencedSessions

namespace AcquirePhase

/-- How many intervals a time takes, the last one maybe in part. -/
def rounds (time interval : Nat) : Nat := (time + interval - 1) / interval

theorem rounds_mono {time time' : Nat} (h : time ≤ time') (interval : Nat) :
    rounds time interval ≤ rounds time' interval :=
  Nat.div_le_div_right (by omega)

/-- An interval that has passed, or all the time, is a round less. -/
theorem rounds_past {time interval : Nat} (ht : 0 < time) (hi : 0 < interval) :
    rounds (time - min time interval) interval + 1 ≤ rounds time interval := by
  unfold rounds
  by_cases hlast : time ≤ interval
  · have hpositive : 0 < (time + interval - 1) / interval := Nat.div_pos (by omega) hi
    have hover : (interval - 1) / interval = 0 := Nat.div_eq_of_lt (by omega)
    rw [Nat.min_eq_left hlast, Nat.sub_self, Nat.zero_add, hover]
    exact hpositive
  · rw [← Nat.add_div_right _ hi]
    exact Nat.div_le_div_right (by omega)

/-- The poll interval of a caller's node, in nanoseconds. -/
def poll (s : Site) (q : AcquireRequest) : Nat := (s.settings q.node).lock.pollInterval.ns

theorem poll_pos (s : Site) (q : AcquireRequest) : 0 < poll s q := by
  unfold poll LockSettings.pollInterval Span.ofMillis
  dsimp only
  omega

/-- Whether a caller begins to look. -/
def looking : AcquirePhase → Bool
  | .checking _ => true
  | _ => false

/-- Whether a caller that goes on was woken before its wait was over. -/
def early (s : Site) : AcquirePhase → Bool
  | .waiting w due => w.woken && s.timer < due
  | _ => false

/-- Whether a caller has to wait. -/
def asleep (s : Site) (p : AcquirePhase) : Bool := p.parkedUntil?.any (s.timer < ·)

/-- How many poll intervals are left until the end of the timeout on the timer. -/
def roundsLeft (s : Site) (q : AcquireRequest) (d : Deadlines) : Nat :=
  rounds (d.giveUp - s.timer * nanosPerMilli) (poll s q)

/-- How often a caller still looks at most, unless it is woken early. -/
def turns (s : Site) (q : AcquireRequest) : AcquirePhase → Nat
  | .joining d => roundsLeft s q d + 1
  | .checking w => roundsLeft s q w.deadlines + 1
  | .granting w | .rejoining w => roundsLeft s q w.deadlines
  | .waiting w due =>
    max (roundsLeft s q w.deadlines) (rounds (w.deadlines.giveUp - due * nanosPerMilli) (poll s q) + 1)
  | .starting | .taking .. | .leaving _ | .finished _ => 0

variable {s t : Site} {q : AcquireRequest} {p : AcquirePhase} {w : Waiter} {d : Deadlines}
  {reached reached' : Prop}

theorem turns_wake (s : Site) (q : AcquireRequest) (p : AcquirePhase) : p.wake.turns s q = p.turns s q := by
  cases p <;> rfl

theorem turns_looking (h : p.looking) : 1 ≤ p.turns s q := by
  cases p with
  | checking w => exact Nat.le_add_left ..
  | _ => cases h

theorem poll_settings (h : ∀ n, t.settings n = s.settings n) (q : AcquireRequest) : poll t q = poll s q := by
  unfold poll
  rw [h]

theorem roundsLeft_later (ht : s.timer ≤ t.timer) (hs : ∀ n, t.settings n = s.settings n)
    (q : AcquireRequest) (d : Deadlines) : roundsLeft t q d ≤ roundsLeft s q d := by
  unfold roundsLeft nanosPerMilli
  rw [poll_settings hs]
  exact rounds_mono (by omega) _

/-- The later it is, the fewer looks are left. -/
theorem turns_later (ht : s.timer ≤ t.timer) (hs : ∀ n, t.settings n = s.settings n) (q : AcquireRequest)
    (p : AcquirePhase) : p.turns t q ≤ p.turns s q := by
  have hleft := roundsLeft_later ht hs q
  cases p with
  | joining d => exact Nat.succ_le_succ (hleft d)
  | checking w => exact Nat.succ_le_succ (hleft w.deadlines)
  | granting w => exact hleft w.deadlines
  | rejoining w => exact hleft w.deadlines
  | waiting w due =>
    simp only [turns, poll_settings hs]
    exact Nat.max_le.mpr ⟨Nat.le_trans (hleft w.deadlines) (Nat.le_max_left ..), Nat.le_max_right ..⟩
  | starting => exact Nat.le_refl _
  | taking w lease => exact Nat.le_refl _
  | leaving w => exact Nat.le_refl _
  | finished result => exact Nat.le_refl _

/-- Who has looked in vain either gives up, or there is a round less to go after the wait. -/
theorem turns_settle (s : Site) (q : AcquireRequest) (w : Waiter) :
    (settle s q w).turns s q ≤ roundsLeft s q w.deadlines := by
  unfold settle
  split
  · exact Nat.zero_le _
  · rename_i hout
    have hleft := (lt_dueAt (q := q) (by simpa using hout)).2
    have hpast := rounds_past hleft (poll_pos s q)
    refine Nat.max_le.mpr ⟨Nat.le_refl _, Nat.le_trans (Nat.succ_le_succ (rounds_mono ?_ _)) hpast⟩
    unfold dueAt poll nanosPerMilli
    dsimp only
    omega

/-- Every look is paid for with a round, and only an early wake-up gives one back. -/
theorem step_turns (hp : p ≠ .starting) (h : p.asleep s = false) :
    p.looking.toNat + (p.step q s).1.turns (p.step q s).2.1 q ≤ (p.early s).toNat + p.turns s q := by
  have hleft := roundsLeft_later (Nat.le_of_eq (p.step_timer q s).symm) (p.step_settings q s) q
  -- what a caller goes on with after a call is about the site that the call has left
  have hsettle {t : Site} {w w' : Waiter} (hw : w'.deadlines = w.deadlines)
      (hleft : ∀ d, roundsLeft t q d ≤ roundsLeft s q d) :
      (settle t q w').turns t q ≤ roundsLeft s q w.deadlines :=
    Nat.le_trans (turns_settle t q w') (hw ▸ hleft w'.deadlines)
  cases p with
  | starting => exact absurd rfl hp
  | joining d =>
    simp only [step, looking, early, Bool.toNat_false, Nat.zero_add] at hleft ⊢
    split at hleft
    · exact Nat.zero_le _
    · exact Nat.succ_le_succ (hleft d)
  | checking w =>
    simp only [step, looking, early, Bool.toNat_true, Bool.toNat_false, Nat.zero_add] at hleft ⊢
    rw [Nat.add_comm]
    refine Nat.succ_le_succ (?_ : _ ≤ roundsLeft s q w.deadlines)
    split at hleft
    · exact Nat.zero_le _
    · exact hleft w.deadlines
    · exact hsettle rfl hleft
    · rename_i t _
      by_cases hclock : w.deadlines.clockGiveUp ≤ t.now
      · rw [if_pos hclock] at hleft ⊢
        exact hsettle rfl hleft
      · rw [if_neg hclock] at hleft ⊢
        exact hleft w.deadlines
  | granting w =>
    simp only [step, looking, early, Bool.toNat_false, Nat.zero_add] at hleft ⊢
    split at hleft
    · exact Nat.zero_le _
    · exact Nat.zero_le _
    · exact hsettle rfl hleft
  | rejoining w =>
    simp only [step, looking, early, Bool.toNat_false, Nat.zero_add] at hleft ⊢
    split at hleft
    · exact Nat.zero_le _
    · exact hsettle rfl hleft
  | waiting w due =>
    simp only [step, looking, early, turns, Bool.toNat_false, Nat.zero_add]
    by_cases hdue : s.timer < due
    · have hwoken : w.woken = true := by
        cases hwoken : w.woken with
        | true => rfl
        | false => simp [asleep, parkedUntil?, hwoken, hdue] at h
      rw [hwoken, decide_eq_true hdue]
      exact Nat.le_trans (Nat.succ_le_succ (Nat.le_max_left ..)) (Nat.le_of_eq (Nat.add_comm _ 1))
    · have hover : roundsLeft s q w.deadlines ≤
          rounds (w.deadlines.giveUp - due * nanosPerMilli) (poll s q) := by
        unfold roundsLeft nanosPerMilli
        exact rounds_mono (by omega) _
      exact Nat.le_trans (Nat.succ_le_succ hover) (Nat.le_trans (Nat.le_max_right ..) (Nat.le_add_left ..))
  | taking w lease => exact Nat.zero_le _
  | leaving w => exact Nat.zero_le _
  | finished result => exact Nat.zero_le _

/-- What holds of a caller on its way: it keeps its deadlines, it does not sleep beyond the end of its timeout
on the timer, and it leaves once that has come, or the other one on the clock, which may have been set back
since. -/
def Patient (d : Deadlines) (reached : Prop) (s : Site) : AcquirePhase → Prop
  | .joining d' => d' = d
  | .checking w | .granting w | .rejoining w => w.deadlines = d
  | .waiting w due => w.deadlines = d ∧ due ≤ rounds d.giveUp nanosPerMilli
  | .leaving _ => d.giveUp ≤ s.timer * nanosPerMilli ∨ reached
  | .taking .. => True
  | .starting | .finished _ => False

theorem patient_wake (d : Deadlines) (reached : Prop) (s : Site) (p : AcquirePhase) :
    p.wake.Patient d reached s ↔ p.Patient d reached s := by
  cases p <;> exact Iff.rfl

theorem Patient.goes (h : p.Patient d reached s) : p ≠ .starting ∧ p.result? = none := by
  cases p with
  | starting => exact absurd h id
  | finished result => exact absurd h id
  | _ => exact ⟨by simp, rfl⟩

theorem Patient.mono (h : p.Patient d reached s) (hreached : reached → reached') (ht : s.timer ≤ t.timer) :
    p.Patient d reached' t := by
  cases p with
  | leaving w =>
    refine Or.imp (fun hout => Nat.le_trans hout ?_) hreached h
    exact Nat.mul_le_mul_right _ ht
  | _ => exact h

theorem patient_settle (s : Site) (q : AcquireRequest) {w : Waiter} (hw : w.deadlines = d) :
    (settle s q w).Patient d (reached ∨ d.clockGiveUp ≤ s.now) s := by
  unfold settle
  split
  · rename_i hout
    rw [hw] at hout
    have hout := (Bool.or_eq_true _ _).mp hout
    exact hout.imp of_decide_eq_true fun hclock => .inr (of_decide_eq_true hclock)
  · rename_i hout
    have hleft := (lt_dueAt (q := q) (by simpa using hout)).2
    refine ⟨hw, ?_⟩
    rw [hw] at hleft ⊢
    unfold dueAt rounds
    unfold nanosPerMilli at *
    dsimp only
    omega

theorem Patient.step (h : p.Patient d reached s) (hon : (p.step q s).1.result? = none) :
    (p.step q s).1.Patient d (reached ∨ d.clockGiveUp ≤ (p.step q s).2.1.now) (p.step q s).2.1 := by
  cases p with
  | starting => exact absurd h id
  | finished result => exact absurd h id
  | taking w lease => cases hon
  | leaving w => cases hon
  | waiting w due => exact h.1
  | joining d' =>
    simp only [AcquirePhase.step] at hon ⊢
    split
    · simp_all [result?]
    · exact h
  | checking w =>
    simp only [AcquirePhase.step] at hon ⊢
    split
    · simp_all [result?, abandonWith]
    · exact h
    · exact patient_settle _ q h
    · split
      · exact patient_settle _ q h
      · exact h
  | granting w =>
    simp only [AcquirePhase.step] at hon ⊢
    split
    · simp_all [result?, abandonWith]
    · exact trivial
    · exact patient_settle _ q h
  | rejoining w =>
    simp only [AcquirePhase.step] at hon ⊢
    split
    · simp_all [result?, abandonWith]
    · exact patient_settle _ q h

/-- The deadlines of a caller whose timeout the timer and the clock can hold. -/
theorem deadlines_finite (h : deadlines? s q = some d) (hfinite : q.timeout.ns ≤ Span.century) :
    d.giveUp = s.timer * nanosPerMilli + q.timeout.ns ∧ d.clockGiveUp.ns = s.now.ns + q.timeout.ns := by
  simp only [deadlines?, Option.bind_eq_bind, Option.bind_eq_some_iff] at h
  obtain ⟨clockGiveUp, hclock, ticketDeadline, -, hd⟩ := h
  obtain rfl := Option.some.inj hd
  have hlimit : Span.century < timerLimit := by decide
  have hexact : Span.century ≤ Span.exactLimit := by decide
  have hoffset : q.timeout.offset = q.timeout.ns := if_pos (Nat.le_trans hfinite hexact)
  refine ⟨?_, ?_⟩
  · simp only [if_pos (Nat.lt_of_le_of_lt hfinite hlimit)]
  · rw [Instant.shift?_ns hclock, hoffset]

end AcquirePhase

open AcquirePhase (rounds poll nanosPerMilli)

/-- Whether a client can go on without time passing, or anything else happening. -/
def Activity.ready (timer : Nat) (a : Activity) : Bool :=
  match a.readiness timer with
  | .now => true
  | .due ms => ms ≤ timer
  | .blocked => false

namespace Crowd

variable {c : Crowd} {i : Nat} {q : AcquireRequest} {p : AcquirePhase} {d : Deadlines} {reached : Prop}
  {acts : List Act}

/-- Whether all clients have gone as far as they can without time passing. -/
def idle (c : Crowd) : Bool := c.clients.all fun x => !x.activity.ready c.site.timer

/-- Whether with an act a client goes on as a caller of which something holds. -/
def goes (i : Nat) (P : Site → AcquirePhase → Bool) (c : Crowd) : Act → Bool
  | .go j => j = i && (c.caller? i).any fun (_, p) => P c.site p
  | _ => false

/-- Whether a caller looks. -/
def looks (i : Nat) : Crowd → Act → Bool := goes i fun _ p => p.looking

/-- Whether a caller goes on because it was woken before its wait was over. -/
def wokenEarly (i : Nat) : Crowd → Act → Bool := goes i AcquirePhase.early

/-- Whether a caller does not go on before it was woken or its wait is over. -/
def timely (i : Nat) (c : Crowd) (a : Act) : Bool := !goes i AcquirePhase.asleep c a

/-- How many acts of a run are of a kind. -/
def often (P : Crowd → Act → Bool) : Crowd → List Act → Nat
  | _, [] => 0
  | c, a :: acts => (P c a).toNat + often P (c.act a) acts

theorem often_append (P : Crowd → Act → Bool) (c : Crowd) (before after : List Act) :
    c.often P (before ++ after) = c.often P before + (c.run before).often P after := by
  induction before generalizing c with
  | nil => exact (Nat.zero_add _).symm
  | cons a before ih =>
    rw [List.cons_append, often, often, ih, Nat.add_assoc]
    rfl

theorem goes_go (h : c.caller? i = some (q, p)) (P : Site → AcquirePhase → Bool) :
    goes i P c (.go i) = P c.site p := by
  simp [goes, h]

theorem goes_other (P : Site → AcquirePhase → Bool) {a : Act} (h : a ≠ .go i) : goes i P c a = false := by
  cases a with
  | go j =>
    have hne : j ≠ i := fun he => h (congrArg Act.go he)
    simp [goes, hne]
  | _ => rfl

/-- What an act makes of a patient caller. -/
theorem act_patient (h : c.caller? i = some (q, p)) (hp : p.Patient d reached c.site) {a : Act}
    (htimely : timely i c a) (hlasts : lasts i (c.news a)) :
    ∃ p', (c.act a).caller? i = some (q, p') ∧
      p'.Patient d (reached ∨ d.clockGiveUp ≤ (c.act a).now) (c.act a).site ∧
      (looks i c a).toNat + p'.turns (c.act a).site q ≤ (wokenEarly i c a).toNat + p.turns c.site q := by
  rcases act_caller h hp.goes.2 hlasts with ⟨rfl, hon, hnext, hsite⟩ | ⟨hgo, p', hnext, hwake⟩
  · have hawake : p.asleep c.site = false := by
      simpa [timely, goes_go h] using htimely
    have hturns := AcquirePhase.step_turns (q := q) hp.goes.1 hawake
    refine ⟨_, hnext, ?_, ?_⟩
    · have hpatient := hp.step hon
      rw [← hsite] at hpatient
      exact hpatient
    · rw [looks, wokenEarly, goes_go h, goes_go h, hsite]
      exact hturns
  · refine ⟨p', hnext, ?_, ?_⟩
    · rw [← AcquirePhase.patient_wake, hwake, AcquirePhase.patient_wake]
      exact hp.mono .inl (c.act_timer a)
    · rw [looks, wokenEarly, goes_other _ hgo, goes_other _ hgo, ← AcquirePhase.turns_wake, hwake,
        AcquirePhase.turns_wake]
      exact Nat.add_le_add_left (AcquirePhase.turns_later (c.act_timer a) (c.act_settings a) q p) _

/-- What a run makes of a patient caller. -/
theorem run_patient (h : c.caller? i = some (q, p)) (hp : p.Patient d reached c.site)
    (htimely : c.along (timely i) acts) (hlasts : lasts i (c.log acts)) :
    ∃ p', (c.run acts).caller? i = some (q, p') ∧
      p'.Patient d (reached ∨ ∃ before, before <+: acts ∧ d.clockGiveUp ≤ (c.run before).now)
        (c.run acts).site ∧
      c.often (looks i) acts + p'.turns (c.run acts).site q ≤
        c.often (wokenEarly i) acts + p.turns c.site q := by
  induction acts generalizing c p reached with
  | nil => exact ⟨p, h, hp.mono .inl (Nat.le_refl _), Nat.le_refl _⟩
  | cons a acts ih =>
    obtain ⟨htimely, hrest⟩ := (Bool.and_eq_true _ _).mp htimely
    rw [log, lasts_append, Bool.and_eq_true] at hlasts
    obtain ⟨p₁, h₁, hp₁, hturns₁⟩ := act_patient h hp htimely hlasts.1
    obtain ⟨p₂, h₂, hp₂, hturns₂⟩ := ih h₁ hp₁ hrest hlasts.2
    refine ⟨p₂, h₂, hp₂.mono ?_ (Nat.le_refl _), ?_⟩
    · rintro ((hreached | hnow) | ⟨before, hbefore, hnow⟩)
      · exact .inl hreached
      · exact .inr ⟨[a], List.prefix_append [a] acts, hnow⟩
      · exact .inr ⟨a :: before, (List.prefix_cons_inj a).mpr hbefore, hnow⟩
    · simp only [often, run_cons]
      omega

/-- A caller that has taken its first step has its deadlines, and as many looks before it as poll intervals
fit in its timeout, and one. -/
theorem start_patient (h : c.caller? i = some (q, .starting)) (hfinite : q.timeout.ns ≤ Span.century)
    (hlasts : lasts i (c.news (.go i))) :
    ∃ d, d.giveUp = c.site.timer * nanosPerMilli + q.timeout.ns ∧
      d.clockGiveUp.ns = c.now.ns + q.timeout.ns ∧
      (c.act (.go i)).caller? i = some (q, .joining d) ∧
      (AcquirePhase.joining d).turns (c.act (.go i)).site q = rounds q.timeout.ns (poll c.site q) + 1 ∧
      c.often (looks i) [.go i] = 0 := by
  rcases act_caller h rfl hlasts with ⟨-, hon, hnext, hsite⟩ | ⟨hgo, -⟩
  · simp only [AcquirePhase.step] at hon hnext hsite
    cases hd : AcquirePhase.deadlines? c.site q with
    | none =>
      rw [hd] at hon
      cases hon
    | some d =>
      rw [hd] at hnext hsite
      obtain ⟨hgiveUp, hclock⟩ := AcquirePhase.deadlines_finite hd hfinite
      refine ⟨d, hgiveUp, hclock, hnext, ?_, ?_⟩
      · rw [hsite]
        change rounds (d.giveUp - c.site.timer * nanosPerMilli) (poll c.site q) + 1 = _
        rw [hgiveUp, Nat.add_sub_cancel_left]
      · simp [often, looks, goes_go h, AcquirePhase.looking]
  · exact absurd rfl hgo

theorem looks_le_turns (h : c.caller? i = some (q, p)) (a : Act) : (looks i c a).toNat ≤ p.turns c.site q := by
  cases hlooks : looks i c a with
  | false => exact Nat.zero_le _
  | true =>
    by_cases hgo : a = .go i
    · rw [hgo, looks, goes_go h] at hlooks
      exact AcquirePhase.turns_looking hlooks
    · rw [looks, goes_other _ hgo] at hlooks
      cases hlooks

/-- A caller that gives up does so because one of its deadlines has come. -/
theorem leaving_of_news (h : c.caller? i = some (q, p)) (hp : p.Patient d reached c.site) (hcandid : c.site.candid)
    {t : Instant} {e : Stop} (he : e.contention) (hnews : ⟨i, t, .failed e⟩ ∈ c.news (.go i)) :
    d.giveUp ≤ c.site.timer * nanosPerMilli ∨ reached := by
  simp only [news_caller h, List.mem_map, Entry.mk.injEq] at hnews
  obtain ⟨n, hn, -, -, rfl⟩ := hnews
  obtain ⟨w, rfl⟩ := AcquirePhase.leaving_of_contention hcandid hp.goes.2 he
    (AcquirePhase.result?_of_failed hn)
  exact hp

/-- When nothing can go on, a caller sleeps until its time comes. -/
theorem timer_lt_of_idle (h : c.caller? i = some (q, p)) (hp : p.Patient d reached c.site) (hidle : c.idle) :
    c.site.timer < rounds d.giveUp nanosPerMilli := by
  obtain ⟨x, hx, hcaller⟩ := Option.bind_eq_some_iff.mp h
  have hready := List.all_eq_true.mp hidle x (List.mem_of_getElem? hx)
  simp only [Activity.ready, Activity.caller?_parked hcaller] at hready
  cases p with
  | waiting w due =>
    cases hwoken : w.woken with
    | true => simp [AcquirePhase.parkedUntil?, hwoken, Activity.readiness.ofDue] at hready
    | false =>
      simp [AcquirePhase.parkedUntil?, hwoken, Activity.readiness.ofDue] at hready
      exact Nat.lt_of_lt_of_le hready hp.2
  | _ => simp [AcquirePhase.parkedUntil?, Activity.readiness.ofDue] at hready

/-- An acquire ends, neither early nor late. Of itself, and not because a call was made to fail so, it answers
that it waited in vain only once its timeout has passed on the timer, or its end has come on the clock. It
looks once, once more for each time it was woken early, and at most once for each poll interval of its
timeout. And when all clients have gone as far as they can without time passing, it is over or the timer has
not come to the end of its timeout, in whole milliseconds. The others do what they like, and only the caller
itself heeds its waits. -/
theorem acquire_in_time (hstart : c.caller? i = some (q, .starting)) (hfinite : q.timeout.ns ≤ Span.century)
    (htimely : c.along (timely i) (.go i :: acts)) (hlasts : lasts i (c.log (.go i :: acts))) :
    let d := c.run (.go i :: acts)
    (∀ t key ms, d.site.candid → ⟨i, t, .failed (.error (.contentionTimeout key ms))⟩ ∈ d.news (.go i) →
      c.site.timer * nanosPerMilli + q.timeout.ns ≤ d.site.timer * nanosPerMilli ∨
        ∃ before, before <+: acts ∧ c.now.ns + q.timeout.ns ≤ (c.run (.go i :: before)).now.ns) ∧
    (∀ a, c.often (looks i) (.go i :: acts ++ [a]) ≤
      1 + c.often (wokenEarly i) (.go i :: acts ++ [a]) + rounds q.timeout.ns (poll c.site q)) ∧
    (d.idle → d.site.timer < c.site.timer + rounds q.timeout.ns nanosPerMilli) := by
  dsimp only
  rw [run_cons c (.go i) acts]
  obtain ⟨-, htimely⟩ := (Bool.and_eq_true _ _).mp htimely
  rw [log, lasts_append, Bool.and_eq_true] at hlasts
  obtain ⟨d, hgiveUp, hclock, hnext, hturns, hfirst⟩ := start_patient hstart hfinite hlasts.1
  have hjoining : (AcquirePhase.joining d).Patient d False (c.act (.go i)).site := rfl
  obtain ⟨p, hcaller, hp, hlooks⟩ := run_patient hnext hjoining htimely hlasts.2
  have hpatient : p.Patient d (∃ before, before <+: acts ∧ d.clockGiveUp ≤ ((c.act (.go i)).run before).now)
      ((c.act (.go i)).run acts).site := hp.mono (Or.resolve_left · id) (Nat.le_refl _)
  refine ⟨fun t key ms hcandid hnews => ?_, fun a => ?_, fun hidle => ?_⟩
  · rw [← hgiveUp]
    refine (leaving_of_news hcaller hpatient hcandid rfl hnews).imp_right ?_
    rintro ⟨before, hbefore, hnow⟩
    refine ⟨before, hbefore, ?_⟩
    rw [← hclock]
    exact hnow
  · have hlast := looks_le_turns hcaller a
    have hearly : (c.act (.go i)).often (wokenEarly i) acts ≤ c.often (wokenEarly i) (.go i :: acts ++ [a]) := by
      rw [often_append, often]
      omega
    have hsplit : c.often (looks i) (.go i :: acts ++ [a]) =
        (c.act (.go i)).often (looks i) acts + (looks i ((c.act (.go i)).run acts) a).toNat := by
      have hnone : (looks i c (.go i)).toNat = 0 := hfirst
      rw [often_append, often, hnone, Nat.zero_add]
      rfl
    omega
  · have hlt := timer_lt_of_idle hcaller hpatient hidle
    rw [hgiveUp] at hlt
    unfold rounds nanosPerMilli at *
    omega

/-- A caller comes while another one holds the lease, and would wait 30 milliseconds for it. -/
def contended : Crowd :=
  Site.single.crowd.run
    ([.acquire ⟨0, "k", "a", .ofMillis 50, .ofMillis 30000⟩] ++ List.replicate 5 (.go 0) ++
      [.acquire ⟨0, "k", "b", .ofMillis 30, .ofMillis 30000⟩])

/-- It looks three times, at its start, after a poll interval of 20 milliseconds, and when the 30 are over;
before that nothing can go on, and the clock stands still. -/
theorem acquire_in_time_tight :
    let q : AcquireRequest := ⟨0, "k", "b", .ofMillis 30, .ofMillis 30000⟩
    let look : List Act := [.go 1, .go 1]
    let waits : List Act := [.go 1] ++ look ++ [.tick 20, .go 1] ++ look
    let acts : List Act := waits ++ [.tick 10, .go 1] ++ look
    let d := contended.run (.go 1 :: acts)
    contended.caller? 1 = some (q, .starting) ∧ q.timeout.ns ≤ Span.century ∧
      contended.along (timely 1) (.go 1 :: acts) ∧ lasts 1 (contended.log (.go 1 :: acts)) ∧ d.site.candid ∧
      ⟨1, d.now, .failed (.error (.contentionTimeout "k" 30))⟩ ∈ d.news (.go 1) ∧
      (contended.site.timer * nanosPerMilli + q.timeout.ns ≤ d.site.timer * nanosPerMilli ∨
        ∃ before, before <+: acts ∧
          contended.now.ns + q.timeout.ns ≤ (contended.run (.go 1 :: before)).now.ns) ∧
      contended.often (looks 1) (.go 1 :: acts ++ [.go 1]) = 3 ∧
      1 + contended.often (wokenEarly 1) (.go 1 :: acts ++ [.go 1]) +
        rounds q.timeout.ns (poll contended.site q) = 3 ∧
      (contended.run (.go 1 :: waits)).idle ∧
      (contended.run (.go 1 :: waits)).site.timer = 20 ∧
      20 < contended.site.timer + rounds q.timeout.ns nanosPerMilli := by
  intro q look waits acts d
  have hstart : contended.caller? 1 = some (q, .starting) := rfl
  have hfinite : q.timeout.ns ≤ Span.century := by decide
  have htimely : contended.along (timely 1) (.go 1 :: acts) := by decide +kernel
  have hlasts : lasts 1 (contended.log (.go 1 :: acts)) := by decide +kernel
  have hcandid : d.site.candid := by decide +kernel
  have hnews : ⟨1, d.now, .failed (.error (.contentionTimeout "k" 30))⟩ ∈ d.news (.go 1) := by decide +kernel
  have hidle : (contended.run (.go 1 :: waits)).idle := by decide +kernel
  have htimer : (contended.run (.go 1 :: waits)).site.timer = 20 := by decide +kernel
  have hend := acquire_in_time hstart hfinite htimely hlasts
  have hsleeps : contended.along (timely 1) (.go 1 :: waits) := by decide +kernel
  have hwaits := acquire_in_time hstart hfinite hsleeps (by decide +kernel)
  exact ⟨hstart, hfinite, htimely, hlasts, hcandid, hnews, hend.1 _ _ _ hcandid hnews, by decide +kernel,
    by decide +kernel, hidle, htimer, htimer ▸ hwaits.2.2 hidle⟩

end Crowd

end FencedSessions
