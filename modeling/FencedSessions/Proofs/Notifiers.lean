import FencedSessions.Proofs.Wakeups

/-! The notifiers of the locks. The lock of a node keeps a notifier for each key that its callers wait for. The
first one that begins to look makes it, the others share it, and each has a hold of it until its acquire is over.
Whoever wakes the callers reaches those with a hold of the notifier that is kept, and takes it away if nobody has
a hold of it. Nobody ever has a hold of another one, so all who wait are reached: a crowd that is woken through
notifiers runs as one whose callers are woken by what they wait for. -/

namespace FencedSessions

namespace AcquirePhase

variable {p : AcquirePhase} {q : AcquireRequest} {s : Site}

/-- Whether a caller has begun to look and its acquire is not over. -/
def seated : AcquirePhase → Bool
  | .starting | .joining _ | .finished _ => false
  | .checking _ | .granting _ | .rejoining _ | .waiting .. | .taking .. | .leaving _ => true

theorem seated_wake (p : AcquirePhase) : p.wake.seated = p.seated := by
  cases p <;> rfl

theorem wake_unseated (h : p.seated = false) : p.wake = p := by
  cases p with
  | starting => rfl
  | joining d => rfl
  | finished result => rfl
  | _ => cases h

theorem seated_settle (s : Site) (r : AcquireRequest) (w : Waiter) : (settle s r w).seated := by
  unfold settle
  split <;> rfl

/-- A caller keeps its seat until its acquire is over. -/
theorem seated_step (h : p.seated) (hon : (p.step q s).1.result? = none) : (p.step q s).1.seated := by
  cases p with
  | starting => cases h
  | joining d => cases h
  | finished result => cases h
  | waiting w due => rfl
  | taking w lease => cases hon
  | leaving w => cases hon
  | checking w =>
    simp only [step] at hon ⊢
    generalize s.guarded q.node q.key (.position w.ticket.number) = called at hon ⊢
    obtain ⟨e | _ | _ | n, t⟩ := called
    · cases hon
    · dsimp only
      split
      · exact seated_settle ..
      · rfl
    · rfl
    · exact seated_settle ..
  | granting w =>
    simp only [step] at hon ⊢
    generalize s.guarded q.node q.key (.grant none q.holder w.ticket.position q.ttl) = called at hon ⊢
    obtain ⟨e | _ | lease, t⟩ := called
    · cases hon
    · exact seated_settle ..
    · rfl
  | rejoining w =>
    simp only [step] at hon ⊢
    generalize s.guarded q.node q.key (.enqueue q.holder w.deadlines.ticketDeadline) = called at hon ⊢
    obtain ⟨e | ticket, t⟩ := called
    · cases hon
    · exact seated_settle ..

end AcquirePhase

/-- A step whose caller is through is not in a queue any more. -/
theorem StepPhase.acquiring_out {r : StepRequest} {s : Site} {p : AcquirePhase} {result : Except Stop Lease}
    (h : (p.step (acquireRequest r s) s).1.result? = some result) (key : String) :
    ((acquiring p).step r s).1.standing key = .out := by
  simp only [step]
  generalize p.step (acquireRequest r s) s = done at h
  obtain ⟨p', t, fx⟩ := done
  cases p' with
  | finished result' =>
    rcases result' with (e | _) | lease
    · exact (report_out ..).1
    · rfl
    · rfl
  | _ => cases h

namespace Activity

variable {s t : Site} {a : Activity} {seat : Nat × String}

/-- Where a client waits as the caller of an acquire: the node and the key. -/
def seat? (s : Site) (a : Activity) : Option (Nat × String) :=
  (a.caller? s).bind fun (q, p) => if p.seated then some (q.node, q.key) else none

theorem seat?_wake (s : Site) (a : Activity) : a.wake.seat? s = a.seat? s := by
  unfold seat?
  rw [caller?_wake]
  cases a.caller? s with
  | none => rfl
  | some caller => simp [AcquirePhase.seated_wake]

theorem seat?_settings (h : ∀ n, t.settings n = s.settings n) (a : Activity) : a.seat? t = a.seat? s := by
  unfold seat?
  rw [caller?_settings h]

/-- A wake-up changes nobody without a seat. -/
theorem wake_unseated (h : a.seat? s = none) : a.wake = a := by
  cases a with
  | acquire r p keep =>
    have hp : p.seated = false := by simpa [seat?, caller?] using h
    simp only [wake, AcquirePhase.wake_unseated hp]
  | series x p =>
    cases p with
    | acquiring p =>
      have hp : p.seated = false := by simpa [seat?, caller?] using h
      simp only [wake, StepPhase.wake, AcquirePhase.wake_unseated hp]
    | _ => rfl
  | _ => rfl

theorem waitsOn_seat (h : a.seat? s = some seat) (node : Nat) (key : String) :
    a.waitsOn s node key = decide (seat = (node, key)) := by
  obtain ⟨⟨q, p⟩, hcaller, hseat⟩ := Option.bind_eq_some_iff.mp h
  obtain ⟨-, hseat⟩ := Option.ite_none_right_eq_some.mp hseat
  cases hseat
  simp [caller?_waitsOn hcaller]

theorem unseated_of_out (h : a.standing = .out) : a.seat? s = none := by
  have hphase {p : AcquirePhase} {key : String} (h : p.standing key = .out) : p.seated = false := by
    cases p with
    | starting => rfl
    | finished result => rfl
    | _ => cases h
  cases a with
  | acquire r p keep => simp [seat?, caller?, hphase h]
  | series x p =>
    cases p with
    | acquiring p => simp [seat?, caller?, hphase h]
    | _ => rfl
  | _ => rfl

/-- A client that goes on is in no queue, unless it goes on as a caller whose acquire is not over. -/
theorem step_out (h : ∀ q p, a.caller? s = some (q, p) → (p.step q s).1.result? ≠ none) :
    (a.step s).1.standing = .out := by
  cases a with
  | acquire r p keep =>
    obtain ⟨result, hresult⟩ := Option.ne_none_iff_exists'.mp (h r p rfl)
    simp only [step, hresult]
    rfl
  | series x p =>
    rw [(series_standing s x p).1]
    by_cases hp : ∃ p', p = .acquiring p'
    · obtain ⟨p, rfl⟩ := hp
      obtain ⟨result, hresult⟩ := Option.ne_none_iff_exists'.mp (h _ p rfl)
      exact StepPhase.acquiring_out hresult _
    · exact (StepPhase.step_out x.current s _ fun p' he => hp ⟨p', he⟩).1
  | _ => rfl

/-- A client that goes on gives its seat up, or nobody hears of it and it keeps the seat that it has. -/
theorem step_seat (s : Site) (a : Activity) :
    (a.step s).1.seat? s = none ∨
      (a.step s).2.2.2 = [] ∧ ∀ seat, a.seat? s = some seat → (a.step s).1.seat? s = some seat := by
  by_cases h : ∃ q p, a.caller? s = some (q, p) ∧ (p.step q s).1.result? = none
  · obtain ⟨q, p, hcaller, hon⟩ := h
    obtain ⟨hnext, -, hquiet⟩ := step_caller hcaller hon
    refine .inr ⟨hquiet, fun seat hseat => ?_⟩
    simp only [seat?, hcaller, hnext, Option.bind_some] at hseat ⊢
    split at hseat
    · rename_i hseated
      rw [if_pos (AcquirePhase.seated_step hseated hon)]
      exact hseat
    · cases hseat
  · exact .inl (unseated_of_out (step_out fun q p hcaller hon => h ⟨q, p, hcaller, hon⟩))

end Activity

namespace Crowd

variable {c : Crowd} {a : Act} {i j : Nat}

/-- Where a client waits, if it does. -/
def seat? (c : Crowd) (i : Nat) : Option (Nat × String) := (c.clients[i]?).bind fun x => x.activity.seat? c.site

/-- What an act asks of the other clients. -/
def effects (c : Crowd) : Act → List Effect
  | .go i => ((c.clients[i]?).map fun x => (x.activity.step c.site).2.2.2).getD []
  | .leave i => ((c.clients[i]?).map fun x => x.activity.dropped c.site).getD []
  | .release node key fence => (c.site.release node key fence).2.2
  | _ => []

/-- An act before the other clients hear of it. -/
def quietly (c : Crowd) : Act → Crowd
  | .go i =>
    match c.clients[i]? with
    | none => c
    | some x => { c.setClient i (c.next i x) with
        site := (x.activity.step c.site).2.2.1
        saves := c.saves ++ c.saving i x
        endings := c.endings ++ c.ending i x }
  | .leave i =>
    match c.clients[i]? with
    | none => c
    | some x => { c.setClient i ⟨.ended, {}⟩ with endings := c.endings ++ dropping i x }
  | .release node key fence => { c with site := (c.site.release node key fence).2.1 }
  | a => c.act a

theorem act_quietly (c : Crowd) (a : Act) : (c.effects a).foldl effect (c.quietly a) = c.act a := by
  cases a with
  | go i =>
    cases hx : c.clients[i]? with
    | none => simp [effects, quietly, act, go, hx]
    | some x => simp [effects, quietly, act_go hx, hx]
  | leave i =>
    cases hx : c.clients[i]? with
    | none => simp [effects, quietly, act, leave, hx]
    | some x => simp [effects, quietly, act_leave hx, hx]
  | _ => rfl

theorem quietly_settings (c : Crowd) (a : Act) (n : Nat) : (c.quietly a).site.settings n = c.site.settings n := by
  have hsite : (c.quietly a).site = (c.act a).site := by rw [← act_quietly, foldl_effect_site]
  rw [hsite, act_settings]

theorem seat_congr {d : Crowd} (hclient : d.clients[j]? = c.clients[j]?)
    (hsettings : ∀ n, d.site.settings n = c.site.settings n) : d.seat? j = c.seat? j := by
  unfold seat?
  rw [hclient]
  cases c.clients[j]? with
  | none => rfl
  | some x => exact Activity.seat?_settings hsettings x.activity

/-- Who comes has no seat, and takes nobody's. -/
theorem seat_enter {b : Activity} (h : b.seat? c.site = none) (j : Nat) : (c.enter b).seat? j = c.seat? j := by
  rcases Nat.lt_or_ge j c.clients.length with hj | hj
  · exact seat_congr (List.getElem?_append_left hj) fun _ => rfl
  · have habsent : c.seat? j = none := by simp [seat?, List.getElem?_eq_none hj]
    rw [habsent]
    simp only [seat?, enter, List.getElem?_append_right hj, List.getElem?_singleton]
    split
    · exact h
    · rfl

/-- Nobody takes a seat or gives it up because it hears of something. -/
theorem seat_effect (c : Crowd) (e : Effect) (j : Nat) : (c.effect e).seat? j = c.seat? j := by
  cases e with
  | revoke key ticket => exact seat_enter rfl j
  | wake node key =>
    simp only [seat?, effect, List.getElem?_map]
    cases c.clients[j]? with
    | none => rfl
    | some x =>
      simp only [Option.map_some, Option.bind_some]
      split
      · exact Activity.seat?_wake c.site x.activity
      · rfl

theorem seat_effects (c : Crowd) (fx : List Effect) (j : Nat) : (fx.foldl effect c).seat? j = c.seat? j := by
  induction fx generalizing c with
  | nil => rfl
  | cons e fx ih => exact (ih (c.effect e)).trans (seat_effect c e j)

theorem seat_act (c : Crowd) (a : Act) (j : Nat) : (c.act a).seat? j = (c.quietly a).seat? j := by
  rw [← act_quietly, seat_effects]

/-- A client's seat is its own business. -/
theorem seat_other (hgo : a ≠ .go j) (hleave : a ≠ .leave j) : (c.quietly a).seat? j = c.seat? j := by
  have hsettings := quietly_settings c a
  cases a with
  | go i =>
    have hi : i ≠ j := fun he => hgo (congrArg _ he)
    refine seat_congr ?_ hsettings
    cases hx : c.clients[i]? with
    | none => simp only [quietly, hx]
    | some x =>
      simp only [quietly, hx]
      exact List.getElem?_set_ne hi
  | leave i =>
    have hi : i ≠ j := fun he => hleave (congrArg _ he)
    refine seat_congr ?_ hsettings
    cases hx : c.clients[i]? with
    | none => simp only [quietly, hx]
    | some x =>
      simp only [quietly, hx]
      exact List.getElem?_set_ne hi
  | acquire r => exact seat_enter rfl j
  | steps policy first rest => exact seat_enter rfl j
  | _ => exact seat_congr rfl hsettings

/-- A client that goes on gives its seat up, or nobody hears of it and it keeps the seat that it has. -/
theorem seat_go (c : Crowd) (i : Nat) :
    (c.quietly (.go i)).seat? i = none ∨
      c.effects (.go i) = [] ∧ ∀ seat, c.seat? i = some seat → (c.quietly (.go i)).seat? i = some seat := by
  cases hx : c.clients[i]? with
  | none => exact .inl (by simp [seat?, quietly, hx])
  | some x =>
    obtain ⟨hi, -⟩ := List.getElem?_eq_some_iff.mp hx
    have hclient : (c.quietly (.go i)).clients[i]? = some (c.next i x) := by
      simp only [quietly, hx]
      exact List.getElem?_set_self hi
    have hseat : (c.quietly (.go i)).seat? i = (x.activity.step c.site).1.seat? c.site := by
      simp only [seat?, hclient, Option.bind_some, next_activity]
      exact Activity.seat?_settings (quietly_settings c _) _
    rw [hseat]
    simpa [effects, seat?, hx] using x.activity.step_seat c.site

theorem seat_leave (c : Crowd) (i : Nat) : (c.quietly (.leave i)).seat? i = none := by
  cases hx : c.clients[i]? with
  | none => simp [seat?, quietly, hx]
  | some x =>
    obtain ⟨hi, -⟩ := List.getElem?_eq_some_iff.mp hx
    simp only [seat?, quietly, hx, setClient, List.getElem?_set_self hi]
    rfl

/-- When somebody hears of an act, nobody has a seat but who had it before. -/
theorem seat_heard (h : c.effects a ≠ []) (j : Nat) :
    (c.quietly a).seat? j = none ∨ (c.quietly a).seat? j = c.seat? j := by
  by_cases hgo : a = .go j
  · subst hgo
    exact (seat_go c j).imp_right fun ⟨hquiet, _⟩ => absurd hquiet h
  · by_cases hleave : a = .leave j
    · subst hleave
      exact .inl (seat_leave c j)
    · exact .inr (seat_other hgo hleave)

end Crowd

/-- The notifiers of the locks, and who has a hold of them. -/
structure Notifiers where
  /-- The notifiers that are kept, by node and key. -/
  kept : List ((Nat × String) × Nat) := []
  /-- Clients with the notifiers that they have a hold of. -/
  held : List (Nat × Nat) := []
  /-- How many were made. -/
  made : Nat := 0
deriving DecidableEq, Repr

namespace Notifiers

/-- The notifier that a lock keeps for a key. -/
def find? (t : Notifiers) (seat : Nat × String) : Option Nat := Keyed.find? t.kept seat

/-- The notifier of a key, which is made if none is kept. -/
def notifier (t : Notifiers) (seat : Nat × String) : Nat × Notifiers :=
  match t.find? seat with
  | some n => (n, t)
  | none => (t.made, { t with kept := Keyed.put t.kept seat t.made, made := t.made + 1 })

/-- A client takes a hold of the notifier of a key. -/
def take (t : Notifiers) (i : Nat) (seat : Nat × String) : Notifiers :=
  let (n, t) := t.notifier seat
  { t with held := (i, n) :: t.held }

/-- A client lets go of its notifier. -/
def drop (t : Notifiers) (i : Nat) : Notifiers := { t with held := t.held.filter fun h => h.1 ≠ i }

/-- Whether a client is reached through the notifier that is kept for a key. -/
def reaches (t : Notifiers) (seat : Nat × String) (i : Nat) : Bool :=
  match t.find? seat with
  | some n => t.held.contains (i, n)
  | none => false

/-- The notifiers after the callers that wait for a key were woken. -/
def woken (t : Notifiers) (seat : Nat × String) : Notifiers :=
  match t.find? seat with
  | some n => if t.held.all fun h => h.2 ≠ n then { t with kept := Keyed.erase t.kept seat } else t
  | none => t

/-- The notifiers after a client has gone on, whose seat was one and is another. -/
def moved (t : Notifiers) (i : Nat) : (before after : Option (Nat × String)) → Notifiers
  | none, some seat => t.take i seat
  | some _, none => t.drop i
  | _, _ => t

variable {t : Notifiers} {σ σ' : Nat → Option (Nat × String)} {i j n : Nat} {seat : Nat × String}

/-- Who waits has a hold of the notifier that is kept for its key, and nobody has a hold of another one. -/
structure Tuned (t : Notifiers) (σ : Nat → Option (Nat × String)) : Prop where
  seated : ∀ i seat, σ i = some seat → ∃ n, t.find? seat = some n ∧ (i, n) ∈ t.held
  held : ∀ i n, (i, n) ∈ t.held → ∃ seat, σ i = some seat ∧ t.find? seat = some n
  distinct : ∀ a b n, t.find? a = some n → t.find? b = some n → a = b
  made : ∀ a n, t.find? a = some n → n < t.made

theorem tuned_empty (h : ∀ i, σ i = none) : Tuned {} σ where
  seated i seat hi := by
    rw [h] at hi
    cases hi
  held i n hi := by cases hi
  distinct a b n ha := by cases ha
  made a n ha := by cases ha

/-- A wake-up reaches those who wait. -/
theorem Tuned.reaches (h : t.Tuned σ) (i : Nat) (seat : Nat × String) :
    t.reaches seat i = decide (σ i = some seat) := by
  unfold Notifiers.reaches
  by_cases hi : σ i = some seat
  · obtain ⟨n, hn, hheld⟩ := h.seated i seat hi
    simp [hi, hn, hheld]
  · have hother (n : Nat) (hn : t.find? seat = some n) : (i, n) ∉ t.held := by
      intro hheld
      obtain ⟨seat', hi', hn'⟩ := h.held i n hheld
      obtain rfl := h.distinct seat' seat n hn' hn
      exact hi hi'
    cases hn : t.find? seat with
    | none => simp [hi]
    | some n => simp [hi, hother n hn]

/-- What is kept may change, as long as nobody has a hold of what goes. -/
theorem Tuned.rekept {u : Notifiers} (h : t.Tuned σ) (hheld : u.held = t.held)
    (hstays : ∀ i a n, (i, n) ∈ t.held → t.find? a = some n → u.find? a = some n)
    (hdistinct : ∀ a b n, u.find? a = some n → u.find? b = some n → a = b)
    (hmade : ∀ a n, u.find? a = some n → n < u.made) : u.Tuned σ where
  seated i seat hi := by
    obtain ⟨n, hn, hin⟩ := h.seated i seat hi
    exact ⟨n, hstays i seat n hin hn, by rw [hheld]; exact hin⟩
  held i n hin := by
    rw [hheld] at hin
    obtain ⟨seat, hseat, hn⟩ := h.held i n hin
    exact ⟨seat, hseat, hstays i seat n hin hn⟩
  distinct := hdistinct
  made := hmade

theorem Tuned.woken (h : t.Tuned σ) (seat : Nat × String) : (t.woken seat).Tuned σ := by
  unfold Notifiers.woken
  cases hn : t.find? seat with
  | none => exact h
  | some n =>
    dsimp only
    split
    · rename_i hfree
      have hfound (a : Nat × String) (m : Nat) (ha : Keyed.find? (Keyed.erase t.kept seat) a = some m) :
          t.find? a = some m := by
        by_cases hne : a = seat
        · rw [hne, Keyed.find?_erase_self] at ha
          cases ha
        · rw [Keyed.find?_erase_other _ hne] at ha
          exact ha
      refine h.rekept rfl (fun i a m hi ha => ?_) (fun a b m ha hb => ?_) fun a m ha => ?_
      · have hne : a ≠ seat := by
          rintro rfl
          rw [hn] at ha
          cases ha
          simpa using List.all_eq_true.mp hfree (i, n) hi
        exact (Keyed.find?_erase_other _ hne).trans ha
      · exact h.distinct a b m (hfound a m ha) (hfound b m hb)
      · exact h.made a m (hfound a m ha)
    · exact h

/-- A notifier is kept for a key as soon as somebody asks for it. -/
theorem Tuned.notifier (h : t.Tuned σ) (seat : Nat × String) :
    (t.notifier seat).2.Tuned σ ∧ (t.notifier seat).2.find? seat = some (t.notifier seat).1 := by
  unfold Notifiers.notifier
  cases hn : t.find? seat with
  | some n => exact ⟨h, hn⟩
  | none =>
    have hfound (a : Nat × String) (m : Nat) (ha : Keyed.find? (Keyed.put t.kept seat t.made) a = some m) :
        a = seat ∧ m = t.made ∨ t.find? a = some m ∧ m < t.made := by
      by_cases hne : a = seat
      · rw [hne, Keyed.find?_put_self] at ha
        exact .inl ⟨hne, (Option.some.inj ha).symm⟩
      · rw [Keyed.find?_put_other _ _ hne] at ha
        exact .inr ⟨ha, h.made a m ha⟩
    refine ⟨h.rekept rfl (fun i a m _ ha => ?_) (fun a b m ha hb => ?_) fun a m ha => ?_, Keyed.find?_put_self ..⟩
    · have hne : a ≠ seat := by
        rintro rfl
        rw [hn] at ha
        cases ha
      exact (Keyed.find?_put_other _ _ hne).trans ha
    · rcases hfound a m ha with ⟨ha', hm⟩ | ⟨ha', hlt⟩
      · rcases hfound b m hb with ⟨hb', -⟩ | ⟨-, hlt⟩
        · exact ha'.trans hb'.symm
        · omega
      · rcases hfound b m hb with ⟨-, hm⟩ | ⟨hb', -⟩
        · omega
        · exact h.distinct a b m ha' hb'
    · rcases hfound a m ha with ⟨-, rfl⟩ | ⟨-, hlt⟩
      · exact Nat.lt_succ_self _
      · exact Nat.lt_succ_of_lt hlt

theorem Tuned.take (h : t.Tuned σ) (hi : σ i = none) (hi' : σ' i = some seat) (hother : ∀ j, j ≠ i → σ' j = σ j) :
    (t.take i seat).Tuned σ' := by
  obtain ⟨hkept, hfound⟩ := h.notifier seat
  refine ⟨fun j seat' hj => ?_, fun j m hj => ?_, hkept.distinct, hkept.made⟩
  · by_cases hne : j = i
    · subst hne
      rw [hi'] at hj
      cases hj
      exact ⟨_, hfound, List.mem_cons_self⟩
    · rw [hother j hne] at hj
      obtain ⟨m, hm, hheld⟩ := hkept.seated j seat' hj
      exact ⟨m, hm, List.mem_cons_of_mem _ hheld⟩
  · rcases List.mem_cons.mp hj with he | hheld
    · cases he
      exact ⟨seat, hi', hfound⟩
    · obtain ⟨seat', hseat, hm⟩ := hkept.held j m hheld
      have hne : j ≠ i := by
        rintro rfl
        rw [hi] at hseat
        cases hseat
      exact ⟨seat', (hother j hne).trans hseat, hm⟩

theorem Tuned.drop (h : t.Tuned σ) (hi' : σ' i = none) (hother : ∀ j, j ≠ i → σ' j = σ j) : (t.drop i).Tuned σ' := by
  refine ⟨fun j seat' hj => ?_, fun j m hj => ?_, h.distinct, h.made⟩
  · have hne : j ≠ i := by
      rintro rfl
      rw [hi'] at hj
      cases hj
    rw [hother j hne] at hj
    obtain ⟨m, hm, hheld⟩ := h.seated j seat' hj
    exact ⟨m, hm, List.mem_filter.mpr ⟨hheld, by simpa using hne⟩⟩
  · obtain ⟨hheld, hne⟩ := List.mem_filter.mp hj
    obtain ⟨seat', hseat, hm⟩ := h.held j m hheld
    exact ⟨seat', (hother j (by simpa using hne)).trans hseat, hm⟩

/-- A client has gone on that keeps its seat if it had one before and has one now. -/
theorem Tuned.moved (h : t.Tuned σ) (hother : ∀ j, j ≠ i → σ' j = σ j)
    (hstays : ∀ seat, σ i = some seat → σ' i = none ∨ σ' i = some seat) : (t.moved i (σ i) (σ' i)).Tuned σ' := by
  have hsame (hi : σ' i = σ i) : σ' = σ := by
    funext j
    by_cases hj : j = i
    · rw [hj, hi]
    · exact hother j hj
  cases hi : σ i with
  | none =>
    cases hi' : σ' i with
    | none =>
      rw [hsame (hi'.trans hi.symm)]
      exact h
    | some seat => exact h.take hi hi' hother
  | some seat =>
    rcases hstays seat hi with hi' | hi'
    · rw [hi']
      exact h.drop hi' hother
    · rw [hi', hsame (hi'.trans hi.symm)]
      exact h

end Notifiers

/-- A crowd whose clients are woken through the notifiers of the locks. -/
structure Switchboard where
  crowd : Crowd
  notifiers : Notifiers := {}

/-- The switchboard of a site before its first client comes. -/
def Site.switchboard (s : Site) : Switchboard := { crowd := s.crowd }

namespace Switchboard

variable {x : Switchboard} {σ : Nat → Option (Nat × String)} {i : Nat}

/-- Carries out an effect of a call. -/
def effect (x : Switchboard) : Effect → Switchboard
  | .wake node key => {
      crowd := { x.crowd with clients := x.crowd.clients.mapIdx fun i y =>
        if x.notifiers.reaches (node, key) i then { y with activity := y.activity.wake } else y }
      notifiers := x.notifiers.woken (node, key) }
  | e => { x with crowd := x.crowd.effect e }

/-- The client that has gone on takes a hold of a notifier, or lets go of its own, after the others have heard of
what it did. -/
def act (x : Switchboard) (a : Act) : Switchboard :=
  let y := (x.crowd.effects a).foldl effect { x with crowd := x.crowd.quietly a }
  match a with
  | .go i | .leave i => { y with notifiers := y.notifiers.moved i (x.crowd.seat? i) (y.crowd.seat? i) }
  | _ => y

def run (x : Switchboard) (acts : List Act) : Switchboard := acts.foldl act x

/-- Every caller that waits has a hold of the notifier that is kept for its key. -/
def Tuned (x : Switchboard) : Prop := x.notifiers.Tuned x.crowd.seat?

/-- Waking those who have a hold of the notifier is waking those who wait. -/
theorem effect_crowd (h : x.notifiers.Tuned σ) (hheard : ∀ j, x.crowd.seat? j = none ∨ x.crowd.seat? j = σ j)
    (e : Effect) : (x.effect e).crowd = x.crowd.effect e := by
  cases e with
  | revoke key ticket => rfl
  | wake node key =>
    have hclients : x.crowd.clients.mapIdx (fun i y =>
        if x.notifiers.reaches (node, key) i then { y with activity := y.activity.wake } else y) =
        x.crowd.clients.map fun y =>
          if y.activity.waitsOn x.crowd.site node key then { y with activity := y.activity.wake } else y := by
      refine List.ext_getElem? fun j => ?_
      rw [List.getElem?_mapIdx, List.getElem?_map]
      cases hy : x.crowd.clients[j]? with
      | none => rfl
      | some y =>
        have hseat : x.crowd.seat? j = y.activity.seat? x.crowd.site := by simp [Crowd.seat?, hy]
        have hj := hheard j
        rw [hseat] at hj
        simp only [Option.map_some, h.reaches]
        cases hown : y.activity.seat? x.crowd.site with
        | none => simp [Activity.wake_unseated hown]
        | some seat =>
          rw [hown] at hj
          have hσ : σ j = some seat := (hj.resolve_left nofun).symm
          simp [hσ, Activity.waitsOn_seat hown]
    simp only [effect, Crowd.effect, hclients]

theorem effects_crowd (h : x.notifiers.Tuned σ) (hheard : ∀ j, x.crowd.seat? j = none ∨ x.crowd.seat? j = σ j)
    (fx : List Effect) :
    (fx.foldl effect x).crowd = fx.foldl Crowd.effect x.crowd ∧ (fx.foldl effect x).notifiers.Tuned σ := by
  induction fx generalizing x with
  | nil => exact ⟨rfl, h⟩
  | cons e fx ih =>
    have hcrowd := effect_crowd h hheard e
    have htuned : (x.effect e).notifiers.Tuned σ := by
      cases e with
      | wake node key => exact h.woken (node, key)
      | revoke key ticket => exact h
    have hnext := ih htuned (by
      rw [hcrowd]
      intro j
      rw [Crowd.seat_effect]
      exact hheard j)
    rw [hcrowd] at hnext
    exact hnext

/-- An act of a crowd that is woken through notifiers is that of the crowd. -/
theorem act_crowd (h : x.Tuned) (a : Act) : (x.act a).crowd = x.crowd.act a ∧ (x.act a).Tuned := by
  obtain ⟨hcrowd, htuned⟩ : ((x.crowd.effects a).foldl effect { x with crowd := x.crowd.quietly a }).crowd =
      x.crowd.act a ∧
      ((x.crowd.effects a).foldl effect { x with crowd := x.crowd.quietly a }).notifiers.Tuned x.crowd.seat? := by
    rw [← Crowd.act_quietly]
    by_cases hquiet : x.crowd.effects a = []
    · rw [hquiet]
      exact ⟨rfl, h⟩
    · exact effects_crowd (x := { x with crowd := x.crowd.quietly a }) h (Crowd.seat_heard hquiet) _
  have hseats (hgo : ∀ j, a ≠ .go j) (hleave : ∀ j, a ≠ .leave j) : (x.crowd.act a).seat? = x.crowd.seat? := by
    funext j
    rw [Crowd.seat_act, Crowd.seat_other (hgo j) (hleave j)]
  cases a with
  | go i =>
    refine ⟨hcrowd, htuned.moved (fun j hj => ?_) fun seat hseat => ?_⟩
    · rw [hcrowd, Crowd.seat_act]
      exact Crowd.seat_other (fun he => hj (Act.go.inj he).symm) nofun
    · rw [hcrowd, Crowd.seat_act]
      exact (Crowd.seat_go x.crowd i).imp_right fun ⟨_, hkeeps⟩ => hkeeps seat hseat
  | leave i =>
    refine ⟨hcrowd, htuned.moved (fun j hj => ?_) fun seat _ => .inl ?_⟩
    · rw [hcrowd, Crowd.seat_act]
      exact Crowd.seat_other nofun fun he => hj (Act.leave.inj he).symm
    · rw [hcrowd, Crowd.seat_act]
      exact Crowd.seat_leave x.crowd i
  | _ =>
    have hseats := hseats nofun nofun
    rw [← hcrowd] at hseats
    rw [← hseats] at htuned
    exact ⟨hcrowd, htuned⟩

theorem Tuned.run (h : x.Tuned) (acts : List Act) :
    (x.run acts).crowd = x.crowd.run acts ∧ (x.run acts).Tuned := by
  induction acts generalizing x with
  | nil => exact ⟨rfl, h⟩
  | cons a acts ih =>
    obtain ⟨hcrowd, htuned⟩ := act_crowd h a
    have hrest := ih htuned
    rw [hcrowd] at hrest
    exact hrest

theorem tuned_switchboard (s : Site) : s.switchboard.Tuned := Notifiers.tuned_empty fun _ => rfl

/-- Every run is the same, whether its callers are woken through notifiers or by what they wait for. -/
theorem run_crowd (s : Site) (acts : List Act) : (s.switchboard.run acts).crowd = s.crowd.run acts :=
  ((tuned_switchboard s).run acts).1

end Switchboard

end FencedSessions
