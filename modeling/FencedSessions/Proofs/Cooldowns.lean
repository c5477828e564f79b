import FencedSessions.Proofs.BreakerTrace

/-! The length of a cooldown, as it is set and as a rejected call is told it. A breaker keeps its circuit
open for as long as is set if the time line holds the end of the cooldown, and not otherwise. Of what is
left of it a rejected call is told the whole milliseconds. -/

namespace FencedSessions

namespace BreakerSettings

variable {c : BreakerSettings} {t : Instant}

/-- A cooldown that goes on beyond the time line has no end, or one that is no later than its start. -/
theorem cooldownEnd?_beyond (h : Instant.last.ns < t.ns + c.wait) :
    c.cooldownEnd? t = none ∨ ∃ u, c.cooldownEnd? t = some u ∧ u ≤ t := by
  rcases Nat.lt_trichotomy c.cooldownMs Word.half64 with hless | heq | hmore
  · have hcooldown : c.cooldown? = some c.wait := if_pos hless
    have hbeyond : ¬(Instant.first.ns ≤ t.ns + c.wait ∧ t.ns + c.wait ≤ Instant.last.ns) :=
      fun hheld => absurd hheld.2 (Int.not_le.mpr h)
    left
    simp only [cooldownEnd?, hcooldown, Option.bind_some, Instant.shift?, if_neg hbeyond]
  · have hcooldown : c.cooldown? = none := by simp [cooldown?, heq]
    left
    simp only [cooldownEnd?, hcooldown, Option.bind_none]
  · have hcooldown : c.cooldown? = some (-((Word.size64 - c.cooldownMs : Nat) : Int) * 1000000) := by
      rw [cooldown?, if_neg (by omega), if_neg (by omega)]
    cases hend : c.cooldownEnd? t with
    | none => exact .inl rfl
    | some u =>
      refine .inr ⟨u, rfl, ?_⟩
      simp only [cooldownEnd?, hcooldown, Option.bind_some] at hend
      have hns := Instant.shift?_ns hend
      exact Instant.le_def.mpr (by omega)

end BreakerSettings

namespace Breaker

variable {c : BreakerSettings} {b : Breaker} {t u retryAt : Instant} {r : Nat}

/-- Whether a failure opens the circuit, or opens it anew. -/
def Trips (c : BreakerSettings) : Breaker → Prop
  | .closed failures => c.threshold ≤ failures + 1
  | .opened _ | .halfOpen _ => True

instance : Decidable (b.Trips c) := by
  cases b <;> unfold Trips <;> infer_instance

theorem recordFailure_trips (h : b.Trips c) (t : Instant) :
    b.recordFailure c t = match c.cooldownEnd? t with
      | none => (.error .overflow, b)
      | some retryAt => (.ok (), .opened retryAt) := by
  cases b with
  | closed failures => exact if_pos h
  | opened retryAt => rfl
  | halfOpen probeAt => rfl

theorem pass_opened (h : u < retryAt) : (opened retryAt).pass c u = (reject retryAt u, .opened retryAt) :=
  if_neg (Int.not_le.mpr h)

/-- An open circuit turns calls away, as often as it is asked too early. -/
theorem serve_opened {times : List Instant} (h : ∀ u ∈ times, u < retryAt) :
    ∀ p ∈ serve c (.opened retryAt) (times.map (⟨·, .pass⟩)), p.rejected := by
  induction times with
  | nil => simp [serve]
  | cons u times ih =>
    have hearly := pass_opened (c := c) (h u (by simp))
    intro p hp
    simp only [List.map_cons, serve, call, hearly, List.mem_cons] at hp
    rcases hp with rfl | hp
    · rfl
    · exact ih (fun v hv => h v (by simp [hv])) p hp

/-- Whether a circuit that a failure opens at an instant stays open as long as the cooldown is set:
opening it ends no task, and every call that comes before the end of the cooldown is turned away. -/
def Honours (c : BreakerSettings) (b : Breaker) (t : Instant) : Prop :=
  ∃ b', b.recordFailure c t = (.ok (), b') ∧
    ∀ times : List Instant, (∀ u ∈ times, t ≤ u ∧ u.ns < t.ns + c.wait) →
      ∀ p ∈ serve c b' (times.map (⟨·, .pass⟩)), p.rejected

theorem honours_fits (hb : b.Trips c) (h : c.Fits t) : b.Honours c t := by
  refine ⟨.opened ⟨t.ns + c.wait⟩, ?_, fun times htimes => serve_opened fun u hu => (htimes u hu).2⟩
  rw [recordFailure_trips hb, BreakerSettings.cooldownEnd?_fits h]

/-- A cooldown that the time line does not hold ends the task that opens the circuit, or is over at once. -/
theorem recordFailure_beyond (hb : b.Trips c) (h : Instant.last.ns < t.ns + c.wait) :
    (b.recordFailure c t).1 = .error .overflow ∨
      ∃ u, b.recordFailure c t = (.ok (), .opened u) ∧ ((opened u).pass c t).1 = .ok () := by
  rw [recordFailure_trips hb]
  rcases BreakerSettings.cooldownEnd?_beyond h with hnone | ⟨u, hu, hle⟩
  · rw [hnone]
    exact .inl rfl
  · rw [hu]
    refine .inr ⟨u, rfl, ?_⟩
    rw [pass, if_pos hle]

/-- A circuit that opens at an instant stays open for as long as the cooldown is set, and without ending
a task, if and only if the time line holds the end of the cooldown. If it does not, then opening the
circuit ends the task, or the very next call is let through. -/
theorem honours_iff (c : BreakerSettings) {b : Breaker} {t : Instant} (ht : t.Held) (hb : b.Trips c) :
    (b.Honours c t ↔ t.ns + c.wait ≤ Instant.last.ns) ∧
      (Instant.last.ns < t.ns + c.wait → (b.recordFailure c t).1 = .error .overflow ∨
        ∃ u, b.recordFailure c t = (.ok (), .opened u) ∧ ((opened u).pass c t).1 = .ok ()) := by
  refine ⟨⟨fun hhonours => ?_, fun h => honours_fits hb ⟨ht, h⟩⟩, recordFailure_beyond hb⟩
  obtain ⟨b', hopens, hrejects⟩ := hhonours
  refine Int.not_lt.mp fun hbeyond => ?_
  rcases recordFailure_beyond hb hbeyond with hends | ⟨u, hu, hpass⟩
  · rw [hopens] at hends
    cases hends
  · obtain rfl : b' = .opened u := congrArg Prod.snd (hopens.symm.trans hu)
    have hstart : t.ns < t.ns + c.wait := Int.lt_of_le_of_lt ht.2 hbeyond
    have honly : ∀ v ∈ [t], t ≤ v ∧ v.ns < t.ns + c.wait := by
      intro v hv
      rw [List.mem_singleton.mp hv]
      exact ⟨Int.le_refl t.ns, hstart⟩
    have hfirst := hrejects [t] honly
      ⟨⟨t, .pass⟩, ((opened u).pass c t).1⟩ (by simp [serve, call])
    rw [hpass] at hfirst
    cases hfirst

/-- A cooldown of a day is kept at the start of 2026, after the third failure in a row. -/
theorem honours_iff_day :
    let c : BreakerSettings := { threshold := 3, cooldownMs := 86400000 }
    let t : Instant := ⟨1767225600000000000⟩
    t.Held ∧ (Breaker.closed 2).Trips c ∧ (Breaker.closed 2).Honours c t := by
  intro c t
  have ht : t.Held := by decide
  have hb : (Breaker.closed 2).Trips c := by decide
  exact ⟨ht, hb, (honours_iff c ht hb).1.mpr (by decide)⟩

/-- The longest cooldown that can be set is over at once, and one of 2⁶³ milliseconds ends the task. -/
theorem cooldown_cut_short :
    let longest : BreakerSettings := { threshold := 1, cooldownMs := Word.size64 - 1 }
    let half : BreakerSettings := { threshold := 1, cooldownMs := Word.half64 }
    let t : Instant := ⟨1767225600000000000⟩
    t.Held ∧ Breaker.initial.Trips longest ∧ Breaker.initial.Trips half ∧
      (serve longest .initial [⟨t, .failure⟩, ⟨t, .pass⟩]).map (·.answer) = [.ok (), .ok ()] ∧
      (serve half .initial [⟨t, .failure⟩]).map (·.answer) = [.error .overflow] ∧
      ¬Breaker.initial.Honours longest t ∧ ¬Breaker.initial.Honours half t := by
  intro longest half t
  refine ⟨by decide, by decide, by decide, by decide, by decide, ?_, ?_⟩
  · rintro ⟨b', hopens, hrejects⟩
    obtain rfl : Breaker.opened ⟨t.ns - 1000000⟩ = b' := congrArg Prod.snd hopens
    have hfirst := hrejects [t] (by decide) ⟨⟨t, .pass⟩, .ok ()⟩ (by decide)
    cases hfirst
  · rintro ⟨b', hopens, -⟩
    cases hopens

/-- A breaker that turns a call away lets calls through from an instant on, and told how many whole
milliseconds are left until then. -/
theorem pass_rejected (h : (b.pass c t).1 = .error (.error (.circuitOpen r))) :
    ∃ retryAt, t < retryAt ∧ r = (retryAt.millisSince t).toNat ∧ (b.pass c t).2 = b ∧
      ∀ u, (b.pass c u).1 = .ok () ↔ retryAt ≤ u := by
  have hdecides (retryAt : Instant) (hpass : ∀ u, b.pass c u =
      if retryAt ≤ u then (.ok (), .halfOpen u) else (reject retryAt u, b)) :
      t < retryAt ∧ r = (retryAt.millisSince t).toNat ∧ (b.pass c t).2 = b ∧
        ∀ u, (b.pass c u).1 = .ok () ↔ retryAt ≤ u := by
    rw [hpass] at h
    by_cases hover : retryAt ≤ t
    · rw [if_pos hover] at h
      cases h
    · rw [if_neg hover] at h
      cases h
      refine ⟨Int.not_le.mp hover, rfl, by rw [hpass, if_neg hover], fun u => ?_⟩
      rw [hpass]
      by_cases hu : retryAt ≤ u
      · simp [hu]
      · simp [hu, reject]
  cases b with
  | closed n => cases h
  | opened retryAt => exact ⟨retryAt, hdecides retryAt fun u => rfl⟩
  | halfOpen probeAt =>
    cases hend : c.cooldownEnd? probeAt with
    | none =>
      simp only [pass, hend] at h
      cases h
    | some retryAt => exact ⟨retryAt, hdecides retryAt fun u => by simp only [pass, hend]⟩

/-- What is left of a cooldown is told to a rejected call rounded down to whole milliseconds. So a call a
millisecond later than told is let through, if nothing else comes between, and one at the time told is
if and only if nothing was rounded off. -/
theorem pass_after_wait (c : BreakerSettings) (b : Breaker) {t : Instant} {r : Nat}
    (h : (b.pass c t).1 = .error (.error (.circuitOpen r))) :
    ∃ retryAt : Instant, (∀ u, ((b.pass c t).2.pass c u).1 = .ok () ↔ retryAt ≤ u) ∧
      t.ns + r * 1000000 ≤ retryAt.ns ∧ retryAt.ns < t.ns + (r + 1) * 1000000 ∧
      ((∀ u : Instant, t.ns + r * 1000000 ≤ u.ns → ((b.pass c t).2.pass c u).1 = .ok ()) ↔
        retryAt.ns = t.ns + r * 1000000) := by
  obtain ⟨retryAt, hlater, rfl, hkept, hpass⟩ := pass_rejected h
  have hleft : 0 ≤ retryAt.ns - t.ns := Int.sub_nonneg.mpr (Int.le_of_lt hlater)
  have hmillis : ((retryAt.millisSince t).toNat : Int) = (retryAt.ns - t.ns) / 1000000 := by
    rw [Instant.millisSince, Int.tdiv_eq_ediv_of_nonneg hleft]
    exact Int.toNat_of_nonneg (Int.ediv_nonneg hleft (by decide))
  rw [hkept, hmillis]
  simp only [hpass, Instant.le_def]
  refine ⟨retryAt, fun u => Iff.rfl, by omega, by omega, fun hsuffices => ?_, fun hexact u hu => by omega⟩
  have hlower := hsuffices ⟨t.ns + (retryAt.ns - t.ns) / 1000000 * 1000000⟩ (Int.le_refl _)
  dsimp only at hlower
  omega

/-- Half a millisecond before the end of a cooldown a call is told to wait for no time, and is turned away
when it has waited for as long as that. -/
theorem wait_told_short :
    let c : BreakerSettings := { threshold := 1, cooldownMs := 1 }
    let rs : List BreakerRequest := [⟨⟨0⟩, .failure⟩, ⟨⟨500000⟩, .pass⟩, ⟨⟨500000 + 0 * 1000000⟩, .pass⟩]
    (∀ q ∈ rs, c.Fits q.time) ∧ (serve c .initial rs).map (·.answer) =
      [.ok (), .error (.error (.circuitOpen 0)), .error (.error (.circuitOpen 0))] := by
  decide

/-- A call that comes 1.5 ms too early is told to wait for one millisecond; two are enough. -/
theorem pass_after_wait_probe :
    let c : BreakerSettings := { cooldownMs := 10 }
    let b : Breaker := .halfOpen ⟨0⟩
    (b.pass c ⟨8500000⟩).1 = .error (.error (.circuitOpen 1)) ∧
      ((b.pass c ⟨8500000⟩).2.pass c ⟨10500000⟩).1 = .ok () := by
  intro c b
  have h : (b.pass c ⟨8500000⟩).1 = .error (.error (.circuitOpen 1)) := by decide
  obtain ⟨retryAt, hpass, -, hearly, -⟩ := pass_after_wait c b h
  exact ⟨h, (hpass ⟨10500000⟩).mpr (Int.le_of_lt hearly)⟩

end Breaker

end FencedSessions
