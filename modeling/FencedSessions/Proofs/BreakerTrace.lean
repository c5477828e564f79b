import Mathlib.Data.List.DropRight
import FencedSessions.Breaker.Basic
import FencedSessions.Proofs.Moments

/-! A breaker and its trace. Which calls a breaker rejects follows from what it was told before: from
the number of failures since the last success, and, once they are too many, from the time of the
last failure or admitted call. -/

namespace FencedSessions

/-- What a breaker is asked or told. -/
inductive BreakerCall where
  /-- Asks for a call to be let through. -/
  | pass
  | success
  | failure
deriving DecidableEq, Repr

structure BreakerRequest where
  time : Instant
  call : BreakerCall
deriving DecidableEq, Repr

structure BreakerReply where
  request : BreakerRequest
  answer : Except Stop Unit
deriving DecidableEq

namespace BreakerReply

def succeeds (r : BreakerReply) : Bool := r.request.call = .success

def fails (r : BreakerReply) : Bool := r.request.call = .failure

/-- Whether it is a call that was let through. -/
def accepted (r : BreakerReply) : Bool :=
  match r.request.call, r.answer with
  | .pass, .ok () => true
  | _, _ => false

/-- Whether it is a call that the open circuit turned away. -/
def rejected (r : BreakerReply) : Bool :=
  match r.request.call, r.answer with
  | .pass, .error (.error (.circuitOpen _)) => true
  | _, _ => false

/-- Whether the cooldown of an open circuit starts from here. -/
def anchors (r : BreakerReply) : Bool := r.fails || r.accepted

/-- What came since the last success. -/
def sinceSuccess (replies : List BreakerReply) : List BreakerReply := replies.rtakeWhile (!·.succeeds)

/-- The failures since the last success. -/
def failures (replies : List BreakerReply) : Nat := (sinceSuccess replies).countP (·.fails)

/-- What came from the failure numbered `n` on. -/
def fromFailure : (n : Nat) → List BreakerReply → List BreakerReply
  | _, [] => []
  | n, r :: rest =>
    if r.fails then (if n ≤ 1 then r :: rest else fromFailure (n - 1) rest) else fromFailure n rest

/-- The time of the last failure or admitted call, counted from the failure that reached the limit. -/
def anchor? (limit : Nat) (replies : List BreakerReply) : Option Instant :=
  ((fromFailure limit (sinceSuccess replies)).filter (·.anchors)).getLast?.map (·.request.time)

end BreakerReply

namespace BreakerSettings

/-- How many failures in a row open the circuit. -/
def limit (c : BreakerSettings) : Nat := max c.threshold 1

/-- The cooldown as it is set, in nanoseconds. -/
def wait (c : BreakerSettings) : Int := c.cooldownMs * 1000000

/-- The time line holds an instant, and the end of a cooldown from there. -/
def Fits (c : BreakerSettings) (t : Instant) : Prop := t.Held ∧ t.ns + c.wait ≤ Instant.last.ns

instance (c : BreakerSettings) (t : Instant) : Decidable (c.Fits t) :=
  inferInstanceAs (Decidable (t.Held ∧ t.ns + c.wait ≤ Instant.last.ns))

/-- Too many failures have come, and the cooldown from the last failure or admitted call is not over. -/
def Cooling (c : BreakerSettings) (replies : List BreakerReply) (t : Instant) : Prop :=
  c.limit ≤ BreakerReply.failures replies ∧
    ∃ a, BreakerReply.anchor? c.limit replies = some a ∧ t.ns < a.ns + c.wait

variable {c : BreakerSettings} {t : Instant}

theorem limit_pos (c : BreakerSettings) : 0 < c.limit :=
  Nat.lt_of_lt_of_le Nat.zero_lt_one (Nat.le_max_right _ _)

/-- A cooldown that fits on the time line counts as it is set. -/
theorem cooldownEnd?_fits (h : c.Fits t) : c.cooldownEnd? t = some ⟨t.ns + c.wait⟩ := by
  obtain ⟨⟨hfirst, hlast⟩, hend⟩ := h
  have hms : c.cooldownMs < Word.half64 := by
    unfold wait Instant.last at hend
    unfold Instant.first at hfirst
    unfold Word.half64
    dsimp only at hfirst hend
    omega
  have hcooldown : c.cooldown? = some c.wait := if_pos hms
  have hwait : 0 ≤ c.wait := by
    unfold wait
    omega
  unfold cooldownEnd?
  rw [hcooldown]
  exact Instant.shift_held ⟨by dsimp only; omega, hend⟩

end BreakerSettings

namespace BreakerReply

variable {replies : List BreakerReply} {r : BreakerReply} {n : Nat}

/-- A call that was let through was not turned away. -/
theorem accepted_passed (h : r.accepted) : r.request.call = .pass ∧ r.rejected = false := by
  unfold accepted at h
  split at h
  · rename_i hcall hanswer
    exact ⟨hcall, by simp [rejected, hcall, hanswer]⟩
  · cases h

theorem sinceSuccess_success (h : r.succeeds) (replies : List BreakerReply) :
    sinceSuccess (replies ++ [r]) = [] := List.rtakeWhile_concat_neg _ _ _ (by simp [h])

theorem sinceSuccess_other (h : r.succeeds = false) (replies : List BreakerReply) :
    sinceSuccess (replies ++ [r]) = sinceSuccess replies ++ [r] :=
  List.rtakeWhile_concat_pos _ _ _ (by simp [h])

theorem failures_success (h : r.succeeds) (replies : List BreakerReply) : failures (replies ++ [r]) = 0 := by
  unfold failures
  rw [sinceSuccess_success h]
  rfl

theorem failures_other (h : r.succeeds = false) (replies : List BreakerReply) :
    failures (replies ++ [r]) = failures replies + if r.fails then 1 else 0 := by
  unfold failures
  rw [sinceSuccess_other h, List.countP_append, List.countP_singleton]

/-- The failure numbered `n` comes last. -/
theorem fromFailure_reached (hn : n = replies.countP (·.fails) + 1) (hr : r.fails) :
    fromFailure n (replies ++ [r]) = [r] := by
  induction replies generalizing n with
  | nil => simp [fromFailure, hr, hn]
  | cons q rest ih =>
    by_cases hq : q.fails
    · simp only [List.countP_cons, hq, if_true] at hn
      simp only [List.cons_append, fromFailure, hq, if_true, if_neg (show ¬n ≤ 1 by omega)]
      exact ih (by omega)
    · simp only [List.countP_cons, hq, Bool.false_eq_true, if_false, Nat.add_zero] at hn
      simp only [List.cons_append, fromFailure, hq, Bool.false_eq_true, if_false]
      exact ih hn

/-- The failure numbered `n` has come before. -/
theorem fromFailure_passed (hpos : 0 < n) (hn : n ≤ replies.countP (·.fails)) :
    fromFailure n (replies ++ [r]) = fromFailure n replies ++ [r] := by
  induction replies generalizing n with
  | nil => simp at hn; omega
  | cons q rest ih =>
    by_cases hq : q.fails
    · simp only [List.countP_cons, hq, if_true] at hn
      by_cases hone : n ≤ 1
      · simp [fromFailure, hq, hone]
      · simp only [List.cons_append, fromFailure, hq, if_true, if_neg hone]
        exact ih (by omega) (by omega)
    · simp only [List.countP_cons, hq, Bool.false_eq_true, if_false, Nat.add_zero] at hn
      simp only [List.cons_append, fromFailure, hq, Bool.false_eq_true, if_false]
      exact ih hpos hn

/-- The failure that reaches the limit starts the cooldown. -/
theorem anchor?_reached (hn : n = failures replies + 1) (hr : r.fails) (hother : r.succeeds = false) :
    anchor? n (replies ++ [r]) = some r.request.time := by
  unfold anchor?
  rw [sinceSuccess_other hother, fromFailure_reached hn hr]
  simp [anchors, hr]

/-- Every further failure and every admitted call starts it anew. -/
theorem anchor?_passed (hpos : 0 < n) (hn : n ≤ failures replies) (hother : r.succeeds = false) :
    anchor? n (replies ++ [r]) = if r.anchors then some r.request.time else anchor? n replies := by
  unfold anchor?
  rw [sinceSuccess_other hother, fromFailure_passed hpos hn, List.filter_append]
  by_cases hr : r.anchors
  · simp [hr]
  · simp [hr]

end BreakerReply

namespace Breaker

open BreakerReply

def call (c : BreakerSettings) (b : Breaker) (r : BreakerRequest) : Except Stop Unit × Breaker :=
  match r.call with
  | .pass => b.pass c r.time
  | .success => (.ok (), b.recordSuccess)
  | .failure => b.recordFailure c r.time

/-- Asks and tells a breaker one thing after another. -/
def serve (c : BreakerSettings) : Breaker → List BreakerRequest → List BreakerReply
  | _, [] => []
  | b, r :: rs => ⟨r, (b.call c r).1⟩ :: serve c (b.call c r).2 rs

/-- A breaker keeps of its trace how many failures there were while they are few, and from when on it
lets a call through when they are too many. -/
def Keeps (c : BreakerSettings) (replies : List BreakerReply) : Breaker → Prop
  | .closed n => failures replies = n ∧ n < c.limit
  | .opened retryAt => c.limit ≤ failures replies ∧
      ∃ a, anchor? c.limit replies = some a ∧ retryAt = ⟨a.ns + c.wait⟩
  | .halfOpen probeAt => c.limit ≤ failures replies ∧ anchor? c.limit replies = some probeAt ∧
      c.Fits probeAt

/-- What is answered after these replies: a call is let through unless the circuit is cooling, and of
what the breaker is told it takes note. -/
def Answers (c : BreakerSettings) (replies : List BreakerReply) (r : BreakerReply) : Prop :=
  (r.answer = .ok () ∨ r.rejected) ∧ (r.rejected ↔ r.request.call = .pass ∧ c.Cooling replies r.request.time)

/-- The answer to a request follows from these replies, and the breaker is kept up with them. -/
def Follows (c : BreakerSettings) (replies : List BreakerReply) (q : BreakerRequest)
    (done : Except Stop Unit × Breaker) : Prop :=
  Answers c replies ⟨q, done.1⟩ ∧ Keeps c (replies ++ [⟨q, done.1⟩]) done.2

variable {c : BreakerSettings} {b : Breaker} {replies : List BreakerReply} {t a : Instant}

theorem keeps_initial (c : BreakerSettings) : Keeps c [] .initial := ⟨rfl, c.limit_pos⟩

/-- What the breaker is told it takes note of. -/
theorem answers_told {q : BreakerRequest} (h : q.call ≠ .pass) : Answers c replies ⟨q, .ok ()⟩ := by
  refine ⟨Or.inl rfl, iff_of_false ?_ fun hcall => h hcall.1⟩
  simp [BreakerReply.rejected]

/-- When the cooldown of an open circuit is over, the next call is let through as its probe. -/
theorem follows_probe (hlimit : c.limit ≤ failures replies) (hanchor : anchor? c.limit replies = some a)
    (hover : a.ns + c.wait ≤ t.ns) (hfits : c.Fits t) : Follows c replies ⟨t, .pass⟩ (.ok (), .halfOpen t) := by
  have hwarm : ¬c.Cooling replies t := by
    rintro ⟨-, a', ha', hlt⟩
    rw [hanchor] at ha'
    cases ha'
    exact absurd hlt (Int.not_lt.mpr hover)
  have hpassed := anchor?_passed (r := ⟨⟨t, .pass⟩, .ok ()⟩) c.limit_pos hlimit rfl
  refine ⟨⟨Or.inl rfl, iff_of_false Bool.false_ne_true fun hcall => hwarm hcall.2⟩, ?_, hpassed, hfits⟩
  rw [failures_other rfl]
  exact Nat.le_add_right_of_le hlimit

/-- Until then a call is turned away, which changes nothing. -/
theorem follows_rejected (h : Keeps c replies b) (hlimit : c.limit ≤ failures replies)
    (hanchor : anchor? c.limit replies = some a) (hcooling : t.ns < a.ns + c.wait) (retryAt : Instant) :
    Follows c replies ⟨t, .pass⟩ (reject retryAt t, b) := by
  refine ⟨⟨Or.inr rfl, iff_of_true rfl ⟨rfl, hlimit, a, hanchor, hcooling⟩⟩, ?_⟩
  have hfailures := failures_other (r := ⟨⟨t, .pass⟩, reject retryAt t⟩) rfl replies
  have hpassed := anchor?_passed (r := ⟨⟨t, .pass⟩, reject retryAt t⟩) c.limit_pos hlimit rfl
  have hquiet : BreakerReply.anchors ⟨⟨t, .pass⟩, reject retryAt t⟩ = false := rfl
  rw [hquiet, if_neg Bool.false_ne_true] at hpassed
  cases b with
  | closed n => exact absurd hlimit (Nat.not_le.mpr (h.1 ▸ h.2))
  | opened retryAt' =>
    obtain ⟨-, hretry⟩ := h
    refine ⟨?_, hpassed ▸ hretry⟩
    rw [hfailures]
    exact Nat.le_add_right_of_le hlimit
  | halfOpen probeAt =>
    obtain ⟨-, hprobe⟩ := h
    refine ⟨?_, hpassed ▸ hprobe⟩
    rw [hfailures]
    exact Nat.le_add_right_of_le hlimit

theorem pass_follows (h : Keeps c replies b) (hfits : c.Fits t) :
    Follows c replies ⟨t, .pass⟩ (b.pass c t) := by
  cases b with
  | closed n =>
    obtain ⟨hfailures, hfew⟩ := h
    refine ⟨⟨Or.inl rfl, iff_of_false Bool.false_ne_true ?_⟩, ?_, hfew⟩
    · rintro ⟨-, hlimit, -⟩
      omega
    · rw [failures_other rfl, hfailures]
      rfl
  | opened retryAt =>
    obtain ⟨hlimit, a, hanchor, rfl⟩ := id h
    rw [pass]
    split
    · rename_i hover
      exact follows_probe hlimit hanchor hover hfits
    · rename_i hcooling
      exact follows_rejected h hlimit hanchor (Int.not_le.mp hcooling) _
  | halfOpen probeAt =>
    obtain ⟨hlimit, hanchor, hprobe⟩ := id h
    rw [pass, BreakerSettings.cooldownEnd?_fits hprobe]
    dsimp only
    split
    · rename_i hover
      exact follows_probe hlimit hanchor hover hfits
    · rename_i hcooling
      exact follows_rejected h hlimit hanchor (Int.not_le.mp hcooling) _

/-- A failure that reaches the limit, or comes later, starts the cooldown. -/
theorem follows_opened (hlimit : c.limit ≤ failures replies + 1) :
    Follows c replies ⟨t, .failure⟩ (.ok (), .opened ⟨t.ns + c.wait⟩) := by
  refine ⟨answers_told (by simp), ?_, t, ?_, rfl⟩
  · rw [failures_other rfl]
    exact hlimit
  · by_cases hpassed : c.limit ≤ failures replies
    · exact anchor?_passed c.limit_pos hpassed rfl
    · exact anchor?_reached (by omega) rfl rfl

theorem recordFailure_follows (h : Keeps c replies b) (hfits : c.Fits t) :
    Follows c replies ⟨t, .failure⟩ (b.recordFailure c t) := by
  have hend := BreakerSettings.cooldownEnd?_fits hfits
  cases b with
  | closed n =>
    obtain ⟨hfailures, hfew⟩ := h
    rw [recordFailure, hend]
    dsimp only
    split
    · rename_i hopens
      refine follows_opened ?_
      rw [hfailures]
      exact Nat.max_le.mpr ⟨hopens, Nat.le_add_left 1 n⟩
    · rename_i hfewer
      refine ⟨answers_told (by simp), ?_, ?_⟩
      · rw [failures_other rfl, hfailures]
        rfl
      · exact Nat.lt_of_lt_of_le (Nat.not_le.mp hfewer) (Nat.le_max_left _ _)
  | opened retryAt =>
    rw [recordFailure, hend]
    exact follows_opened (Nat.le_succ_of_le h.1)
  | halfOpen probeAt =>
    rw [recordFailure, hend]
    exact follows_opened (Nat.le_succ_of_le h.1)

theorem call_follows (h : Keeps c replies b) {q : BreakerRequest}
    (hfits : q.call ≠ .success → c.Fits q.time) : Follows c replies q (b.call c q) := by
  obtain ⟨t, kind⟩ := q
  unfold call
  cases kind with
  | pass => exact pass_follows h (hfits (by simp))
  | success => exact ⟨answers_told (by simp), failures_success rfl replies, c.limit_pos⟩
  | failure => exact recordFailure_follows h (hfits (by simp))

/-- Every answer of a breaker follows from the replies before it. -/
theorem serve_answers {rs : List BreakerRequest} (h : Keeps c replies b)
    (hfits : ∀ q ∈ rs, q.call ≠ .success → c.Fits q.time) {before after : List BreakerReply} {r : BreakerReply}
    (hserve : serve c b rs = before ++ r :: after) : Answers c (replies ++ before) r := by
  induction rs generalizing replies b before with
  | nil => simp [serve] at hserve
  | cons q rs ih =>
    obtain ⟨hanswers, hkeeps⟩ := call_follows h (hfits q (by simp))
    cases before with
    | nil =>
      obtain ⟨rfl, -⟩ := List.cons.inj hserve
      rw [List.append_nil]
      exact hanswers
    | cons p before =>
      obtain ⟨rfl, hrest⟩ := List.cons.inj hserve
      rw [List.append_cons]
      exact ih hkeeps (fun q' hq' => hfits q' (by simp [hq'])) hrest

theorem serve_requests (c : BreakerSettings) (b : Breaker) (rs : List BreakerRequest) :
    (serve c b rs).map (·.request) = rs := by
  induction rs generalizing b with
  | nil => rfl
  | cons r rs ih => simp [serve, ih]

/-- While nothing but calls comes after an admitted one, the cooldown starts no earlier than there. -/
theorem anchor?_after {before mid : List BreakerReply} {p : BreakerReply} (hlimit : c.limit ≤ failures before)
    (hp : p.accepted) (hmid : ∀ r ∈ mid, r.request.call = .pass)
    (hlater : ∀ r ∈ mid, p.request.time ≤ r.request.time) :
    c.limit ≤ failures (before ++ p :: mid) ∧
      ∃ a, anchor? c.limit (before ++ p :: mid) = some a ∧ p.request.time ≤ a := by
  obtain ⟨hpass, -⟩ := accepted_passed hp
  have hother (r : BreakerReply) (hr : r.request.call = .pass) : r.succeeds = false := by
    simp [BreakerReply.succeeds, hr]
  induction mid using List.reverseRecOn with
  | nil =>
    refine ⟨?_, p.request.time, ?_, Int.le_refl _⟩
    · rw [failures_other (hother p hpass)]
      omega
    · rw [anchor?_passed c.limit_pos hlimit (hother p hpass)]
      simp [anchors, hp]
  | append_singleton mid r ih =>
    obtain ⟨hmore, a, ha, hle⟩ := ih (fun q hq => hmid q (by simp [hq])) fun q hq => hlater q (by simp [hq])
    have hr := hother r (hmid r (by simp))
    rw [← List.cons_append, ← List.append_assoc]
    refine ⟨?_, ?_⟩
    · rw [failures_other hr]
      omega
    · rw [anchor?_passed c.limit_pos hmore hr]
      split
      · exact ⟨_, rfl, hlater r (by simp)⟩
      · exact ⟨a, ha, hle⟩

/-- A new breaker that is asked and told things in the order of time rejects a call if the failures since
the last success have reached the limit and the cooldown is not over, counted from the last failure or
admitted call since then, and only in that case; everything else it lets through or takes note of. So an
open circuit lets one call through in each cooldown, as long as no result is recorded. -/
theorem rejects_while_cooling (c : BreakerSettings) {rs : List BreakerRequest}
    (hordered : rs.Pairwise (·.time ≤ ·.time)) (hfits : ∀ q ∈ rs, q.call ≠ .success → c.Fits q.time) :
    (∀ before r after, serve c .initial rs = before ++ r :: after →
      (r.answer = .ok () ∨ r.rejected) ∧
        (r.rejected ↔ r.request.call = .pass ∧ c.Cooling before r.request.time)) ∧
    (∀ before p mid q after, serve c .initial rs = before ++ p :: mid ++ q :: after →
      c.limit ≤ failures before → p.accepted → q.accepted → (∀ r ∈ mid, r.request.call = .pass) →
        p.request.time.ns + c.wait ≤ q.request.time.ns) := by
  have hanswers (before after : List BreakerReply) (r : BreakerReply)
      (hserve : serve c .initial rs = before ++ r :: after) : Answers c before r :=
    serve_answers (keeps_initial c) hfits hserve
  refine ⟨fun before r after hserve => hanswers before after r hserve, ?_⟩
  intro before p mid q after hserve hlimit hp hq hmid
  have htimes : (serve c .initial rs).Pairwise (·.request.time ≤ ·.request.time) := by
    rw [← serve_requests c .initial rs, List.pairwise_map] at hordered
    exact hordered
  rw [hserve, List.append_assoc, List.pairwise_append] at htimes
  have hlater : ∀ r ∈ mid, p.request.time ≤ r.request.time := fun r hr =>
    (List.pairwise_cons.mp htimes.2.1).1 r (by simp [hr])
  obtain ⟨hmore, a, ha, hle⟩ := anchor?_after hlimit hp hmid hlater
  obtain ⟨-, hrejected⟩ := hanswers _ _ _ hserve
  obtain ⟨hpass, hadmitted⟩ := accepted_passed hq
  have hover : a.ns + c.wait ≤ q.request.time.ns := by
    refine Int.not_lt.mp fun hlt => ?_
    rw [hrejected.mpr ⟨hpass, hmore, a, ha, hlt⟩] at hadmitted
    cases hadmitted
  exact Int.le_trans (Int.add_le_add_right hle _) hover

/-- A failure that comes late puts the probe off, and a probe that never reports is replaced after another
cooldown. -/
theorem rejects_while_cooling_anew :
    let c : BreakerSettings := { threshold := 2, cooldownMs := 1000 }
    let rs : List BreakerRequest := [⟨⟨0⟩, .failure⟩, ⟨⟨500000000⟩, .failure⟩, ⟨⟨1000000000⟩, .failure⟩,
      ⟨⟨1600000000⟩, .pass⟩, ⟨⟨2000000000⟩, .pass⟩, ⟨⟨2500000000⟩, .pass⟩, ⟨⟨3000000000⟩, .pass⟩,
      ⟨⟨3100000000⟩, .success⟩, ⟨⟨3100000000⟩, .pass⟩]
    rs.Pairwise (·.time ≤ ·.time) ∧ (∀ q ∈ rs, q.call ≠ .success → c.Fits q.time) ∧
      (serve c .initial rs).map (·.rejected) = [false, false, false, true, false, true, false, false, false] ∧
      c.Cooling ((serve c .initial rs).take 3) ⟨1600000000⟩ := by
  intro c rs
  have hordered : rs.Pairwise (·.time ≤ ·.time) := by decide
  have hfits : ∀ q ∈ rs, q.call ≠ .success → c.Fits q.time := by decide
  have hlaw := (rejects_while_cooling c hordered hfits).1
  have hturned : serve c .initial rs = (serve c .initial rs).take 3 ++
      ⟨⟨⟨1600000000⟩, .pass⟩, .error (.error (.circuitOpen 400))⟩ :: (serve c .initial rs).drop 4 := by
    decide
  exact ⟨hordered, hfits, by decide, ((hlaw _ _ _ hturned).2.mp rfl).2⟩

end Breaker

end FencedSessions
