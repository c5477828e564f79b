import Mathlib.Data.ENat.Lattice
import FencedSessions.Site.Task

/-! How often a retried operation is called, and how long it is left alone between two calls. The delays
double up to the cap as exact numbers do, although they are computed in 64 bits; jitter shortens them and
changes nothing else. The attempts of a task at a step go by the same schedule. -/

namespace FencedSessions

namespace RetryPolicy

variable {p : RetryPolicy} {draw : Nat → Nat → Nat} {answer : Nat → Outcome} {left attempt n : Nat}

/-- A product that does not fit is beyond the cap all the same, so no delay shows the bounds of the words
that it is computed in. -/
theorem backoff_exact (hcap : p.capMs < Word.size64) (attempt : Nat) :
    p.backoff attempt = min (p.baseMs * 2 ^ attempt) p.capMs := by
  have hword : p.capMs ≤ wordMax := Nat.le_pred_of_lt hcap
  rw [backoff, Nat.min_assoc, Nat.min_eq_right hword]
  unfold powerOfTwo
  split
  · rfl
  · rename_i hlarge
    rcases Nat.eq_zero_or_pos p.baseMs with hzero | hpos
    · simp [hzero]
    · have hpower : wordMax ≤ 2 ^ attempt :=
        calc wordMax ≤ 2 ^ 64 := by decide
          _ ≤ 2 ^ attempt := Nat.pow_le_pow_right (by decide) (Nat.le_of_not_lt hlarge)
      have hsaturated : p.capMs ≤ p.baseMs * wordMax := hword.trans (Nat.le_mul_of_pos_left _ hpos)
      have hexact : p.capMs ≤ p.baseMs * 2 ^ attempt :=
        hsaturated.trans (Nat.mul_le_mul_left _ hpower)
      rw [Nat.min_eq_right hsaturated, Nat.min_eq_right hexact]

/-- The product here takes 65 bits. -/
example : (⟨100, 3, Word.size64 - 1, false⟩ : RetryPolicy).backoff 63 = 18446744073709551615 := by decide

theorem delay_le_backoff {draw : Nat → Nat} (h : ∀ bound, draw bound ≤ bound) (attempt : Nat) :
    p.delay draw attempt ≤ p.backoff attempt := by
  unfold delay
  dsimp only
  split
  · exact h _
  · exact Nat.le_refl _

theorem delay_plain (h : p.jitter = false) (draw : Nat → Nat) (attempt : Nat) :
    p.delay draw attempt = p.backoff attempt := by
  simp [delay, h]

/-- Drawn at its bound, a delay is as long as without jitter. -/
theorem delay_id (p : RetryPolicy) (attempt : Nat) : p.delay id attempt = p.backoff attempt := by
  simp [delay]

/-- The retries of an operation end with the call numbered `n`, if `left` of them are allowed. -/
structure LastCall (answer : Nat → Outcome) (left n : Nat) : Prop where
  le : n ≤ left
  before : ∀ i < n, (answer i).retryable
  ends : n = left ∨ (answer n).retryable = false

namespace LastCall

/-- Whether a call is the last one depends on the outcomes up to its own. -/
theorem congr (h : LastCall answer left n) {answer' : Nat → Outcome} (hsame : ∀ i ≤ n, answer' i = answer i) :
    LastCall answer' left n where
  le := h.le
  before i hi := by rw [hsame i (Nat.le_of_lt hi)]; exact h.before i hi
  ends := by rw [hsame n (Nat.le_refl n)]; exact h.ends

/-- The last call of the operation that is left after a first call. -/
theorem next (h : LastCall answer (left + 1) (n + 1)) : LastCall (fun i => answer (i + 1)) left n where
  le := Nat.le_of_succ_le_succ h.le
  before i hi := h.before (i + 1) (Nat.succ_lt_succ hi)
  ends := h.ends.imp_left Nat.succ.inj

end LastCall

theorem course_eq (h : LastCall (fun i => answer (i + attempt)) left n) :
    p.course draw answer left attempt =
      ⟨(List.range' attempt n).map fun i => p.delay (draw i) i, n + 1, answer (n + attempt)⟩ := by
  induction n generalizing left attempt with
  | zero =>
    cases left with
    | zero => simp [course]
    | succ left =>
      have hfinal : (answer (0 + attempt)).retryable = false := h.ends.resolve_left (Nat.succ_ne_zero left).symm
      rw [Nat.zero_add] at hfinal ⊢
      simp [course, hfinal]
  | succ n ih =>
    obtain ⟨left, rfl⟩ : ∃ m, left = m + 1 := ⟨left - 1, by have hle := h.le; omega⟩
    have hfirst : (answer (0 + attempt)).retryable := h.before 0 (Nat.succ_pos n)
    have hshift (i : Nat) : i + 1 + attempt = i + (attempt + 1) := Nat.succ_add_eq_add_succ i attempt
    have hnext : LastCall (fun i => answer (i + (attempt + 1))) left n := by
      simpa only [hshift] using h.next
    rw [Nat.zero_add] at hfirst
    simp [course, hfirst, ih hnext, List.range'_succ, hshift]

/-- The course of an operation, told from its last call. -/
theorem runDrawing_eq (h : LastCall answer p.maxRetries n) :
    p.runDrawing draw answer = ⟨(List.range n).map fun i => p.delay (draw i) i, n + 1, answer n⟩ := by
  have hcourse : p.course draw answer p.maxRetries 0 = _ := course_eq h
  rwa [← List.range_eq_range'] at hcourse

theorem runDrawing_slept {i ms : Nat} (h : LastCall answer p.maxRetries n)
    (hms : (p.runDrawing draw answer).slept[i]? = some ms) : i < n ∧ ms = p.delay (draw i) i := by
  rw [runDrawing_eq h] at hms
  obtain ⟨hi, hms⟩ := List.getElem?_eq_some_iff.mp hms
  simp at hi hms
  exact ⟨hi, hms.symm⟩

/-- The number of the first final outcome, infinite if there is none. -/
noncomputable def firstFinal (answer : Nat → Outcome) : ℕ∞ :=
  sInf {k | ∃ i : Nat, k = i ∧ (answer i).retryable = false}

theorem retryable_of_lt {i : Nat} (h : (i : ℕ∞) < firstFinal answer) : (answer i).retryable := by
  by_contra hretry
  have hfirst : firstFinal answer ≤ i := sInf_le ⟨i, rfl, Bool.eq_false_iff.mpr hretry⟩
  exact absurd hfirst (not_le.mpr h)

theorem final_of_eq {i : Nat} (h : firstFinal answer = i) : (answer i).retryable = false := by
  have hsome : {k : ℕ∞ | ∃ i : Nat, k = i ∧ (answer i).retryable = false}.Nonempty := by
    by_contra hnone
    rw [firstFinal, Set.not_nonempty_iff_eq_empty.mp hnone, sInf_empty] at h
    exact ENat.natCast_ne_top i h.symm
  obtain ⟨j, hj, hfinal⟩ := csInf_mem hsome
  have hij : (i : ℕ∞) = j := h.symm.trans hj
  rwa [Nat.cast_inj.mp hij]

/-- The retries end with the first final outcome, or with the last retry that is allowed. -/
theorem exists_lastCall (answer : Nat → Outcome) (left : Nat) :
    ∃ n : Nat, (n : ℕ∞) = min (firstFinal answer) left ∧ LastCall answer left n := by
  have hfinite : min (firstFinal answer) left ≠ ⊤ :=
    ne_top_of_le_ne_top (ENat.natCast_ne_top left) (min_le_right _ _)
  obtain ⟨n, hn⟩ := ENat.ne_top_iff_exists.mp hfinite
  refine ⟨n, hn, Nat.cast_le.mp (hn.le.trans (min_le_right _ _)), fun i hi => ?_, ?_⟩
  · have hbefore : (i : ℕ∞) < n := Nat.cast_lt.mpr hi
    exact retryable_of_lt (hbefore.trans_le (hn.le.trans (min_le_left _ _)))
  · rcases min_choice (firstFinal answer) (left : ℕ∞) with hmin | hmin
    · exact .inr (final_of_eq (hmin.symm.trans hn.symm))
    · exact .inl (Nat.cast_inj.mp (hn.trans hmin))

/-- What the course of an operation under a policy is to be: it ends with the first final outcome or when
the retries are used up, and in between it waits by the schedule. -/
structure Scheduled (p : RetryPolicy) (answer : Nat → Outcome) (c : Course) : Prop where
  calls : (c.calls : ℕ∞) = min (firstFinal answer) p.maxRetries + 1
  outcome : c.outcome = answer (c.calls - 1)
  /-- There is a delay after each call but the last one. -/
  delays : c.slept.length = c.calls - 1
  plain : p.jitter = false → ∀ i ms, c.slept[i]? = some ms → ms = min (p.baseMs * 2 ^ i) p.capMs
  bounded : ∀ i ms, c.slept[i]? = some ms → ms ≤ min (p.baseMs * 2 ^ i) p.capMs

/-- A retried operation is called, answers and is left alone by the schedule. Its delays are those of exact
numbers, or shorter with jitter, and no outcome matters beyond those of the calls that are made. -/
theorem runDrawing_scheduled (p : RetryPolicy) (hcap : p.capMs < Word.size64) (draw : Nat → Nat → Nat)
    (hdraw : ∀ i bound, draw i bound ≤ bound) (answer : Nat → Outcome) :
    (∀ i, p.backoff i = min (p.baseMs * 2 ^ i) p.capMs) ∧
      p.Scheduled answer (p.runDrawing draw answer) ∧
      ∀ answer', (∀ i < (p.runDrawing draw answer).calls, answer' i = answer i) →
        p.runDrawing draw answer' = p.runDrawing draw answer := by
  obtain ⟨n, hmin, hlast⟩ := exists_lastCall answer p.maxRetries
  refine ⟨backoff_exact hcap, ⟨?_, ?_, ?_, fun hjitter i ms hms => ?_, fun i ms hms => ?_⟩,
    fun answer' hsame => ?_⟩
  · rw [runDrawing_eq hlast, ← hmin, Nat.cast_succ]
  · rw [runDrawing_eq hlast]
    rfl
  · simp [runDrawing_eq hlast]
  · rw [(runDrawing_slept hlast hms).2, delay_plain hjitter, backoff_exact hcap]
  · rw [(runDrawing_slept hlast hms).2, ← backoff_exact hcap]
    exact delay_le_backoff (hdraw i) i
  · rw [runDrawing_eq hlast] at hsame ⊢
    have hsame (i : Nat) (hi : i ≤ n) : answer' i = answer i := hsame i (Nat.lt_succ_of_le hi)
    rw [runDrawing_eq (hlast.congr hsame), hsame n (Nat.le_refl n)]

/-- With jitter, and two retries before a success: the second delay is drawn at half its bound. -/
theorem runDrawing_scheduled_jitter :
    (⟨3, 100, 150, true⟩ : RetryPolicy).Scheduled
      (fun i => if i < 2 then .conflict true "busy" else .success .running 2)
      ⟨[100, 75], 3, .success .running 2⟩ := by
  let draw (i bound : Nat) : Nat := bound / (i + 1)
  have hdraw (i bound : Nat) : draw i bound ≤ bound := Nat.div_le_self bound (i + 1)
  have hcourse : (⟨3, 100, 150, true⟩ : RetryPolicy).runDrawing draw
      (fun i => if i < 2 then .conflict true "busy" else .success .running 2) =
      ⟨[100, 75], 3, .success .running 2⟩ := by decide
  rw [← hcourse]
  exact (runDrawing_scheduled _ (by decide) draw hdraw _).2.1

end RetryPolicy

namespace Activity

theorem again_of_pause {x y : Series} {timer due : Nat} {o : Outcome} {result : Option Result}
    (h : afterStep x timer o = (.pause y due, result)) : o.retryable ∧ x.attempt < x.policy.maxRetries := by
  unfold afterStep at h
  split at h
  · rename_i hagain
    simpa using hagain
  · cases hrest : x.rest <;> simp [hrest] at h

/-- A task makes a step again by the schedule of its policy, with every delay at its bound: it pauses after
each attempt but the last one, for as long as is slept there. -/
theorem afterStep_scheduled (x : Series) (answer : Nat → Outcome) (timer : Nat) :
    (∀ i ms, (x.policy.run id answer).slept[i]? = some ms →
      afterStep { x with attempt := i } timer (answer i) =
        (.pause { x with attempt := i + 1 } (timer + ms), none)) ∧
    ∀ i, i + 1 = (x.policy.run id answer).calls → ∀ y due result,
      afterStep { x with attempt := i } timer (answer i) ≠ (.pause y due, result) := by
  obtain ⟨n, -, hlast⟩ := RetryPolicy.exists_lastCall answer x.policy.maxRetries
  constructor
  · intro i ms hms
    obtain ⟨hi, rfl⟩ := RetryPolicy.runDrawing_slept hlast hms
    have hretry : (answer i).retryable := hlast.before i hi
    have hleft : i < x.policy.maxRetries := Nat.lt_of_lt_of_le hi hlast.le
    simp [afterStep, hretry, hleft, RetryPolicy.delay_id]
  · intro i hi y due result hpause
    rw [RetryPolicy.run, RetryPolicy.runDrawing_eq hlast] at hi
    obtain rfl : i = n := Nat.succ.inj hi
    obtain ⟨hretry, hleft⟩ := again_of_pause hpause
    rcases hlast.ends with hend | hfinal
    · exact absurd hend (Nat.ne_of_lt hleft)
    · rw [hfinal] at hretry
      cases hretry

end Activity

end FencedSessions
