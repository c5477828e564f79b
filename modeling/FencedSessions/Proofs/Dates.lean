import FencedSessions.Time.Calendar

/-! Every day has one date, and it is a date of the calendar. Days are split into eras of 400 years,
so all that needs proof is the arithmetic within one era. -/

namespace FencedSessions.Calendar

section Era

variable {doe yoe : Int} (hdoe : 0 ≤ doe ∧ doe ≤ 146096)
  (hyoe : yoe = (doe - doe / 1460 + doe / 36524 - doe / 146096) / 365)
include hdoe hyoe

/-- Only the last day of an era does not lie in the century that its number tells. -/
theorem century_of_era : yoe / 100 = doe / 36524 ∨ (doe = 146096 ∧ yoe = 399) := by
  have hcentury : doe / 36524 = 0 ∨ doe / 36524 = 1 ∨ doe / 36524 = 2 ∨ doe / 36524 = 3 ∨
      doe = 146096 := by omega
  rcases hcentury with h | h | h | h | h <;> omega

theorem year_of_era : 0 ≤ yoe ∧ yoe ≤ 399 := by omega

theorem day_of_year :
    0 ≤ doe - (365 * yoe + yoe / 4 - yoe / 100) ∧ doe - (365 * yoe + yoe / 4 - yoe / 100) ≤ 365 := by
  rcases century_of_era hdoe hyoe with hcentury | ⟨rfl, rfl⟩
  · constructor <;> omega
  · omega

/-- A 366th day is the leap day: years end with February here. -/
theorem leap_of_day (hday : doe - (365 * yoe + yoe / 4 - yoe / 100) = 365) :
    (yoe + 1) % 4 = 0 ∧ ((yoe + 1) % 100 ≠ 0 ∨ (yoe + 1) % 400 = 0) := by
  rcases century_of_era hdoe hyoe with hcentury | ⟨rfl, rfl⟩
  · have hfourth : yoe % 4 = 3 := by
      have hcycle : yoe % 4 ≠ 3 → doe / 1460 = yoe / 4 := by omega
      omega
    omega
  · decide

end Era

/-- A day counted from the start of an era: its year, its month after March and its day, from one. -/
structure Split (n era yoe mp day : Int) : Prop where
  years : 0 ≤ yoe ∧ yoe ≤ 399
  months : 0 ≤ mp ∧ mp ≤ 11
  days : 1 ≤ day ∧ day ≤ 31
  short : mp = 1 ∨ mp = 3 ∨ mp = 6 ∨ mp = 8 → day ≤ 30
  february : mp = 11 → day ≤ 29
  leap : mp = 11 → day = 29 → (yoe + 1) % 4 = 0 ∧ ((yoe + 1) % 100 ≠ 0 ∨ (yoe + 1) % 400 = 0)
  count : n + 719468 =
    era * 146097 + (yoe * 365 + yoe / 4 - yoe / 100 + ((153 * mp + 2) / 5 + day - 1))

theorem split_ofDays (n : Int) : ∃ era yoe mp day : Int, Split n era yoe mp day ∧
    Date.ofDays n = ⟨yoe + era * 400 + (if (if mp < 10 then mp + 3 else mp - 9) ≤ 2 then 1 else 0),
      (if mp < 10 then mp + 3 else mp - 9).toNat, day.toNat⟩ := by
  refine ⟨_, _, _, _, ?_, rfl⟩
  have hdoe : 0 ≤ n + 719468 - (n + 719468) / 146097 * 146097 ∧
      n + 719468 - (n + 719468) / 146097 * 146097 ≤ 146096 := by omega
  generalize hera : (n + 719468) / 146097 = era at hdoe ⊢
  generalize hd : n + 719468 - era * 146097 = doe at hdoe ⊢
  generalize hy : (doe - doe / 1460 + doe / 36524 - doe / 146096) / 365 = yoe
  have hday := day_of_year hdoe hy.symm
  have hleap := leap_of_day hdoe hy.symm
  generalize hdoy : doe - (365 * yoe + yoe / 4 - yoe / 100) = doy at hday hleap ⊢
  exact {
    years := year_of_era hdoe hy.symm
    months := by omega
    days := by omega
    short := by omega
    february := by omega
    leap := fun hmonth hlast => hleap (by omega)
    count := by omega }

theorem toDays_ofDays (n : Int) : (Date.ofDays n).toDays = n := by
  obtain ⟨era, yoe, mp, day, h, hdate⟩ := split_ofDays n
  have hyear := h.years
  have hmonth := h.months
  have hday := h.days
  have hcount := h.count
  rw [hdate]
  simp only [Date.toDays]
  by_cases hmp : mp < 10
  · have hlate : ¬(mp + 3) ≤ 2 := by omega
    simp only [hmp, if_true, hlate, if_false]
    omega
  · have hearly : (mp - 9) ≤ 2 := by omega
    simp only [hmp, if_false, hearly, if_true]
    omega

theorem monthLength_february {year : Int} {day : Nat} (h : day ≤ 29)
    (hleap : day = 29 → year % 4 = 0 ∧ (year % 100 ≠ 0 ∨ year % 400 = 0)) :
    day ≤ monthLength year 2 := by
  unfold monthLength
  by_cases hyear : isLeap year
  · simpa [hyear] using h
  · have hday : day ≠ 29 := fun hd => hyear (by simpa [isLeap] using hleap hd)
    simp only [hyear]
    change day ≤ 28
    omega

theorem Split.month_length {n era yoe mp day : Int} (h : Split n era yoe mp day) :
    day.toNat ≤ monthLength
      (yoe + era * 400 + (if (if mp < 10 then mp + 3 else mp - 9) ≤ 2 then 1 else 0))
      (if mp < 10 then mp + 3 else mp - 9).toNat := by
  have hdays := h.days
  have hshort := h.short
  have hmonths : mp = 0 ∨ mp = 1 ∨ mp = 2 ∨ mp = 3 ∨ mp = 4 ∨ mp = 5 ∨ mp = 6 ∨ mp = 7 ∨ mp = 8 ∨
      mp = 9 ∨ mp = 10 ∨ mp = 11 := by
    have := h.months
    omega
  rcases hmonths with rfl | rfl | rfl | rfl | rfl | rfl | rfl | rfl | rfl | rfl | rfl | rfl
  case inr.inr.inr.inr.inr.inr.inr.inr.inr.inr.inr =>
    have hfebruary := h.february rfl
    have hleap := h.leap rfl
    refine monthLength_february (by omega) fun hday => ?_
    have := hleap (by omega)
    simp
    omega
  all_goals
    simp [monthLength]
    omega

theorem valid_ofDays (n : Int) : (Date.ofDays n).valid := by
  obtain ⟨era, yoe, mp, day, h, hdate⟩ := split_ofDays n
  have hmonths := h.months
  have hdays := h.days
  have hlength := h.month_length
  rw [hdate]
  simp only [Date.valid, Bool.and_eq_true, decide_eq_true_eq]
  refine ⟨⟨⟨?_, ?_⟩, ?_⟩, hlength⟩
  · split <;> omega
  · split <;> omega
  · omega

end FencedSessions.Calendar
