import FencedSessions.Time.Codec
import FencedSessions.Proofs.Dates
import FencedSessions.Proofs.Numerals

/-! A written instant reads back as the same instant. -/

namespace FencedSessions.Instant

open Text

theorem isBlank_digit {c : Char} (h : c.isDigit) : isBlank c = false := by
  obtain ⟨hlow, hhigh⟩ := Char.isDigit_iff_toNat.mp h
  have hzero : '0'.toNat = 48 := rfl
  have hnine : '9'.toNat = 57 := rfl
  simp [isBlank]
  omega

theorem trimStart_cons {c : Char} (h : isBlank c = false) (cs : List Char) :
    trimStart (c :: cs) = c :: cs := by
  simp [trimStart, h]

theorem literal_cons {c : Char} (h : isBlank c = false) (cs : List Char) :
    literal? c (c :: cs) = some cs := by
  simp [literal?, trimStart_cons h]

theorem padded_head {w : Nat} (hw : 0 < w) (n : Nat) :
    ∃ d ds, padded 10 w n = d :: ds ∧ d.isDigit := by
  have hlength : 0 < (padded 10 w n).length := by simpa
  obtain ⟨d, ds, h⟩ := List.exists_cons_of_length_pos hlength
  exact ⟨d, ds, h, isDigit_padded d (h ▸ List.mem_cons_self)⟩

theorem trimStart_padded {w : Nat} (hw : 0 < w) (n : Nat) (cs : List Char) :
    trimStart (padded 10 w n ++ cs) = padded 10 w n ++ cs := by
  obtain ⟨d, ds, h, hd⟩ := padded_head hw n
  rw [h, List.cons_append, trimStart_cons (isBlank_digit hd)]

theorem number_padded {w n : Nat} (h : n < Nat.pow 10 w) (hw : 0 < w) (cs : List Char) :
    number? w (padded 10 w n ++ cs) = some (n, cs) := by
  have htake : (padded 10 w n ++ cs).take w = padded 10 w n := by simp
  have hdigits : (padded 10 w n).takeWhile Char.isDigit = padded 10 w n := by
    simpa using takeWhile_digits (isDigit_padded (w := w) (n := n)) ended_nil
  have hne : (padded 10 w n).isEmpty = false := by
    rw [List.isEmpty_eq_false_iff_exists_mem]
    exact List.exists_mem_of_length_pos (by simpa)
  have hdrop : (padded 10 w n ++ cs).drop (padded 10 w n).length = cs := by simp
  simp only [number?, htake, hdigits, hne, hdrop, decimalValue_padded h]
  rfl

theorem twoDigits_padded {n : Nat} (h : n < 100) (cs : List Char) :
    twoDigits? (padded 10 2 n ++ cs) = some (n, cs) := by
  rw [twoDigits?, trimStart_padded (by decide) n, number_padded (by omega) (by decide)]

theorem longNumber_decimal (k n : Nat) {cs : List Char} (h : Ended cs) :
    longNumber? (List.replicate k '0' ++ decimal n ++ cs) = some (n, cs) := by
  have hdigits : ∀ c ∈ List.replicate k '0' ++ decimal n, c.isDigit := by
    intro c hc
    rcases List.mem_append.mp hc with hc | hc
    · rw [List.eq_of_mem_replicate hc]
      rfl
    · exact isDigit_decimal c hc
  have hne : (List.replicate k '0' ++ decimal n).isEmpty = false := by
    simp [decimal_ne_nil n]
  simp only [longNumber?, takeWhile_digits hdigits h, dropWhile_digits hdigits h, hne,
    decimalValue_zeros, decimalValue_decimal]
  rfl

theorem year_yearText (y : Int) {cs : List Char} (h : Ended cs) :
    year? (yearText y ++ cs) = some (y, cs) := by
  unfold yearText
  split
  · rename_i hy
    have hlt : y.toNat < 10 ^ 4 := by omega
    have hnat : (y.toNat : Int) = y := by omega
    have hnumber := number_padded hlt (by decide) cs
    obtain ⟨d, ds, hd, hdigit⟩ := padded_head (show 0 < 4 by decide) y.toNat
    have hsign : d ≠ '-' ∧ d ≠ '+' := by
      constructor <;> rintro rfl <;> cases hdigit
    rw [hd, List.cons_append] at hnumber ⊢
    simp [year?, trimStart_cons (isBlank_digit hdigit), hsign, hnumber, hnat]
  · have hlong := longNumber_decimal (4 - (decimal y.natAbs).length) y.natAbs h
    split
    · have hminus : isBlank '-' = false := rfl
      have habs : -(y.natAbs : Int) = y := by omega
      simp only [List.cons_append, year?, trimStart_cons hminus, hlong, Option.map_some, habs]
    · have hplus : isBlank '+' = false := rfl
      have habs : (y.natAbs : Int) = y := by omega
      simp only [List.cons_append, year?, trimStart_cons hplus, hlong, Option.map_some, habs]

theorem fraction_padded {w n : Nat} (hw : 0 < w ∧ w ≤ 9) (h : n < Nat.pow 10 w) :
    fraction? ('.' :: (padded 10 w n ++ ['Z'])) = some (n * Nat.pow 10 (9 - w), ['Z']) := by
  have hended (k : Nat) : Ended (['Z'].take k) := by
    cases k with
    | zero => exact ended_nil
    | succ k => exact ended_cons rfl
  have hlength := length_padded 10 w n
  have htake : ((padded 10 w n ++ ['Z']).take 9).takeWhile Char.isDigit = padded 10 w n := by
    rw [List.take_append, List.take_of_length_le (by omega), takeWhile_digits isDigit_padded
      (hended _)]
  have hempty : (padded 10 w n).isEmpty = false := by
    obtain ⟨d, ds, hd, -⟩ := padded_head hw.1 n
    rw [hd]
    rfl
  have hdrop : (padded 10 w n ++ ['Z']).dropWhile Char.isDigit = ['Z'] :=
    dropWhile_digits isDigit_padded (hended 1)
  simp only [fraction?, htake, hempty, hdrop, hlength, decimalValue_padded h]
  rfl

theorem fraction_fractionText {nanos : Nat} (h : nanos < 1000000000) :
    fraction? (fractionText nanos ++ ['Z']) = some (nanos, ['Z']) := by
  have hpows : Nat.pow 10 3 = 1000 ∧ Nat.pow 10 6 = 1000000 ∧ Nat.pow 10 9 = 1000000000 :=
    ⟨rfl, rfl, rfl⟩
  unfold fractionText
  split
  · subst nanos
    rfl
  split
  · rw [List.cons_append, fraction_padded (by decide) (by omega)]
    simp
    omega
  split
  · rw [List.cons_append, fraction_padded (by decide) (by omega)]
    simp
    omega
  · rw [List.cons_append, fraction_padded (by decide) (by omega)]
    simp

/-- Lies on the time line. -/
def Held (t : Instant) : Prop := first.ns ≤ t.ns ∧ t.ns ≤ last.ns

instance (t : Instant) : Decidable t.Held :=
  inferInstanceAs (Decidable (first.ns ≤ t.ns ∧ t.ns ≤ last.ns))

theorem held_after {t u : Instant} {d : Span} (h : t.after? d = some u) : u.Held := by
  unfold after? shift? at h
  split at h
  · rename_i hrange
    cases h
    exact hrange
  · cases h

theorem shift_held {t : Instant} {delta : Int} (h : Held ⟨t.ns + delta⟩) :
    t.shift? delta = some ⟨t.ns + delta⟩ := if_pos h

theorem day_lt {date : Calendar.Date} (h : date.valid) : date.month < 100 ∧ date.day < 100 := by
  have hlength : Calendar.monthLength date.year date.month ≤ 31 := by
    unfold Calendar.monthLength
    split
    · split <;> decide
    all_goals decide
  simp only [Calendar.Date.valid, Bool.and_eq_true, decide_eq_true_eq] at h
  omega

theorem guard_holds {p : Prop} [Decidable p] (h : p) : (guard p : Option Unit) = some () := if_pos h

/-- The parts of a text are read one after another. -/
theorem read_then {α β : Type} {part : Option α} {more : α → Option β} {a : α} {b : β}
    (h : part = some a) (hmore : more a = some b) : (part >>= more) = some b := by
  rw [h]
  exact hmore

/-- A written instant reads back. -/
theorem ofText_text {t : Instant} (h : t.Held) : ofText? t.text = some t := by
  have hvalid := Calendar.valid_ofDays (t.ns / nanosPerSecond / secondsPerDay)
  have hdays := Calendar.toDays_ofDays (t.ns / nanosPerSecond / secondsPerDay)
  have hnanos : (t.ns % nanosPerSecond).toNat < 1000000000 := by
    unfold nanosPerSecond
    omega
  have hsod : 0 ≤ t.ns / nanosPerSecond % secondsPerDay ∧
      t.ns / nanosPerSecond % secondsPerDay < 86400 := by
    unfold secondsPerDay
    omega
  unfold ofText? text
  rw [String.toList_ofList]
  unfold chars
  dsimp only
  generalize Calendar.Date.ofDays (t.ns / nanosPerSecond / secondsPerDay) = date at hvalid hdays ⊢
  obtain ⟨year, month, day⟩ := date
  obtain ⟨hmonth, hday⟩ := day_lt hvalid
  generalize hs : t.ns / nanosPerSecond % secondsPerDay = sod at hsod ⊢
  have hhour : sod.toNat / 3600 < 100 := by omega
  have hminute : sod.toNat / 60 % 60 < 100 := by omega
  have hsecond : sod.toNat % 60 < 100 := by omega
  have hclock : sod.toNat / 3600 ≤ 23 ∧ sod.toNat / 60 % 60 ≤ 59 ∧ sod.toNat % 60 ≤ 60 := by omega
  have hdash : isBlank '-' = false := rfl
  have hcolon : isBlank ':' = false := rfl
  have hzone : offset? (trimStart ['Z']) = some (0, []) := rfl
  have hend : (0 : Int).natAbs < 86400 ∧ trimStart [] = [] := by decide
  have hsum : (Calendar.Date.toDays ⟨year, month, day⟩ * 86400 + ↑(sod.toNat / 3600) * 3600 +
      ↑(sod.toNat / 60 % 60) * 60 + ↑(sod.toNat % 60)) * nanosPerSecond +
        ↑(t.ns % nanosPerSecond).toNat = t.ns := by
    rw [hdays]
    unfold nanosPerSecond secondsPerDay at *
    omega
  have hzero : t.ns + -(0 * nanosPerSecond) = t.ns := by simp
  simp only [List.append_assoc, List.cons_append]
  unfold ofChars?
  refine read_then (year_yearText year (ended_cons rfl)) ?_
  refine read_then (literal_cons hdash _) ?_
  refine read_then (twoDigits_padded hmonth _) ?_
  refine read_then (literal_cons hdash _) ?_
  refine read_then (twoDigits_padded hday _) ?_
  refine read_then (guard_holds hvalid) ?_
  refine read_then rfl ?_
  refine read_then (twoDigits_padded hhour _) ?_
  refine read_then (literal_cons hcolon _) ?_
  refine read_then (twoDigits_padded hminute _) ?_
  refine read_then (literal_cons hcolon _) ?_
  refine read_then (twoDigits_padded hsecond _) ?_
  refine read_then (guard_holds hclock) ?_
  refine read_then (fraction_fractionText hnanos) ?_
  refine read_then hzone ?_
  refine read_then (guard_holds hend) ?_
  refine read_then (shift_held (by rw [hsum]; exact h)) ?_
  rw [hsum, shift_held (by rw [hzero]; exact h), hzero]

theorem reader_toJson {t : Instant} (h : t.Held) (room : Nat) :
    reader room (.ofJson t.toJson) = .ok t := by
  simp [reader, toJson, Json.Sketch.ofJson, Json.Reader.filterMap, Json.Reader.string, ofText_text h]

end FencedSessions.Instant
