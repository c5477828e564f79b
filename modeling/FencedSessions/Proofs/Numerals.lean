import FencedSessions.Text.Digits

/-! Runs of digits read back as the numbers they spell, whatever follows them. -/

namespace FencedSessions.Text

/-- Does not go on with a digit. -/
def Ended (cs : List Char) : Prop := ∀ c ∈ cs.head?, c.isDigit = false

theorem ended_nil : Ended [] := by simp [Ended]

theorem ended_cons {c : Char} {cs : List Char} (h : c.isDigit = false) : Ended (c :: cs) := by
  simpa [Ended] using h

theorem takeWhile_digits {ds cs : List Char} (hd : ∀ c ∈ ds, c.isDigit) (hc : Ended cs) :
    (ds ++ cs).takeWhile Char.isDigit = ds := by
  rw [List.takeWhile_append_of_pos hd]
  cases cs with
  | nil => simp
  | cons c cs => simp [hc c (by simp)]

theorem dropWhile_digits {ds cs : List Char} (hd : ∀ c ∈ ds, c.isDigit) (hc : Ended cs) :
    (ds ++ cs).dropWhile Char.isDigit = cs := by
  rw [List.dropWhile_append_of_pos hd]
  cases cs with
  | nil => simp
  | cons c cs => simp [hc c (by simp)]

/-- What does not go on with a digit has no part in a run of digits before it. -/
theorem takeWhile_before (cs : List Char) {rest : List Char} (h : Ended rest) :
    (cs ++ rest).takeWhile Char.isDigit = cs.takeWhile Char.isDigit := by
  induction cs with
  | nil => simpa using takeWhile_digits (List.forall_mem_nil _) h
  | cons c cs ih => by_cases hc : c.isDigit <;> simp [hc, ih]

theorem dropWhile_before (cs : List Char) {rest : List Char} (h : Ended rest) :
    (cs ++ rest).dropWhile Char.isDigit = cs.dropWhile Char.isDigit ++ rest := by
  induction cs with
  | nil => simpa using dropWhile_digits (List.forall_mem_nil _) h
  | cons c cs ih => by_cases hc : c.isDigit <;> simp [hc, ih]

theorem isDigit_decimal {n : Nat} : ∀ c ∈ decimal n, c.isDigit :=
  fun _ h => Nat.isDigit_of_mem_toDigits (by decide) (by decide) h

@[simp] theorem decimalValue_decimal (n : Nat) : decimalValue (decimal n) = n :=
  Nat.ofDigitChars_ten_toDigits

theorem decimal_ne_nil (n : Nat) : decimal n ≠ [] := Nat.toDigits_ne_nil

theorem decimalValue_zeros (k : Nat) (ds : List Char) :
    decimalValue (List.replicate k '0' ++ ds) = decimalValue ds := by
  simp [decimalValue, Nat.ofDigitChars_append]

theorem isDigit_padded {w n : Nat} : ∀ c ∈ padded 10 w n, c.isDigit := by
  induction w generalizing n with
  | zero => simp [padded]
  | succ w ih =>
    intro c hc
    rcases List.mem_append.mp hc with h | h
    · exact ih c h
    · rw [List.mem_singleton.mp h, Nat.isDigit_digitChar]
      exact decide_eq_true (Nat.mod_lt _ (by decide))

@[simp] theorem length_padded (b w n : Nat) : (padded b w n).length = w := by
  induction w generalizing n with
  | zero => rfl
  | succ w ih => simp [padded, ih]

theorem decimalValue_padded {w n : Nat} (h : n < Nat.pow 10 w) :
    decimalValue (padded 10 w n) = n := by
  induction w generalizing n with
  | zero => exact (Nat.lt_one_iff.mp h).symm
  | succ w ih =>
    have hpow : Nat.pow 10 (w + 1) = Nat.pow 10 w * 10 := rfl
    have hdiv : n / 10 < Nat.pow 10 w := by omega
    have ih := ih hdiv
    unfold decimalValue at ih ⊢
    rw [padded, Nat.ofDigitChars_append, ih,
      Nat.ofDigitChars_cons_digitChar_of_lt_ten (Nat.mod_lt _ (by decide)), Nat.ofDigitChars_nil]
    omega

theorem decimal_head (n : Nat) : ∃ d ds, decimal n = d :: ds ∧ d.isDigit := by
  obtain ⟨d, ds, h⟩ := List.exists_cons_of_ne_nil (decimal_ne_nil n)
  have hd : d ∈ decimal n := by simp [h]
  exact ⟨d, ds, h, isDigit_decimal d hd⟩

/-- Only zero is written with a zero in front. -/
theorem decimal_zero {n : Nat} {ds : List Char} (h : decimal n = '0' :: ds) : n = 0 := by
  induction n using Nat.strongRecOn generalizing ds with
  | ind n ih =>
    rcases Nat.lt_or_ge n 10 with hn | hn
    · have h : [n.digitChar] = '0' :: ds := (Nat.toDigits_of_lt_base hn).symm.trans h
      simpa using (List.cons.inj h).1
    · obtain ⟨d, es, he, -⟩ := decimal_head (n / 10)
      have h : decimal (n / 10) ++ [(n % 10).digitChar] = '0' :: ds :=
        (Nat.toDigits_of_base_le (by decide) hn).symm.trans h
      rw [he, List.cons_append] at h
      have hd : d = '0' := (List.cons.inj h).1
      have hzero := ih (n / 10) (by omega) (hd ▸ he)
      omega

theorem hexValue_digitChar {d : Nat} (h : d < 16) : hexValue? d.digitChar = some d := by
  have hall : ∀ d < 16, hexValue? d.digitChar = some d := by decide
  exact hall d h

theorem hexNumber_append (cs : List Char) {d : Nat} (h : d < 16) :
    hexNumber? (cs ++ [d.digitChar]) = (hexNumber? cs).map (· * 16 + d) := by
  unfold hexNumber?
  rw [List.foldl_append]
  cases List.foldl _ (some 0) cs with
  | none => rfl
  | some n => simp [hexValue_digitChar h]

theorem hexNumber_hex (n : Nat) : hexNumber? (hex n) = some n := by
  induction n using Nat.strongRecOn with
  | ind n ih =>
    unfold hex at ih ⊢
    rcases Nat.lt_or_ge n 16 with hn | hn
    · rw [Nat.toDigits_of_lt_base hn]
      simp [hexNumber?, hexValue_digitChar hn]
    · rw [Nat.toDigits_of_base_le (by decide) hn, hexNumber_append _ (Nat.mod_lt _ (by decide)),
        ih (n / 16) (by omega)]
      simp
      omega

theorem hexNumber_padded (w n : Nat) : hexNumber? (padded 16 w n) = some (n % Nat.pow 16 w) := by
  induction w generalizing n with
  | zero => simp [padded, hexNumber?, Nat.mod_one]
  | succ w ih =>
    have hpow : Nat.pow 16 (w + 1) = 16 * Nat.pow 16 w := by simp [Nat.pow_succ, Nat.mul_comm]
    rw [padded, hexNumber_append _ (Nat.mod_lt _ (by decide)), ih, hpow, Nat.mod_mul]
    simp
    omega

end FencedSessions.Text
