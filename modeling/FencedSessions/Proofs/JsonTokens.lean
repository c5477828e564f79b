import FencedSessions.Json.Printer
import FencedSessions.Json.Reader
import FencedSessions.Proofs.Numerals

/-! The scanner finds in a printed string or numeral what was printed, and leaves what follows it. -/

namespace FencedSessions.Json

open Sketch

theorem padded_hex (n : Nat) : Text.padded 16 4 n =
    [(n / 4096 % 16).digitChar, (n / 256 % 16).digitChar, (n / 16 % 16).digitChar,
      (n % 16).digitChar] := by
  simp [Text.padded, Nat.div_div_eq_div_mul]

theorem scanString_unit {n : Nat} (h : n < 65536) (st : StringState) (cs : List Char) :
    scanString st ('\\' :: 'u' :: (Text.padded 16 4 n ++ cs)) = scanString (st.pushUnit n) cs := by
  have hvalue (d : Nat) : Text.hexValue? (d % 16).digitChar = some (d % 16) :=
    Text.hexValue_digitChar (Nat.mod_lt _ (by decide))
  have hn : ((n / 4096 % 16 * 16 + n / 256 % 16) * 16 + n / 16 % 16) * 16 + n % 16 = n := by omega
  rw [padded_hex]
  simp only [List.cons_append, List.nil_append, scanString, scanString.hexValue?, hvalue, hn]

/-- A character that stands for itself. -/
theorem scanString_plain {c : Char} (hq : c ≠ '"') (hs : c ≠ '\\') (hc : ¬c.toNat < 32)
    (read cs : List Char) :
    scanString { read } (c :: cs) = scanString { read := c :: read } cs := by
  rw [scanString.eq_def]
  split
  case h_7 =>
    rename_i heq
    cases heq
    rw [if_neg hc]
    rfl
  all_goals simp_all

/-- A character that is escaped by its number. -/
theorem scanString_numbered {c : Char} (hc : c.toNat < 32) (read cs : List Char) :
    scanString { read } ('\\' :: 'u' :: (Text.padded 16 4 c.toNat ++ cs)) =
      scanString { read := c :: read } cs := by
  have hhigh : ¬(0xD800 ≤ c.toNat ∧ c.toNat ≤ 0xDBFF) := by omega
  have hlow : ¬(0xDC00 ≤ c.toNat ∧ c.toNat ≤ 0xDFFF) := by omega
  rw [scanString_unit (by omega)]
  simp only [StringState.pushUnit, if_neg hhigh, if_neg hlow, Char.ofNat_toNat]

theorem scanString_escaped (c : Char) (read cs : List Char) :
    scanString { read } (escaped c ++ cs) = scanString { read := c :: read } cs := by
  unfold escaped
  iterate 7
    split
    · simp_all [scanString, plainEscape?, StringState.push]
  split
  · exact scanString_numbered ‹_› read cs
  · exact scanString_plain ‹_› ‹_› ‹_› read cs

theorem scanString_quoted (s : String) (cs : List Char) :
    scanString {} (s.toList.flatMap escaped ++ '"' :: cs) = (.string (.ok s), cs) := by
  have hmany (l read : List Char) : scanString { read } (l.flatMap escaped ++ '"' :: cs) =
      (.string (.ok (String.ofList (read.reverse ++ l))), cs) := by
    induction l generalizing read with
    | nil => simp [scanString, StringState.finish]
    | cons c l ih =>
      rw [List.flatMap_cons, List.append_assoc, scanString_escaped, ih]
      simp
  simpa using hmany s.toList []

/-- Cannot be taken for more of a numeral. -/
def Closed (cs : List Char) : Prop :=
  ∀ c ∈ cs.head?, c.isDigit = false ∧ c ≠ '.' ∧ c ≠ 'e' ∧ c ≠ 'E'

theorem Closed.ended {cs : List Char} (h : Closed cs) : Text.Ended cs := fun c hc => (h c hc).1

theorem closed_nil : Closed [] := by simp [Closed]

theorem closed_cons {c : Char} {cs : List Char} (h : c = ',' ∨ c = ']' ∨ c = '}') :
    Closed (c :: cs) := by
  intro d hd
  obtain rfl : c = d := Option.some.inj hd
  rcases h with rfl | rfl | rfl <;> decide

theorem closed_blanks {b cs : List Char} (hb : ∀ c ∈ b, isBlank c) (h : Closed cs) :
    Closed (b ++ cs) := by
  cases b with
  | nil => exact h
  | cons c b =>
    intro d hd
    obtain rfl : c = d := Option.some.inj hd
    have hc := hb c (by simp)
    simp only [isBlank, Bool.or_eq_true, decide_eq_true_eq] at hc
    rcases hc with ((rfl | rfl) | rfl) | rfl <;> decide

section Numbers

variable {cs : List Char} (hcs : Closed cs)
include hcs

theorem scanDigits_decimal (n : Nat) :
    scanDigits (Text.decimal n ++ cs) = .ok (Text.decimal n, cs) := by
  obtain ⟨d, ds, hn, hd⟩ := Text.decimal_head n
  have htake := Text.takeWhile_digits (Text.isDigit_decimal (n := n)) hcs.ended
  have hdrop := Text.dropWhile_digits (Text.isDigit_decimal (n := n)) hcs.ended
  rw [hn, List.cons_append] at htake hdrop ⊢
  simp only [scanDigits, hd, if_true, htake, hdrop]

theorem scanWhole_decimal (n : Nat) :
    scanWhole (Text.decimal n ++ cs) = .ok (Text.decimal n, cs) := by
  have hdigits := scanDigits_decimal hcs n
  unfold scanWhole
  split
  · rename_i c r heq
    obtain ⟨d, ds, hn, hd⟩ := Text.decimal_head n
    have hzero : n = 0 := by
      rw [hn, List.cons_append] at heq
      exact Text.decimal_zero ((List.cons.inj heq).1 ▸ hn)
    subst hzero
    have hr : cs = c :: r := (List.cons.inj heq).2
    have hc := hcs.ended c (by simp [hr])
    rw [hc, ← hr]
    rfl
  · exact hdigits

theorem scanFraction_closed : scanFraction cs = .ok (none, cs) := by
  unfold scanFraction
  split
  · have := hcs '.' (by simp)
    simp_all
  · rfl

theorem scanExponent_closed : scanExponent cs = .ok (none, cs) := by
  unfold scanExponent
  split
  · rfl
  · rename_i c r
    have := hcs c (by simp)
    simp_all

end Numbers

theorem accumulate_digits {ds : List Char} {sig : Nat}
    (h : Nat.ofDigitChars 10 ds sig < Word.size64) :
    Number.accumulate sig ds = (Nat.ofDigitChars 10 ds sig, ds.length) := by
  induction ds generalizing sig with
  | nil => rfl
  | cons c ds ih =>
    have hzero : '0'.toNat = 48 := rfl
    rw [Nat.ofDigitChars_cons, Nat.mul_comm, hzero] at h ⊢
    have hle : sig * 10 + (c.toNat - 48) ≤ Nat.ofDigitChars 10 ds (sig * 10 + (c.toNat - 48)) := by
      rw [Nat.ofDigitChars_eq_ofDigitChars_zero]
      exact Nat.le_trans (Nat.le_mul_of_pos_left _ (Nat.pow_pos (by decide))) (Nat.le_add_right _ _)
    have hlt : sig * 10 + (c.toNat - 48) < Word.size64 := Nat.lt_of_le_of_lt hle h
    simp only [Number.accumulate, if_pos hlt, ih h]
    rfl

/-- An integer that is read as it is written. -/
def Integral (n : Int) : Prop := -Word.half64 ≤ n ∧ n < Word.size64

instance (n : Int) : Decidable (Integral n) :=
  inferInstanceAs (Decidable (-(Word.half64 : Int) ≤ n ∧ n < Word.size64))

theorem ofParts_integer {n : Int} (h : Integral n) :
    Number.ofParts? ⟨n < 0, Text.decimal n.natAbs, none, none⟩ = some (.int n) := by
  have hvalue : Nat.ofDigitChars 10 (Text.decimal n.natAbs) 0 = n.natAbs :=
    Text.decimalValue_decimal _
  have hacc : Number.accumulate 0 (Text.decimal n.natAbs) =
      (n.natAbs, (Text.decimal n.natAbs).length) := by
    rw [accumulate_digits, hvalue]
    unfold Integral Word.half64 Word.size64 at *
    omega
  unfold Integral Word.half64 at h
  simp only [Number.ofParts?, hacc, Nat.sub_self]
  rcases Int.lt_or_le n 0 with hn | hn
  · have habs : (n.natAbs : Int) = -n := by omega
    have hle : 0 < n.natAbs ∧ n.natAbs ≤ Word.half64 := by
      unfold Word.half64
      omega
    simp [hn, hle, habs]
  · have habs : (n.natAbs : Int) = n := by omega
    simp [Int.not_lt.mpr hn, habs]

theorem scanParts_integer (n : Int) {cs : List Char} (hcs : Closed cs) :
    scanParts (Text.signed n ++ cs) = .ok (⟨n < 0, Text.decimal n.natAbs, none, none⟩, cs) := by
  have hwhole := scanWhole_decimal hcs n.natAbs
  have hfraction := scanFraction_closed hcs
  have hexponent := scanExponent_closed hcs
  rcases Int.lt_or_le n 0 with hn | hn
  · have hsigned : Text.signed n ++ cs = '-' :: (Text.decimal n.natAbs ++ cs) := by
      simp [Text.signed, hn]
    simp only [hsigned, scanParts, hn, decide_true, hwhole, bind, Except.bind, hfraction, hexponent]
    rfl
  · have hsigned : Text.signed n ++ cs = Text.decimal n.natAbs ++ cs := by
      simp [Text.signed, Int.not_lt.mpr hn]
    obtain ⟨d, ds, hd, hdigit⟩ := Text.decimal_head n.natAbs
    have hminus : d ≠ '-' := by
      rintro rfl
      cases hdigit
    rw [hsigned, hd, List.cons_append]
    rw [hd, List.cons_append] at hwhole
    simp [scanParts, hminus, hwhole, bind, Except.bind, hfraction, hexponent, Int.not_lt.mpr hn,
      pure, Except.pure]

theorem scanNumber_parts {cs rest : List Char} {p : Number.Parts} {n : Number}
    (hparts : scanParts cs = .ok (p, rest)) (hn : Number.ofParts? p = some n) :
    scanNumber cs = (.number (.ok n), rest) := by
  simp only [scanNumber, hparts, hn]

theorem scanNumber_integer {n : Int} (h : Integral n) {cs : List Char} (hcs : Closed cs) :
    scanNumber (Text.signed n ++ cs) = (.number (.ok (.int n)), cs) :=
  scanNumber_parts (scanParts_integer n hcs) (ofParts_integer h)

/-- The numeral of the number is read as the number. -/
def Readable (n : Number) : Prop := scanNumber n.chars = (.number (.ok n), [])

/-- The numeral of one number is read as the other one. -/
def Reads (n m : Number) : Prop := scanNumber n.chars = (.number (.ok m), [])

theorem readable_integer {n : Int} (h : Integral n) : Readable (.int n) := by
  have hscan := scanNumber_integer h closed_nil
  rw [List.append_nil] at hscan
  exact hscan

section Numerals

variable {cs rest : List Char} (hrest : Closed rest)
include hrest

theorem scanDigits_before {ds r : List Char} (h : scanDigits cs = .ok (ds, r)) :
    scanDigits (cs ++ rest) = .ok (ds, r ++ rest) := by
  cases cs with
  | nil => cases h
  | cons c cs =>
    simp only [scanDigits] at h
    split at h
    · rename_i hc
      have htake := Text.takeWhile_before (c :: cs) hrest.ended
      have hdrop := Text.dropWhile_before (c :: cs) hrest.ended
      cases h
      rw [List.cons_append] at htake hdrop ⊢
      simp only [scanDigits, hc, if_true, htake, hdrop]
    · cases h

theorem scanWhole_before {ds r : List Char} (h : scanWhole cs = .ok (ds, r)) :
    scanWhole (cs ++ rest) = .ok (ds, r ++ rest) := by
  rcases cs with _ | ⟨a, _ | ⟨b, cs⟩⟩
  · cases h
  · by_cases ha : a = '0'
    · subst ha
      cases h
      cases rest with
      | nil => rfl
      | cons c rest =>
        have hc := hrest.ended c (by simp)
        simp [scanWhole, hc]
    · have hdigits : scanDigits [a] = .ok (ds, r) := by simpa [scanWhole, ha] using h
      simpa [scanWhole, ha] using scanDigits_before hrest hdigits
  · by_cases ha : a = '0'
    · subst ha
      simp only [scanWhole] at h
      split at h
      · cases h
      · rename_i hb
        cases h
        simp [scanWhole, hb]
    · have hdigits : scanDigits (a :: b :: cs) = .ok (ds, r) := by simpa [scanWhole, ha] using h
      simpa [scanWhole, ha] using scanDigits_before hrest hdigits

theorem scanMarked_before {α : Type} (mark : List Char → α) {a : α} {r : List Char}
    (h : (scanDigits cs).map (fun d => (mark d.1, d.2)) = .ok (a, r)) :
    (scanDigits (cs ++ rest)).map (fun d => (mark d.1, d.2)) = .ok (a, r ++ rest) := by
  cases hd : scanDigits cs with
  | error f => simp [hd, Except.map] at h
  | ok d =>
    simp only [hd, Except.map, Except.ok.injEq, Prod.mk.injEq] at h
    simp [scanDigits_before hrest hd, Except.map, h]

theorem scanFraction_before {f : Option (List Char)} {r : List Char}
    (h : scanFraction cs = .ok (f, r)) : scanFraction (cs ++ rest) = .ok (f, r ++ rest) := by
  rcases cs with _ | ⟨c, cs⟩
  · cases h
    exact scanFraction_closed hrest
  · by_cases hc : c = '.'
    · subst hc
      exact scanMarked_before hrest some h
    · have hnone : Except.ok (none, c :: cs) = Except.ok (ε := Flaw) (f, r) := by
        simpa [scanFraction, hc] using h
      cases hnone
      simp [scanFraction, hc]

theorem scanExponent_before {e : Option (Bool × List Char)} {r : List Char}
    (h : scanExponent cs = .ok (e, r)) : scanExponent (cs ++ rest) = .ok (e, r ++ rest) := by
  rcases cs with _ | ⟨c, cs⟩
  · cases h
    exact scanExponent_closed hrest
  · unfold scanExponent at h ⊢
    rw [List.cons_append]
    dsimp only at h ⊢
    split at h
    · rename_i hc
      rw [if_pos hc]
      rcases cs with _ | ⟨d, cs⟩
      · cases h
      · by_cases hminus : d = '-'
        · subst hminus
          exact scanMarked_before hrest (fun ds => some (true, ds)) h
        by_cases hplus : d = '+'
        · subst hplus
          exact scanMarked_before hrest (fun ds => some (false, ds)) h
        · rw [List.cons_append]
          simp only [List.cons.injEq, hminus, hplus, false_and, imp_self, implies_true] at h ⊢
          exact scanMarked_before hrest (fun ds => some (false, ds)) h
    · rename_i hc
      cases h
      rw [if_neg hc]
      rfl

theorem scanUnsigned_before {negative : Bool} {p : Number.Parts} {r : List Char}
    (h : (do
      let (whole, cs) ← scanWhole cs
      let (fraction, cs) ← scanFraction cs
      let (exponent, cs) ← scanExponent cs
      return (⟨negative, whole, fraction, exponent⟩, cs)) = Except.ok (p, r)) :
    (do
      let (whole, cs) ← scanWhole (cs ++ rest)
      let (fraction, cs) ← scanFraction cs
      let (exponent, cs) ← scanExponent cs
      return (⟨negative, whole, fraction, exponent⟩, cs)) = Except.ok (p, r ++ rest) := by
  cases hw : scanWhole cs with
  | error f => simp [hw, bind, Except.bind] at h
  | ok w =>
    cases hf : scanFraction w.2 with
    | error f => simp [hw, hf, bind, Except.bind] at h
    | ok f =>
      cases he : scanExponent f.2 with
      | error f => simp [hw, hf, he, bind, Except.bind] at h
      | ok e =>
        simp only [hw, hf, he, bind, Except.bind, pure, Except.pure, Except.ok.injEq,
          Prod.mk.injEq] at h
        simp [scanWhole_before hrest hw, scanFraction_before hrest hf, scanExponent_before hrest he,
          bind, Except.bind, pure, Except.pure, h]

theorem scanParts_before {p : Number.Parts} {r : List Char} (h : scanParts cs = .ok (p, r)) :
    scanParts (cs ++ rest) = .ok (p, r ++ rest) := by
  unfold scanParts at h ⊢
  rcases cs with _ | ⟨c, cs⟩
  · cases h
  · rw [List.cons_append]
    by_cases hc : c = '-'
    · subst hc
      exact scanUnsigned_before hrest h
    · simp only [List.cons.injEq, hc, false_and, imp_self, implies_true] at h ⊢
      exact scanUnsigned_before hrest h

theorem scanNumber_reads {n m : Number} (h : Reads n m) :
    scanNumber (n.chars ++ rest) = (.number (.ok m), rest) := by
  unfold Reads scanNumber at h
  cases hp : scanParts n.chars with
  | error f => simp [hp] at h
  | ok p =>
    obtain ⟨parts, r⟩ := p
    simp only [hp] at h
    cases hn : Number.ofParts? parts with
    | none => simp [hn] at h
    | some k =>
      simp only [hn, Prod.mk.injEq, Sketch.number.injEq, Except.ok.injEq] at h
      obtain ⟨rfl, rfl⟩ := h
      exact scanNumber_parts (scanParts_before hrest hp) hn

end Numerals

theorem reads_head {n m : Number} (h : Reads n m) :
    ∃ c cs, n.chars = c :: cs ∧ (c = '-' ∨ c.isDigit) := by
  unfold Reads scanNumber at h
  cases hchars : n.chars with
  | nil => simp [hchars, scanParts, scanWhole, scanDigits, bind, Except.bind] at h
  | cons c cs =>
    refine ⟨c, cs, rfl, ?_⟩
    by_cases hminus : c = '-'
    · exact Or.inl hminus
    by_cases hdigit : c.isDigit
    · exact Or.inr hdigit
    · have hzero : c ≠ '0' := by
        rintro rfl
        exact hdigit rfl
      simp [hchars, scanParts, scanWhole, scanDigits, bind, Except.bind, hminus, hzero, hdigit] at h

end FencedSessions.Json
