/-! Finite maps as lists of pairs. A key keeps the place where it was first put. -/

namespace FencedSessions.Keyed

variable {κ : Type} [DecidableEq κ] {ν : Type}

def find? : List (κ × ν) → κ → Option ν
  | [], _ => none
  | (k, v) :: rest, key => if key = k then some v else find? rest key

/-- Puts a value under a key, in place of the one before. -/
def put : List (κ × ν) → κ → ν → List (κ × ν)
  | [], key, v => [(key, v)]
  | (k, v') :: rest, key, v =>
    if key = k then (k, v) :: rest else (k, v') :: put rest key v

/-- Takes a key away. -/
def erase (m : List (κ × ν)) (key : κ) : List (κ × ν) := m.filter fun p => p.1 ≠ key

@[simp] theorem find?_put_self (m : List (κ × ν)) (key : κ) (v : ν) :
    find? (put m key v) key = some v := by
  induction m with
  | nil => simp [put, find?]
  | cons p rest ih =>
    by_cases h : key = p.1
    · simp [put, find?, h]
    · simp [put, find?, h, ih]

theorem find?_put_other (m : List (κ × ν)) {key other : κ} (v : ν) (h : other ≠ key) :
    find? (put m key v) other = find? m other := by
  induction m with
  | nil => simp [put, find?, h]
  | cons p rest ih =>
    by_cases hk : key = p.1
    · subst hk; simp [put, find?, h]
    · simp [put, find?, hk, ih]

@[simp] theorem find?_erase_self (m : List (κ × ν)) (key : κ) :
    find? (erase m key) key = none := by
  induction m with
  | nil => rfl
  | cons p rest ih =>
    unfold erase at ih ⊢
    by_cases h : p.1 = key
    · simpa [h] using ih
    · simpa [h, find?, Ne.symm h] using ih

theorem find?_erase_other (m : List (κ × ν)) {key other : κ} (h : other ≠ key) :
    find? (erase m key) other = find? m other := by
  induction m with
  | nil => rfl
  | cons p rest ih =>
    unfold erase at ih ⊢
    by_cases hk : p.1 = key
    · subst hk
      simpa [find?, h] using ih
    · by_cases ho : other = p.1
      · simp [hk, find?, ho]
      · simpa [hk, find?, ho] using ih

end FencedSessions.Keyed
