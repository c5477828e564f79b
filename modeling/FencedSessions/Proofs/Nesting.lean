import FencedSessions.Proofs.Readback

/-! Which values a reader of any value takes: those that nest no deeper than it has room for. A value
that was printed in the order of its names comes back as it was. -/

namespace FencedSessions.Json

mutual
/-- How many containers stand in one another. -/
def depth : Json → Nat
  | .array items => depthItems items + 1
  | .object fields => depthFields fields + 1
  | .null | .bool _ | .number _ | .string _ => 0

def depthItems : List Json → Nat
  | [] => 0
  | v :: vs => max v.depth (depthItems vs)

def depthFields : List (String × Json) → Nat
  | [] => 0
  | (_, v) :: fields => max v.depth (depthFields fields)
end

/-- Fields in the order of their names, each name once. -/
def Ascending {α : Type} (fields : List (String × α)) : Prop := fields.Pairwise (·.1 < ·.1)

instance {α : Type} (fields : List (String × α)) : Decidable (Ascending fields) :=
  inferInstanceAs (Decidable (fields.Pairwise (·.1 < ·.1)))

mutual
/-- Has the fields of all its objects in order. -/
def InOrder : Json → Prop
  | .array items => InOrderItems items
  | .object fields => Ascending fields ∧ InOrderFields fields
  | .null | .bool _ | .number _ | .string _ => True

def InOrderItems : List Json → Prop
  | [] => True
  | v :: vs => v.InOrder ∧ InOrderItems vs

def InOrderFields : List (String × Json) → Prop
  | [] => True
  | (_, v) :: fields => v.InOrder ∧ InOrderFields fields
end

section Sorting

variable {α : Type}

theorem insertField_last {k : String} {v : α} {fields : List (String × α)}
    (h : ∀ f ∈ fields, f.1 < k) : insertField k v fields = fields ++ [(k, v)] := by
  induction fields with
  | nil => rfl
  | cons f fields ih =>
    obtain ⟨k', v'⟩ := f
    have hk : k' < k := h (k', v') (by simp)
    have hne : k ≠ k' := by
      rintro rfl
      exact String.lt_irrefl k hk
    have hnot : ¬k < k' := fun hlt => String.lt_irrefl k (String.lt_trans hlt hk)
    have ih := ih fun f hf => h f (by simp [hf])
    simp [insertField, hne, hnot, ih]

/-- Sorting leaves what is in order. -/
theorem sortFields_ascending {fields : List (String × α)} (h : Ascending fields) :
    sortFields fields = fields := by
  have hmore (done : List (String × α)) (hall : (done ++ fields).Pairwise (·.1 < ·.1)) :
      fields.foldl (fun acc f => insertField f.1 f.2 acc) done = done ++ fields := by
    clear h
    induction fields generalizing done with
    | nil => simp
    | cons f fields ih =>
      obtain ⟨k, v⟩ := f
      have hlast : insertField k v done = done ++ [(k, v)] :=
        insertField_last fun g hg => (List.pairwise_append.mp hall).2.2 g hg (k, v) (by simp)
      have ih := ih (done ++ [(k, v)]) (by simpa using hall)
      simp [hlast, ih]
  exact hmore [] h

end Sorting

mutual
/-- The room of a reader is one more than the depth it takes. -/
theorem any_ofJson (j : Json) (room : Nat) (h : j.InOrder) :
    (Sketch.ofJson j).any (room + 1) = if j.depth ≤ room then .ok j else .error .malformed := by
  match j, room with
  | .null, _ | .bool _, _ | .number _, _ | .string _, _ => rfl
  | .array items, 0 => rfl
  | .array items, room + 1 =>
    have hitems := any_ofItems items room h
    by_cases hdepth : depthItems items ≤ room <;>
      simp [Sketch.ofJson, Sketch.any, depth, hitems, hdepth, bind, Except.bind]
  | .object fields, 0 => rfl
  | .object fields, room + 1 =>
    have hfields := any_ofFields fields room h.2
    by_cases hdepth : depthFields fields ≤ room <;>
      simp [Sketch.ofJson, Sketch.any, depth, hfields, hdepth, bind, Except.bind, sorted,
        sortFields_ascending h.1]

theorem any_ofItems (vs : List Json) (room : Nat) (h : InOrderItems vs) :
    Sketch.anyItems (room + 1) (Sketch.ofItems vs) =
      if depthItems vs ≤ room then .ok vs else .error .malformed := by
  match vs with
  | [] => rfl
  | v :: vs =>
    have hv := any_ofJson v room h.1
    have hvs := any_ofItems vs room h.2
    by_cases hdepth : v.depth ≤ room <;> by_cases hmore : depthItems vs ≤ room <;>
      simp only [Sketch.ofItems, Sketch.anyItems, depthItems, Nat.max_le, hv, hvs, hdepth, hmore, bind,
        Except.bind, pure, Except.pure, if_true, if_false, and_self, and_true, and_false]

theorem any_ofFields (fields : List (String × Json)) (room : Nat) (h : InOrderFields fields) :
    Sketch.anyMembers (room + 1) (Sketch.ofFields fields) =
      if depthFields fields ≤ room then .ok fields else .error .malformed := by
  match fields with
  | [] => rfl
  | (k, v) :: fields =>
    have hv := any_ofJson v room h.1
    have hfields := any_ofFields fields room h.2
    by_cases hdepth : v.depth ≤ room <;> by_cases hmore : depthFields fields ≤ room <;>
      simp only [Sketch.ofFields, Sketch.anyMembers, Sketch.name, depthFields, Nat.max_le, hv, hfields, hdepth,
        hmore, bind, Except.bind, pure, Except.pure, if_true, if_false, and_self, and_true, and_false]
end

namespace Reader

theorem lift_ok {α : Type} (a : α) : lift (.ok a) = .ok a := rfl

theorem lift_error {α : Type} (f : Flaw) : (lift (.error f) : Reading α) = .error ⟨[], f⟩ := rfl

theorem any_depth {j : Json} {room : Nat} (h : j.InOrder) (hroom : 0 < room) :
    any room (Sketch.ofJson j) = if j.depth < room then .ok j else .error ⟨[], .malformed⟩ := by
  obtain ⟨r, rfl⟩ : ∃ r, room = r + 1 := ⟨room - 1, by omega⟩
  unfold any
  rw [any_ofJson j r h]
  by_cases hdepth : j.depth ≤ r
  · simp [hdepth, Nat.lt_succ_of_le hdepth, lift_ok]
  · have hnot : ¬j.depth < r + 1 := by omega
    simp [hdepth, hnot, lift_error]

end Reader

end FencedSessions.Json
