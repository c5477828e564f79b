import Mathlib.Data.List.Nodup
import FencedSessions.Proofs.Nesting

/-! Fields in the order of their names, as a map: what is found under a name, what putting a field in its
place changes of that, and that two such maps with the same fields are the same. -/

namespace FencedSessions.Json

variable {α : Type} {k : String} {v : α} {fields : List (String × α)}

theorem mem_insertField {f : String × α} (h : f ∈ insertField k v fields) : f = (k, v) ∨ f ∈ fields := by
  induction fields with
  | nil => exact Or.inl (List.mem_singleton.mp h)
  | cons g rest ih =>
    unfold insertField at h
    split at h
    · exact (List.mem_cons.mp h).imp_right (List.mem_cons_of_mem _)
    · split at h
      · exact List.mem_cons.mp h
      · rcases List.mem_cons.mp h with rfl | h
        · exact Or.inr List.mem_cons_self
        · exact (ih h).imp_right (List.mem_cons_of_mem _)

theorem ascending_insertField (h : Ascending fields) : Ascending (insertField k v fields) := by
  induction fields with
  | nil => exact List.pairwise_singleton ..
  | cons g rest ih =>
    obtain ⟨hfirst, hrest⟩ := List.pairwise_cons.mp h
    unfold insertField
    split
    · rename_i hk
      subst hk
      exact List.pairwise_cons.mpr ⟨hfirst, hrest⟩
    · rename_i hne
      split
      · rename_i hlt
        refine List.pairwise_cons.mpr ⟨fun f hf => ?_, h⟩
        rcases List.mem_cons.mp hf with rfl | hf
        · exact hlt
        · exact String.lt_trans hlt (hfirst f hf)
      · rename_i hnot
        refine List.pairwise_cons.mpr ⟨fun f hf => ?_, ih hrest⟩
        rcases mem_insertField hf with rfl | hf
        · exact Decidable.byContradiction fun hge =>
            hne (String.le_antisymm (String.not_lt.mp hge) (String.not_lt.mp hnot))
        · exact hfirst f hf

theorem lookup_absent (h : ∀ f ∈ fields, k < f.1) : fields.lookup k = none := by
  refine List.lookup_eq_none_iff.mpr fun f hf => bne_iff_ne.mpr ?_
  rintro rfl
  exact String.lt_irrefl _ (h f hf)

theorem lookup_cons (k : String) (v : α) (fields : List (String × α)) (name : String) :
    ((k, v) :: fields).lookup name = if name = k then some v else fields.lookup name := by
  by_cases hname : name = k
  · simp [hname]
  · simp only [List.lookup_cons, beq_false_of_ne hname, if_neg hname]

theorem lookup_insertField (k : String) (v : α) (fields : List (String × α)) (name : String) :
    (insertField k v fields).lookup name = if name = k then some v else fields.lookup name := by
  induction fields with
  | nil => exact lookup_cons k v [] name
  | cons f rest ih =>
    obtain ⟨k', v'⟩ := f
    unfold insertField
    split
    · rename_i hk
      subst hk
      rw [lookup_cons, lookup_cons]
      split <;> rfl
    · rename_i hk
      split
      · exact lookup_cons k v _ name
      · rw [lookup_cons, lookup_cons, ih]
        by_cases hname : name = k
        · subst hname
          rw [if_neg hk, if_pos rfl, if_pos rfl]
        · rw [if_neg hname, if_neg hname]

theorem lookup_eq_some_iff (h : Ascending fields) : fields.lookup k = some v ↔ (k, v) ∈ fields := by
  rw [List.lookup_eq_some_iff]
  constructor
  · rintro ⟨before, after, rfl, -⟩
    simp
  · intro hmem
    obtain ⟨before, after, rfl⟩ := List.append_of_mem hmem
    refine ⟨before, after, rfl, fun f hf => bne_iff_ne.mpr ?_⟩
    have hlt : f.1 < k := (List.pairwise_append.mp h).2.2 f hf (k, v) List.mem_cons_self
    rintro rfl
    exact String.lt_irrefl _ hlt

theorem Ascending.nodup (h : Ascending fields) : fields.Nodup := by
  refine List.Pairwise.imp ?_ h
  rintro f g hlt rfl
  exact String.lt_irrefl f.1 hlt

/-- Fields in order are told by what is among them. -/
theorem ascending_ext {others : List (String × α)} (h : Ascending fields) (h' : Ascending others)
    (hmem : ∀ f, f ∈ fields ↔ f ∈ others) : fields = others := by
  have hperm : fields.Perm others := (List.perm_ext_iff_of_nodup h.nodup h'.nodup).mpr hmem
  refine hperm.eq_of_pairwise (fun f g _ _ hlt hgt => ?_) h h'
  exact absurd (String.lt_trans hlt hgt) (String.lt_irrefl _)

end FencedSessions.Json
