import FencedSessions.Proofs.Numerals
import FencedSessions.SessionId

/-! The written form of a session id reads back as the id, so ids that differ are written
differently. -/

namespace FencedSessions

namespace Text

theorem padded_append (a b n : Nat) :
    padded 16 (a + b) n = padded 16 a (n / Nat.pow 16 b) ++ padded 16 b n := by
  induction b generalizing n with
  | zero => simp [padded]
  | succ b ih =>
    have hpow : n / 16 / Nat.pow 16 b = n / Nat.pow 16 (b + 1) := by
      rw [Nat.div_div_eq_div_mul, Nat.mul_comm]
      rfl
    rw [← Nat.add_assoc, padded, padded, ih, hpow, List.append_assoc]

end Text

namespace SessionId

open Text

theorem ofGroups_groups {a b c d e : List Char} (ha : a.length = 8) (hb : b.length = 4)
    (hc : c.length = 4) (hd : d.length = 4) (he : e.length = 12) :
    ofGroups? (a ++ '-' :: (b ++ '-' :: (c ++ '-' :: (d ++ '-' :: e)))) =
      ofHex? (a ++ (b ++ (c ++ (d ++ e)))) := by
  simp (disch := omega) [ofGroups?, List.drop_append, ha, hb, hc, hd, he,
    List.drop_of_length_le]

theorem length_chars (id : SessionId) : id.chars.length = 36 := by simp [chars]

/-- A written id reads back. -/
theorem ofText_text (id : SessionId) : ofText? id.text = some id := by
  obtain ⟨bits⟩ := id
  have hgroups : padded 16 32 bits.toNat =
      padded 16 8 (bits.toNat / Nat.pow 16 24) ++ (padded 16 4 (bits.toNat / Nat.pow 16 20) ++
        (padded 16 4 (bits.toNat / Nat.pow 16 16) ++ (padded 16 4 (bits.toNat / Nat.pow 16 12) ++
          padded 16 12 (bits.toNat / Nat.pow 16 0)))) := by
    rw [show (32 : Nat) = 8 + 24 from rfl, padded_append 8 24, show (24 : Nat) = 4 + 20 from rfl,
      padded_append 4 20, show (20 : Nat) = 4 + 16 from rfl, padded_append 4 16,
      show (16 : Nat) = 4 + 12 from rfl, padded_append 4 12]
    simp
  have hvalue : hexNumber? (padded 16 32 bits.toNat) = some bits.toNat := by
    have hlt : bits.toNat < Nat.pow 16 32 := bits.isLt
    rw [hexNumber_padded, Nat.mod_eq_of_lt hlt]
  have hlength := length_chars ⟨bits⟩
  unfold ofText? text
  rw [String.toList_ofList]
  unfold ofChars?
  rw [if_neg (by omega), if_pos hlength]
  unfold chars
  simp only [List.append_assoc, List.cons_append]
  rw [ofGroups_groups (length_padded ..) (length_padded ..) (length_padded ..) (length_padded ..)
    (length_padded ..), ← hgroups, ofHex?, hvalue]
  simp

theorem text_injective {a b : SessionId} (h : a.text = b.text) : a = b := by
  have ha := ofText_text a
  rw [h, ofText_text b] at ha
  exact (Option.some.inj ha).symm

end SessionId

end FencedSessions
