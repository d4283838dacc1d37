import Wavefront.Layout.Basic

/-!
# Where the words of a filter go

Word `w` is laid out in bank `w % banks` at address `w / banks`. Read the other way,
the word found in bank `b` at address `a` is the one with the number `a * banks + b`
(`place_eq_iff`), so no two words share a place. `Layout.rows` rounds up: it is the
least number of rows that has room for all words (`rows_le_iff`), and every word
lies in one of them (`address_place_lt`).
-/

namespace Wavefront

namespace Layout

variable {l : Layout}

@[simp] theorem data_place (l : Layout) (w : Nat) (data : Word) :
    (l.place w data).data = data := rfl

theorem place_eq_iff {bank : Nat} (hb : bank < l.banks) (w address : Nat)
    (data : Word) :
    ((l.place w data).bank = bank ∧ (l.place w data).address = address) ↔
      w = address * l.banks + bank := by
  show (w % l.banks = bank ∧ w / l.banks = address) ↔ _
  constructor
  · rintro ⟨rfl, rfl⟩
    exact (Nat.div_add_mod' w l.banks).symm
  · rintro rfl
    have hpos : 0 < l.banks := Nat.lt_of_le_of_lt (Nat.zero_le bank) hb
    rw [Nat.mul_comm]
    refine ⟨?_, ?_⟩
    · rw [Nat.mul_add_mod, Nat.mod_eq_of_lt hb]
    · rw [Nat.mul_add_div hpos, Nat.div_eq_of_lt hb, Nat.add_zero]

theorem rows_le_iff (hb : 0 < l.banks) {words n : Nat} :
    l.rows words ≤ n ↔ words ≤ l.banks * n := by
  rw [rows, Nat.div_le_iff_le_mul_add_pred hb]
  omega

theorem lt_rows_iff (hb : 0 < l.banks) {words n : Nat} :
    n < l.rows words ↔ l.banks * n < words := by
  rw [← Nat.not_le, ← Nat.not_le, rows_le_iff hb]

theorem rows_pos (hb : 0 < l.banks) {words : Nat} (hw : 0 < words) :
    0 < l.rows words := by
  rw [lt_rows_iff hb, Nat.mul_zero]
  exact hw

theorem bank_place_lt (hb : 0 < l.banks) (w : Nat) (data : Word) :
    (l.place w data).bank < l.banks :=
  Nat.mod_lt w hb

theorem address_place_lt (hb : 0 < l.banks) {w words : Nat} (hw : w < words)
    (data : Word) :
    (l.place w data).address < l.rows words := by
  rw [lt_rows_iff hb]
  exact Nat.lt_of_le_of_lt (Nat.mul_div_le w l.banks) hw

end Layout

end Wavefront
