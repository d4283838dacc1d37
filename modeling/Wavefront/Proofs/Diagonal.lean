import Mathlib.Algebra.Order.Group.Unbundled.Int
import Mathlib.Algebra.Ring.Divisibility.Basic
import Mathlib.Data.Int.ModEq
import Wavefront.Diagonal

/-!
# The diagonal over the whole range

The address of a lane is computed on signed readings, and `diagonalAddress_eq` says
what comes of it for whatever quantities of 64 bits. With nothing to cycle through
there is no address. Otherwise the distance of the position and the lane can be out
of range, and its remainder by the size can be, which happens for one distance and
one size. The remainder that is taken in all other cases is the one between zero and
the magnitude of the size (`eq_emod_iff`). So `diagonal_range` has the address for
all sizes, those with a negative reading among them, and says where the readings are
faithful that it is the position less the lane modulo the size.
-/

namespace Wavefront

namespace Checked

theorem signed_eq_zero_iff {n : Nat} (h : n < limit) : signed n = 0 ↔ n = 0 := by
  rcases Nat.lt_or_ge n half with hn | hn
  · rw [signed_of_lt hn, Int.natCast_eq_zero]
  · rw [signed_of_le hn]
    simp only [limit, half] at *
    omega

theorem signed_eq_neg_one_iff {n : Nat} (h : n < limit) :
    signed n = -1 ↔ n + 1 = limit := by
  rcases Nat.lt_or_ge n half with hn | hn
  · rw [signed_of_lt hn]
    simp only [limit, half] at *
    omega
  · rw [signed_of_le hn]
    omega

theorem isSigned_neg_half : IsSigned (-half) := by decide

theorem signedMod_of_not {x y : Int} (h : ¬ (x = -half ∧ y = -1)) :
    signedMod x y = .ok (x % y) :=
  if_neg h

theorem signedMod_of_eq {x y : Int} (hx : x = -half) (hy : y = -1) :
    signedMod x y = .error (.overflow .rem) := if_pos ⟨hx, hy⟩

end Checked

/-- The remainder by a number other than zero is the one number between zero and its
magnitude that is a multiple of it away. -/
theorem eq_emod_iff {y : Int} (hy : y ≠ 0) (x r : Int) :
    (0 ≤ r ∧ r < |y| ∧ |y| ∣ x - r) ↔ r = x % y := by
  rw [eq_comm, Int.emod_eq_iff hy, Int.abs_eq_natAbs, Int.natAbs_dvd, dvd_sub_comm]

variable {position lane size : Nat}

/-- The four ways in which the address of a lane can be computed. -/
theorem diagonalAddress_eq (position lane : Nat) (hs : size < Checked.limit) :
    diagonalAddress position lane size =
      if size = 0 then .ok none
      else if ¬ Checked.IsSigned (Checked.signed position - Checked.signed lane) then
        .error (.overflow .sub)
      else if Checked.signed position - Checked.signed lane = -Checked.half ∧
          size + 1 = Checked.limit then .error (.overflow .rem)
      else .ok (some
        ((Checked.signed position - Checked.signed lane) %
          Checked.signed size).toNat) := by
  split
  next hz => exact if_pos hz
  next hz =>
    rw [diagonalAddress, if_neg hz]
    split
    next hsub =>
      rw [Checked.signedSub_of_not_isSigned hsub, error_bind]
    next hsub =>
      rw [Checked.signedSub_of_isSigned (not_not.1 hsub), ok_bind]
      split
      next hrem =>
        have hsize := (Checked.signed_eq_neg_one_iff hs).2 hrem.2
        rw [Checked.signedMod_of_eq hrem.1 hsize, error_bind]
      next hrem =>
        rw [← Checked.signed_eq_neg_one_iff hs] at hrem
        rw [Checked.signedMod_of_not hrem, ok_bind]
        rfl

theorem add_modEq_iff (hpos : 0 < size) (a : Nat) :
    a < size ∧ a + lane ≡ position [MOD size] ↔
      (a : Int) = ((position : Int) - lane) % size := by
  have hsize : (size : Int) ≠ 0 := by omega
  have hdistance : (position : Int) - (a + lane : Nat) = position - lane - a := by omega
  rw [← eq_emod_iff hsize, Int.abs_natCast, Nat.modEq_iff_dvd, hdistance, Int.ofNat_lt]
  exact (and_iff_right (Int.natCast_nonneg a)).symm

/-- The address of a lane for all quantities of 64 bits. There is none exactly if
the size is zero. For every other size the distance of the signed readings is out of
range, or its remainder is, or the address is the one number between zero and the
magnitude of the size that is a multiple of the size away from the distance. Below
half the limit nothing is out of range, and the address is the one place of the
cycle from which the lane leads to the position. -/
theorem diagonal_range (position lane : Nat) (hs : size < Checked.limit) :
    let distance := Checked.signed position - Checked.signed lane
    (diagonalAddress position lane size = .ok none ↔ size = 0) ∧
      (0 < size →
        (diagonalAddress position lane size = .error (.overflow .sub) ↔
          ¬ Checked.IsSigned distance) ∧
        (diagonalAddress position lane size = .error (.overflow .rem) ↔
          distance = -Checked.half ∧ size + 1 = Checked.limit) ∧
        (Checked.IsSigned distance →
          ¬ (distance = -Checked.half ∧ size + 1 = Checked.limit) →
          ∃ address : Nat, diagonalAddress position lane size = .ok (some address) ∧
            ∀ r : Int, (0 ≤ r ∧ r < |Checked.signed size| ∧
              |Checked.signed size| ∣ distance - r) ↔
              r = address) ∧
        (position < Checked.half → lane < Checked.half → size < Checked.half →
          ∃ address : Nat, diagonalAddress position lane size = .ok (some address) ∧
            ∀ a, (a < size ∧ a + lane ≡ position [MOD size]) ↔ a = address)) := by
  intro distance
  have heq := diagonalAddress_eq position lane hs
  refine ⟨?_, fun hpos => ⟨?_, ?_, fun hsub hrem => ?_, fun hp hl hhalf => ?_⟩⟩
  · rw [heq]
    split_ifs with hz <;> simp [hz]
  · rw [heq, if_neg (Nat.ne_of_gt hpos)]
    split_ifs with hsub hrem <;> simp [distance, hsub]
  · rw [heq, if_neg (Nat.ne_of_gt hpos)]
    split_ifs with hsub hrem
    · simp [distance, hrem]
    · simpa [distance] using hrem
    · have hdistance : distance ≠ -Checked.half := by
        intro h
        have hsub : ¬ Checked.IsSigned distance := hsub
        rw [h] at hsub
        exact hsub Checked.isSigned_neg_half
      simp [hdistance]
  · have hsigned : Checked.signed size ≠ 0 :=
      mt (Checked.signed_eq_zero_iff hs).1 (Nat.ne_of_gt hpos)
    refine ⟨(distance % Checked.signed size).toNat, ?_, fun r => ?_⟩
    · rw [heq, if_neg (Nat.ne_of_gt hpos), if_neg (not_not.2 hsub), if_neg hrem]
    · rw [Int.toNat_of_nonneg (Int.emod_nonneg _ hsigned)]
      exact eq_emod_iff hsigned distance r
  · refine ⟨_, diagonalAddress_of_lt hp hl hhalf hpos, fun a => ?_⟩
    have hnonneg : 0 ≤ ((position : Int) - lane) % size := Int.emod_nonneg _ (by omega)
    rw [add_modEq_iff hpos, ← Int.natCast_inj, Int.toNat_of_nonneg hnonneg]

/-- The largest size is read as minus one, and there is one distance whose remainder
by it is out of range. The size three less is read as minus four, and lane seven is
one place away from a multiple of it. A distance that is out of range itself comes
from a position with a negative reading. -/
theorem diagonal_range_of_negative_size :
    diagonalAddress (Checked.limit - 1) (Checked.half - 1) (Checked.limit - 1) =
        .error (.overflow .rem) ∧
      diagonalAddress 0 7 (Checked.limit - 4) = .ok (some 1) ∧
      diagonalAddress Checked.half 1 (Checked.limit - 4) = .error (.overflow .sub) ∧
      diagonalAddress 0 7 3 = .ok (some 2) := by
  have hlargest : Checked.limit - 1 < Checked.limit := by decide
  have hnegative : Checked.limit - 4 < Checked.limit := by decide
  have hthree : 3 < Checked.limit := by decide
  obtain ⟨-, hrange⟩ := diagonal_range (Checked.limit - 1) (Checked.half - 1) hlargest
  obtain ⟨-, hrem, -⟩ := hrange (by decide)
  obtain ⟨-, hrange⟩ := diagonal_range 0 7 hnegative
  obtain ⟨-, -, haddress, -⟩ := hrange (by decide)
  obtain ⟨address, hok, hunique⟩ := haddress (by decide) (by decide)
  have hone : (1 : Int) = address := (hunique 1).1 (by decide)
  obtain ⟨-, hrange⟩ := diagonal_range Checked.half 1 hnegative
  obtain ⟨hsub, -⟩ := hrange (by decide)
  obtain ⟨-, hrange⟩ := diagonal_range 0 7 hthree
  obtain ⟨-, -, -, hplain⟩ := hrange (by decide)
  obtain ⟨place, hok', hunique'⟩ := hplain (by decide) (by decide) (by decide)
  have htwo : 2 = place := (hunique' 2).1 (by decide)
  refine ⟨hrem.2 (by decide), ?_, hsub.2 (by decide), htwo ▸ hok'⟩
  rw [hok, ← Int.natCast_inj.1 hone]

end Wavefront
