import Wavefront.Arith.Checked

/-!
# The diagonal of the wavefront

All lanes read behind one shared position, and lane `i` reads `i` words behind it:
its address is `(position - i) mod size`. So each lane trails its left neighbour by
one tick and the lanes together form a diagonal. `diagonalAddress` is that address,
computed on the signed readings of position, lane and size; when there is nothing to
cycle through there is no address (`diagonalAddress_zero`).

For quantities below `Checked.half` the signed readings are faithful and the address
is the plain remainder (`diagonalAddress_of_lt`). In particular it then lies within
the cycle (`lt_of_diagonalAddress`).
-/

namespace Wavefront

/-- What the lanes see of the sequencer: its position and the length of the cycle it
runs through. -/
structure Cursor where
  position : Nat
  size : Nat
deriving DecidableEq

/-- The address `(position - lane) mod size`, or no address when there is nothing to
cycle through. -/
def diagonalAddress (position lane size : Nat) : Except Fault (Option Nat) :=
  if size = 0 then .ok none
  else do
    let distance ← Checked.signedSub (Checked.signed position) (Checked.signed lane)
    let address ← Checked.signedMod distance (Checked.signed size)
    return some address.toNat

@[simp] theorem diagonalAddress_zero (position lane : Nat) :
    diagonalAddress position lane 0 = .ok none := rfl

theorem diagonalAddress_of_lt {position lane size : Nat} (hp : position < Checked.half)
    (hl : lane < Checked.half) (hs : size < Checked.half) (h : 0 < size) :
    diagonalAddress position lane size =
      .ok (some (((position : Int) - lane) % size).toNat) := by
  rw [diagonalAddress, if_neg (by omega), Checked.signed_of_lt hp,
    Checked.signed_of_lt hl, Checked.signed_of_lt hs,
    Checked.signedSub_of_isSigned (Checked.isSigned_sub_of_lt hp hl), ok_bind,
    Checked.signedMod_of_pos (by omega), ok_bind]
  rfl

theorem lt_of_diagonalAddress {position lane size address : Nat}
    (hp : position < Checked.half) (hl : lane < Checked.half) (hs : size < Checked.half)
    (h : diagonalAddress position lane size = .ok (some address)) : address < size := by
  rcases Nat.eq_zero_or_pos size with hz | hz
  · simp [hz] at h
  · rw [diagonalAddress_of_lt hp hl hs hz] at h
    have hlt := Int.emod_lt_of_pos ((position : Int) - lane) (Int.natCast_pos.2 hz)
    simp only [Except.ok.injEq, Option.some.injEq] at h
    omega

structure Place where
  lane : Nat
deriving DecidableEq

namespace Place

def address (p : Place) (c : Cursor) : Except Fault (Option Nat) :=
  diagonalAddress c.position p.lane c.size

end Place

end Wavefront
