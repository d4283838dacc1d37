import Wavefront.Fault

/-!
# Quantities of 64 bits

Sizes, addresses, positions and counters are natural numbers below `Checked.limit`,
the sixty-fourth power of two. The operations that can leave this range are
`Checked.add` and `Checked.mul`; they fail with the overflow that they stand for and
otherwise return the exact result.

The distance of two positions is taken between their *signed readings*: `signed n`
is the number that the 64 bits of `n` denote in two's complement. Below
`Checked.half`, half the limit, it is `n` itself (`signed_of_lt`), from there on it
is negative (`signed_of_le`). `Checked.signedSub` and `Checked.signedMod` are exact
on the signed range `-half ≤ x < half` and fail outside it.

Items that are kept together fill one block of memory. The distance of two places in
a block is a signed number, so a block holds fewer than `half` bytes, and
`Checked.room` fails on items that need more.
-/

namespace Wavefront

namespace Checked

/-- The bound below which every quantity stays. -/
def limit : Nat := 0x10000000000000000

/-- The bound below which a quantity is its own signed reading. -/
def half : Nat := 0x8000000000000000

theorem half_add_half : half + half = limit := rfl

def add (a b : Nat) : Except Fault Nat :=
  if a + b < limit then .ok (a + b) else .error (.overflow .add)

def mul (a b : Nat) : Except Fault Nat :=
  if a * b < limit then .ok (a * b) else .error (.overflow .mul)

theorem add_of_lt {a b : Nat} (h : a + b < limit) : add a b = .ok (a + b) := if_pos h

theorem add_of_le {a b : Nat} (h : limit ≤ a + b) : add a b = .error (.overflow .add) :=
  if_neg (Nat.not_lt.2 h)

theorem mul_of_lt {a b : Nat} (h : a * b < limit) : mul a b = .ok (a * b) := if_pos h

theorem mul_of_le {a b : Nat} (h : limit ≤ a * b) : mul a b = .error (.overflow .mul) :=
  if_neg (Nat.not_lt.2 h)

/-- Succeeds when a block of memory has room for `count` items of `size` bytes. -/
def room (count size : Nat) : Except Fault Unit :=
  if count * size < half then .ok () else .error (.overflow .capacity)

theorem room_of_lt {count size : Nat} (h : count * size < half) :
    room count size = .ok () :=
  if_pos h

theorem room_of_le {count size : Nat} (h : half ≤ count * size) :
    room count size = .error (.overflow .capacity) :=
  if_neg (Nat.not_lt.2 h)

/-- The number that the 64 bits of `n` denote in two's complement. -/
def signed (n : Nat) : Int := if n < half then n else n - limit

/-- The numbers that 64 bits denote in two's complement. -/
def IsSigned (x : Int) : Prop := -half ≤ x ∧ x < half

instance (x : Int) : Decidable (IsSigned x) := inferInstanceAs (Decidable (_ ∧ _))

theorem signed_of_lt {n : Nat} (h : n < half) : signed n = n := if_pos h

theorem signed_of_le {n : Nat} (h : half ≤ n) :
    signed n = n - limit :=
  if_neg (Nat.not_lt.2 h)

theorem isSigned_sub_of_lt {m n : Nat} (hm : m < half) (hn : n < half) :
    IsSigned ((m : Int) - n) := by
  simp only [IsSigned, half] at *
  omega

def signedSub (x y : Int) : Except Fault Int :=
  if IsSigned (x - y) then .ok (x - y) else .error (.overflow .sub)

/-- The remainder of `x` by a signed number other than zero, between zero and its
magnitude. It fails where the quotient belonging to it is no signed number, which
happens for one pair only. -/
def signedMod (x y : Int) : Except Fault Int :=
  if x = -half ∧ y = -1 then .error (.overflow .rem) else .ok (x % y)

theorem signedSub_of_isSigned {x y : Int} (h : IsSigned (x - y)) :
    signedSub x y = .ok (x - y) :=
  if_pos h

theorem signedSub_of_not_isSigned {x y : Int} (h : ¬ IsSigned (x - y)) :
    signedSub x y = .error (.overflow .sub) :=
  if_neg h

theorem signedMod_of_pos {x y : Int} (h : 0 < y) : signedMod x y = .ok (x % y) :=
  if_neg fun hxy => by omega

end Checked

end Wavefront
