import Wavefront.Arith.Checked

/-!
# The geometry of a block

A configuration fixes how many banks there are, how many words each of them holds,
in which order the lanes of a tick are evaluated, and whether a run keeps a trace. A
block can be built from it exactly when it has banks and its banks have words
(`Config.validate_eq_ok_iff`).

The evaluation order is not observable. Lanes evaluated concurrently may finish in
any order, and `Concurrency.order` stands for that by the order farthest from the
sequential one.
-/

namespace Wavefront

/-- How the lanes of a tick are evaluated. -/
inductive Concurrency where
  | sequential
  | parallel
deriving DecidableEq

namespace Concurrency

/-- An order in which `lanes` lanes are evaluated. -/
def order (lanes : Nat) : Concurrency → List Nat
  | sequential => List.range lanes
  | parallel => (List.range lanes).reverse

theorem perm_order (lanes : Nat) (c : Concurrency) :
    (c.order lanes).Perm (List.range lanes) := by
  cases c with
  | sequential => exact .refl _
  | parallel => exact List.reverse_perm _

end Concurrency

/-- Geometry and mode of a block. -/
structure Config where
  banks : Nat
  depth : Nat
  concurrency : Concurrency
  traced : Bool
deriving DecidableEq

namespace Config

/-- The reference geometry: four banks of 512 words. -/
def standard : Config := ⟨4, 512, .sequential, false⟩

instance : Inhabited Config := ⟨standard⟩

def capacity (c : Config) : Except Fault Nat := Checked.mul c.banks c.depth

/-- Succeeds when a block can be built; missing banks are found before missing
words. -/
def validate (c : Config) : Except Fault Unit :=
  if c.banks = 0 then .error (.rejected (.invalidConfig .noBanks))
  else if c.depth = 0 then .error (.rejected (.invalidConfig .noDepth))
  else .ok ()

theorem validate_eq_ok_iff (c : Config) :
    c.validate = .ok () ↔ 0 < c.banks ∧ 0 < c.depth := by
  by_cases hb : c.banks = 0 <;> by_cases hd : c.depth = 0 <;>
    simp [validate, hb, hd, Nat.pos_iff_ne_zero]

end Config

end Wavefront
