import Wavefront.Arith.Checked

/-!
# Access statistics of a bank

A bank counts the reads and writes it has carried out and the addresses that have
been written at least once. Its total of addresses and its footprint, four bytes a
word, are fixed when it is built.
-/

namespace Wavefront

structure Usage where
  total : Nat
  active : Nat
  bytes : Nat
  reads : Nat
  writes : Nat
deriving DecidableEq

namespace Usage

/-- The statistics of a bank of `total` words that has not been accessed. -/
def new (total : Nat) : Except Fault Usage := do
  let bytes ← Checked.mul total 4
  return ⟨total, 0, bytes, 0, 0⟩

theorem new_of_lt {total : Nat} (h : total * 4 < Checked.limit) :
    new total = .ok ⟨total, 0, total * 4, 0, 0⟩ := by
  rw [new, Checked.mul_of_lt h, ok_bind]
  rfl

def countRead (u : Usage) : Except Fault Usage := do
  let reads ← Checked.add u.reads 1
  return { u with reads := reads }

def countWrite (u : Usage) : Except Fault Usage := do
  let writes ← Checked.add u.writes 1
  return { u with writes := writes }

def occupy (active : Nat) (u : Usage) : Usage := { u with active := active }

theorem countRead_of_lt {u : Usage} (h : u.reads + 1 < Checked.limit) :
    u.countRead = .ok { u with reads := u.reads + 1 } := by
  rw [countRead, Checked.add_of_lt h, ok_bind]
  rfl

theorem countWrite_of_lt {u : Usage} (h : u.writes + 1 < Checked.limit) :
    u.countWrite = .ok { u with writes := u.writes + 1 } := by
  rw [countWrite, Checked.add_of_lt h, ok_bind]
  rfl

end Usage

end Wavefront
