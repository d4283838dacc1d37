import Wavefront.Arith.Checked
import Wavefront.Inputs

/-!
# Laying a filter out over the banks

A filter is a flat list of words. Laid out over `n` banks, word `w` goes to bank
`w % n` at address `w / n`: consecutive words sit side by side across the lanes and
each bank holds one column of the wavefront. `Layout.load` turns a filter into its
`Load`, the write commands in the order of the words and the streaming size, which
is the number of rows begun.
-/

namespace Wavefront

/-- A filter on its way into the banks: one write command for each tick, and the
size to stream. -/
structure Load where
  commands : List Write
  size : Nat
deriving DecidableEq

/-- The geometry that filters are laid out in. -/
structure Layout where
  banks : Nat
  depth : Nat
deriving DecidableEq

namespace Layout

def capacity (l : Layout) : Except Fault Nat := Checked.mul l.banks l.depth

def place (l : Layout) (w : Nat) (data : Word) : Write :=
  ⟨w % l.banks, w / l.banks, data⟩

def rows (l : Layout) (words : Nat) : Nat := (words + l.banks - 1) / l.banks

/-- The load of a filter. Missing banks are found first; a filter that fits is never
refused. -/
def load (l : Layout) (words : List Word) : Except Fault Load :=
  if l.banks = 0 then .error (.rejected (.invalidConfig .loadIntoNoBanks))
  else do
    let capacity ← l.capacity
    if capacity < words.length then
      .error (.rejected (.filterTooLarge words.length capacity))
    return ⟨words.mapIdx l.place, l.rows words.length⟩

theorem load_of_banks_eq_zero {l : Layout} (h : l.banks = 0) (words : List Word) :
    l.load words = .error (.rejected (.invalidConfig .loadIntoNoBanks)) := if_pos h

theorem load_of_le {l : Layout} {words : List Word} (hb : l.banks ≠ 0)
    (hc : l.banks * l.depth < Checked.limit) (h : words.length ≤ l.banks * l.depth) :
    l.load words = .ok ⟨words.mapIdx l.place, l.rows words.length⟩ := by
  rw [load, if_neg hb, capacity, Checked.mul_of_lt hc, ok_bind, if_neg (Nat.not_lt.2 h)]
  rfl

theorem load_of_lt {l : Layout} {words : List Word} (hb : l.banks ≠ 0)
    (hc : l.banks * l.depth < Checked.limit) (h : l.banks * l.depth < words.length) :
    l.load words =
      .error (.rejected (.filterTooLarge words.length (l.banks * l.depth))) := by
  rw [load, if_neg hb, capacity, Checked.mul_of_lt hc, ok_bind, if_pos h, error_bind]

end Layout

end Wavefront
