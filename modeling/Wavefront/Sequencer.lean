import Wavefront.Arith.Checked

/-!
# The read sequencer

The sequencer is a position and a flag. Once started it moves through
`0, 1, …, size - 1` and around again, one position a tick, until it is reset. A
reset wins over everything else, a start on a running sequencer changes nothing, and
a cycle of length zero pins the position at zero.

`Sequencer.next` is one tick. `next_of_reset`, `next_of_idle` and `next_of_moving`
give its three cases.
-/

namespace Wavefront

structure Sequencer where
  position : Nat
  running : Bool
deriving DecidableEq

/-- What the sequencer samples in one tick: the two pulses, and the length of the
cycle. -/
structure Control where
  start : Bool
  reset : Bool
  size : Nat
deriving DecidableEq

namespace Sequencer

/-- Stopped at position zero, as after power-up and after a reset. -/
def stopped : Sequencer := ⟨0, false⟩

instance : Inhabited Sequencer := ⟨stopped⟩

/-- The position that follows in a cycle of length `size`. -/
def successor (position size : Nat) : Except Fault Nat := do
  let next ← Checked.add position 1
  return if size ≤ next then 0 else next

theorem successor_of_lt {position : Nat} (h : position + 1 < Checked.limit)
    (size : Nat) :
    successor position size =
      .ok (if size ≤ position + 1 then 0 else position + 1) := by
  rw [successor, Checked.add_of_lt h, ok_bind]
  rfl

def next (c : Control) (s : Sequencer) : Except Fault Sequencer :=
  if c.reset then .ok stopped
  else if c.start || s.running then do
    let position ← successor s.position c.size
    return ⟨position, true⟩
  else .ok s

theorem next_of_reset {c : Control} (h : c.reset = true) (s : Sequencer) :
    next c s = .ok stopped := by
  simp [next, h]

theorem next_of_idle {c : Control} {s : Sequencer} (hr : c.reset = false)
    (hs : c.start = false) (h : s.running = false) : next c s = .ok s := by
  simp [next, hr, hs, h]

theorem next_of_moving {c : Control} {s : Sequencer} (hr : c.reset = false)
    (h : (c.start || s.running) = true) (hp : s.position + 1 < Checked.limit) :
    next c s = .ok ⟨if c.size ≤ s.position + 1 then 0 else s.position + 1, true⟩ := by
  rw [next, if_neg (by simp [hr]), if_pos h, successor_of_lt hp, ok_bind]
  rfl

end Sequencer

end Wavefront
