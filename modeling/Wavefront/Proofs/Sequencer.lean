import Wavefront.Sequencer

/-!
# The sequencer within its cycle

`Sequencer.advance` is one tick of the sequencer as a plain function. A sequencer
that starts from a stop with a cycle of a fixed length never leaves that cycle, so
that its position can always be counted up (`next_eq_advance`). That the cycle may
get another length while the sequencer is stopped, `Within.resize`, rests on the
last part of the invariant: a stopped sequencer stands at position zero.
-/

namespace Wavefront

namespace Sequencer

def advance (c : Control) (s : Sequencer) : Sequencer :=
  if c.reset then stopped
  else if c.start || s.running then
    ⟨if c.size ≤ s.position + 1 then 0 else s.position + 1, true⟩
  else s

theorem advance_of_reset {c : Control} (h : c.reset = true) (s : Sequencer) :
    s.advance c = stopped := by
  simp [advance, h]

theorem advance_of_idle {c : Control} {s : Sequencer} (hr : c.reset = false)
    (hs : c.start = false) (h : s.running = false) : s.advance c = s := by
  simp [advance, hr, hs, h]

theorem advance_of_moving {c : Control} {s : Sequencer} (hr : c.reset = false)
    (h : (c.start || s.running) = true) :
    s.advance c = ⟨if c.size ≤ s.position + 1 then 0 else s.position + 1, true⟩ := by
  simp [advance, hr, h]

theorem next_eq_advance {s : Sequencer} (h : s.position + 1 < Checked.limit)
    (c : Control) :
    next c s = .ok (s.advance c) := by
  by_cases hr : c.reset = true
  · rw [next_of_reset hr, advance_of_reset hr]
  · rw [Bool.not_eq_true] at hr
    by_cases hm : (c.start || s.running) = true
    · rw [next_of_moving hr hm h, advance_of_moving hr hm]
    · simp only [Bool.or_eq_true, not_or, Bool.not_eq_true] at hm
      rw [next_of_idle hr hm.1 hm.2, advance_of_idle hr hm.1 hm.2]

/-- The sequencer stands at a place of a cycle of length `size`, and at the first
one when it is stopped. In a cycle without places it stands at zero. -/
structure Within (size : Nat) (s : Sequencer) : Prop where
  position_lt : 0 < size → s.position < size
  position_eq : size = 0 → s.position = 0
  stopped : s.running = false → s.position = 0

namespace Within

protected theorem stopped_within (size : Nat) : Sequencer.stopped.Within size :=
  ⟨fun h => h, fun _ => rfl, fun _ => rfl⟩

theorem eq_stopped {size : Nat} {s : Sequencer} (h : s.Within size)
    (hr : s.running = false) :
    s = .stopped := by
  obtain ⟨position, running⟩ := s
  obtain rfl : position = 0 := h.stopped hr
  obtain rfl : running = false := hr
  rfl

theorem position_le {size : Nat} {s : Sequencer} (h : s.Within size) :
    s.position ≤ size := by
  rcases Nat.eq_zero_or_pos size with hz | hz
  · rw [h.position_eq hz]
    exact Nat.zero_le size
  · exact Nat.le_of_lt (h.position_lt hz)

theorem succ_lt_limit {size : Nat} {s : Sequencer} (h : s.Within size)
    (hs : size < Checked.limit) :
    s.position + 1 < Checked.limit := by
  rcases Nat.eq_zero_or_pos size with hz | hz
  · rw [h.position_eq hz]
    decide
  · have hlt := h.position_lt hz
    omega

/-- A moving sequencer gets into the cycle that the tick samples, from whatever
position. -/
theorem of_moving {c : Control} {s : Sequencer} (hr : c.reset = false)
    (h : (c.start || s.running) = true) : (s.advance c).Within c.size := by
  rw [advance_of_moving hr h]
  refine ⟨?_, ?_, fun hrun => by simp at hrun⟩
  · intro hz
    show (if c.size ≤ s.position + 1 then 0 else s.position + 1) < c.size
    split <;> omega
  · intro hz
    have hle : c.size ≤ s.position + 1 := by omega
    exact if_pos hle

theorem advance {size : Nat} {s : Sequencer} (h : s.Within size) (start reset : Bool) :
    (s.advance ⟨start, reset, size⟩).Within size := by
  cases reset with
  | true =>
      rw [advance_of_reset rfl]
      exact .stopped_within size
  | false =>
      cases hm : start || s.running with
      | true => exact of_moving (c := ⟨start, false, size⟩) rfl hm
      | false =>
          rw [Bool.or_eq_false_iff] at hm
          rw [advance_of_idle rfl hm.1 hm.2]
          exact h

theorem successor_eq {size : Nat} {s : Sequencer} (h : s.Within size) :
    (if size ≤ s.position + 1 then 0 else s.position + 1) =
      if size = 0 then 0 else (s.position + 1) % size := by
  rcases Nat.eq_zero_or_pos size with hz | hz
  · rw [hz, if_pos (Nat.zero_le _), if_pos rfl]
  · rw [if_neg (Nat.ne_of_gt hz)]
    have hlt := h.position_lt hz
    rcases Nat.lt_or_ge (s.position + 1) size with hp | hp
    · rw [if_neg (Nat.not_le.2 hp), Nat.mod_eq_of_lt hp]
    · have heq : s.position + 1 = size := by omega
      rw [if_pos hp, heq, Nat.mod_self]

theorem resize {size size' : Nat} {s : Sequencer} (h : s.Within size)
    (hr : s.running = false) :
    s.Within size' := by
  have hz : s.position = 0 := h.stopped hr
  exact ⟨fun hpos => hz ▸ hpos, fun _ => hz, fun _ => hz⟩

end Within

end Sequencer

end Wavefront
