import Wavefront.Proofs.Sequencer.History

/-!
# Cycles that change their length under the sequencer

The sequencer samples the length of its cycle anew in every tick, and nothing in it
keeps the length from changing in the middle of a stream. So the position may lie
beyond the cycle that the next tick samples. But a tick that moves the sequencer
puts it into the cycle of that tick, from whatever position (`Within.of_moving`),
and a tick that does not move it leaves it at zero
(`position_advance_of_not_moves`). What bounds the position is therefore the length
that was sampled when it moved last, `Bounded`, and from below that length it can
always be counted up.
-/

namespace Wavefront

namespace Sequencer

/-- The tick moves the sequencer on: it starts a stream or belongs to one, and does
not end it. -/
def Moves (s : Sequencer) (c : Control) : Prop :=
  c.reset = false ∧ (c.start || s.running) = true

instance (s : Sequencer) (c : Control) : Decidable (s.Moves c) :=
  inferInstanceAs (Decidable (_ ∧ _))

/-- Those of the ticks that move the sequencer on, up to one that fails. -/
def moving : List Control → Sequencer → List Control
  | [], _ => []
  | c :: cs, s =>
      match s.next c with
      | .ok s' => if s.Moves c then c :: moving cs s' else moving cs s'
      | .error _ => []

theorem moving_sublist (cs : List Control) (s : Sequencer) :
    (moving cs s).Sublist cs := by
  induction cs generalizing s with
  | nil => exact .refl []
  | cons c cs ih =>
      rw [moving]
      cases s.next c with
      | error _ => exact List.nil_sublist _
      | ok s' =>
          by_cases hmoves : s.Moves c
          · simp only [if_pos hmoves]
            exact (ih s').cons_cons c
          · simp only [if_neg hmoves]
            exact (ih s').cons c

theorem run_cons (c : Control) (cs : List Control) (s : Sequencer) :
    run (c :: cs) s = s.next c >>= run cs := rfl

theorem moving_append_singleton {cs : List Control} {s s' s'' : Sequencer} {c : Control}
    (h : run cs s = .ok s') (hc : s'.next c = .ok s'') :
    moving (cs ++ [c]) s = moving cs s ++ if s'.Moves c then [c] else [] := by
  induction cs generalizing s with
  | nil =>
      obtain rfl : s = s' := Except.ok.inj h
      simp only [List.nil_append, moving, hc]
  | cons d cs ih =>
      rw [run_cons] at h
      cases hd : s.next d with
      | error e =>
          rw [hd] at h
          exact nomatch h
      | ok t =>
          rw [hd] at h
          simp only [List.cons_append, moving, hd, ih h]
          split <;> rfl

theorem Moves.next_eq {s : Sequencer} {c : Control} (h : s.Moves c)
    (hs : s.position + 1 < Checked.limit) :
    s.next c = .ok ⟨if s.position + 1 < c.size then s.position + 1 else 0, true⟩ := by
  rw [next_of_moving h.1 h.2 hs]
  rcases Nat.lt_or_ge (s.position + 1) c.size with hlt | hle
  · rw [if_neg (Nat.not_le.2 hlt), if_pos hlt]
  · rw [if_pos hle, if_neg (Nat.not_lt.2 hle)]

theorem position_advance_of_not_moves {s : Sequencer} {c : Control} (h : ¬ s.Moves c)
    (hs : s.running = false → s.position = 0) : (s.advance c).position = 0 := by
  cases hreset : c.reset with
  | true =>
      rw [advance_of_reset hreset]
      rfl
  | false =>
      have hidle : (c.start || s.running) = false :=
        Bool.eq_false_iff.2 fun hmoving => h ⟨hreset, hmoving⟩
      rw [Bool.or_eq_false_iff] at hidle
      rw [advance_of_idle hreset hidle.1 hidle.2]
      exact hs hidle.2

/-- The sequencer after these ticks from the stop on. It is at zero when it is
stopped, and at zero or in the cycle of the last tick that moved it when it is
running. -/
structure Bounded (cs : List Control) (s : Sequencer) : Prop where
  run_eq : run cs stopped = .ok s
  stopped : s.running = false → s.position = 0
  position_lt : s.position = 0 ∨
    ∃ c ∈ (moving cs Sequencer.stopped).getLast?, s.position < c.size

namespace Bounded

variable {cs : List Control} {s : Sequencer}

theorem nil : Bounded [] Sequencer.stopped := ⟨rfl, fun _ => rfl, .inl rfl⟩

theorem succ_position_lt (h : Bounded cs s) (hcs : ∀ c ∈ cs, c.size < Checked.limit) :
    s.position + 1 < Checked.limit := by
  rcases h.position_lt with hz | ⟨c, hc, hlt⟩
  · rw [hz]
    decide
  · have hmem : c ∈ cs := (moving_sublist cs _).subset (List.mem_of_getLast? hc)
    have hsize := hcs c hmem
    omega

theorem advance (h : Bounded cs s) (hs : s.position + 1 < Checked.limit) (c : Control) :
    Bounded (cs ++ [c]) (s.advance c) := by
  have hnext := next_eq_advance hs c
  have hrun : run (cs ++ [c]) Sequencer.stopped = .ok (s.advance c) := by
    rw [run_append_singleton, h.run_eq]
    exact hnext
  by_cases hmoves : s.Moves c
  · have hwithin : (s.advance c).Within c.size := .of_moving hmoves.1 hmoves.2
    refine ⟨hrun, hwithin.stopped, ?_⟩
    rcases Nat.eq_zero_or_pos c.size with hz | hpos
    · exact .inl (hwithin.position_eq hz)
    · refine .inr ⟨c, ?_, hwithin.position_lt hpos⟩
      rw [moving_append_singleton h.run_eq hnext, if_pos hmoves, List.getLast?_concat]
      rfl
  · have hz := position_advance_of_not_moves hmoves h.stopped
    exact ⟨hrun, fun _ => hz, .inl hz⟩

end Bounded

theorem exists_bounded {cs : List Control} (h : ∀ c ∈ cs, c.size < Checked.limit) :
    ∃ s, Bounded cs s := by
  induction cs using List.reverseRecOn with
  | nil => exact ⟨_, .nil⟩
  | append_singleton cs c ih =>
      have hcs := (List.forall_mem_append.1 h).1
      obtain ⟨s, hs⟩ := ih hcs
      exact ⟨_, hs.advance (hs.succ_position_lt hcs) c⟩

/-- However the length of the cycle changes from tick to tick, the sequencer never
fails. After every sequence of ticks from the stop on it is at zero if it is
stopped, and at zero or below the length that was sampled when it moved last. The
next tick that moves it counts it up, or puts it back to zero where that would leave
the cycle of this tick. So it is in this cycle after one such tick, even if the
cycle was cut off below the position. -/
theorem bounded_by_last_size {cs : List Control}
    (h : ∀ c ∈ cs, c.size < Checked.limit) :
    ∃ s, run cs stopped = .ok s ∧ (s.running = false → s.position = 0) ∧
      (s.position = 0 ∨ ∃ c ∈ (moving cs stopped).getLast?, s.position < c.size) ∧
      ∀ c : Control, s.Moves c → ∃ s', s.next c = .ok s' ∧ s'.Within c.size ∧
        s' = ⟨if s.position + 1 < c.size then s.position + 1 else 0, true⟩ := by
  obtain ⟨s, hs⟩ := exists_bounded h
  refine ⟨s, hs.run_eq, hs.stopped, hs.position_lt, fun c hmoves => ?_⟩
  have hposition := hs.succ_position_lt h
  have hnext := next_eq_advance hposition c
  exact ⟨_, hnext, .of_moving hmoves.1 hmoves.2,
    Except.ok.inj (hnext.symm.trans (hmoves.next_eq hposition))⟩

/-- The cycle of the greatest length there is, cut off below the position in the
middle of the stream. -/
theorem recovers_from_shorter_cycle :
    let cs : List Control := [⟨true, false, 0xffffffffffffffff⟩, ⟨false, false, 4⟩,
      ⟨true, false, 0xffffffffffffffff⟩]
    run cs stopped = .ok ⟨3, true⟩ ∧
      (moving cs stopped).getLast? = some ⟨true, false, 0xffffffffffffffff⟩ ∧
      next ⟨false, false, 2⟩ ⟨3, true⟩ = .ok ⟨0, true⟩ := by
  intro cs
  have hcs : ∀ c ∈ cs, c.size < Checked.limit := by decide
  obtain ⟨s, hrun, -, -, hnext⟩ := bounded_by_last_size hcs
  obtain rfl : s = ⟨3, true⟩ := Except.ok.inj (hrun.symm.trans (by decide))
  obtain ⟨s', hrecovered, -, rfl⟩ := hnext ⟨false, false, 2⟩ (by decide)
  exact ⟨hrun, by decide, hrecovered⟩

end Sequencer

end Wavefront
