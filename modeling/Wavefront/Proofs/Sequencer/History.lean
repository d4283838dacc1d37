import Mathlib.Data.List.DropRight
import Mathlib.Data.List.Induction
import Wavefront.Proofs.Sequencer

/-!
# What the pulses make of the sequencer

A reset forgets all ticks up to it, `sinceReset`, and a stopped sequencer takes no
notice of a tick without a start. From the first start on every tick moves it on by
one place, whatever pulses come with it, until there is a reset. So the registers
are a matter of how many ticks that start is ago: `elapsed` counts them, itself
included, and `streaming` is the sequencer so many ticks into a stream. One more
tick counts on or starts over in both (`elapsed_append_singleton`,
`next_streaming`), and hence they agree after every sequence of ticks (`run_eq`).
-/

namespace Wavefront

namespace Sequencer

def run (cs : List Control) (s : Sequencer) : Except Fault Sequencer :=
  cs.foldlM (fun s c => s.next c) s

theorem run_append_singleton (cs : List Control) (c : Control) (s : Sequencer) :
    run (cs ++ [c]) s = run cs s >>= fun s => s.next c := by
  simp [run]

/-- The ticks after the last reset, or all of them if there was none. -/
def sinceReset (cs : List Control) : List Control := cs.rtakeWhile fun c => !c.reset

/-- The number of ticks since the last reset from the first start among them on,
with that one. -/
def elapsed (cs : List Control) : Nat :=
  ((sinceReset cs).dropWhile fun c => !c.start).length

@[simp] theorem elapsed_nil : elapsed [] = 0 := rfl

/-- A tick that follows `n` ticks of a stream. -/
def elapse (c : Control) (n : Nat) : Nat :=
  if c.reset then 0 else if c.start || decide (0 < n) then n + 1 else 0

theorem sinceReset_of_reset (cs : List Control) {c : Control} (h : c.reset = true) :
    sinceReset (cs ++ [c]) = [] :=
  List.rtakeWhile_concat_neg _ _ _ (by simp [h])

theorem sinceReset_of_not_reset (cs : List Control) {c : Control}
    (h : c.reset = false) :
    sinceReset (cs ++ [c]) = sinceReset cs ++ [c] :=
  List.rtakeWhile_concat_pos _ _ _ (by simp [h])

theorem elapsed_append_singleton (cs : List Control) (c : Control) :
    elapsed (cs ++ [c]) = elapse c (elapsed cs) := by
  cases hreset : c.reset with
  | true =>
      rw [elapsed, sinceReset_of_reset cs hreset, elapse, if_pos hreset,
        List.dropWhile_nil, List.length_nil]
  | false =>
      rw [elapsed, sinceReset_of_not_reset cs hreset, List.dropWhile_append, elapse,
        elapsed, hreset]
      cases (sinceReset cs).dropWhile fun c => !c.start with
      | cons d ds => simp
      | nil =>
          -- No stream is going on, so that one begins now or not at all.
          cases hstart : c.start <;> simp [hstart]

/-- The sequencer `n` ticks into a stream; at zero ticks there is no stream. -/
def streaming (size n : Nat) : Sequencer :=
  ⟨if size = 0 then 0 else n % size, decide (0 < n)⟩

theorem streaming_zero (size : Nat) : streaming size 0 = stopped := by
  simp [streaming, stopped]

theorem within_streaming (size n : Nat) : (streaming size n).Within size := by
  refine ⟨fun hpos => ?_, fun hz => if_pos hz, fun hrunning => ?_⟩
  · show (if size = 0 then 0 else n % size) < size
    rw [if_neg (Nat.ne_of_gt hpos)]
    exact Nat.mod_lt n hpos
  · have hn : n = 0 := Nat.eq_zero_of_not_pos (of_decide_eq_false hrunning)
    rw [hn, streaming_zero]
    rfl

theorem advance_streaming (c : Control) (n : Nat) :
    (streaming c.size n).advance c = streaming c.size (elapse c n) := by
  cases hreset : c.reset with
  | true => rw [advance_of_reset hreset, elapse, if_pos hreset, streaming_zero]
  | false =>
      have hmod : (if c.size = 0 then 0
          else ((streaming c.size n).position + 1) % c.size) =
          if c.size = 0 then 0 else (n + 1) % c.size := by
        rcases Nat.eq_zero_or_pos c.size with hz | hpos
        · rw [if_pos hz, if_pos hz]
        · rw [streaming, if_neg (Nat.ne_of_gt hpos), if_neg (Nat.ne_of_gt hpos),
            if_neg (Nat.ne_of_gt hpos), Nat.mod_add_mod]
      cases hmoving : c.start || decide (0 < n) with
      | true =>
          rw [advance_of_moving hreset hmoving,
            (within_streaming c.size n).successor_eq, hmod, elapse, hreset, hmoving]
          rfl
      | false =>
          rw [Bool.or_eq_false_iff] at hmoving
          have hn : n = 0 := Nat.eq_zero_of_not_pos (of_decide_eq_false hmoving.2)
          rw [advance_of_idle hreset hmoving.1 hmoving.2, elapse, hreset, hn, hmoving.1]
          rfl

theorem next_streaming {c : Control} (h : c.size < Checked.limit) (n : Nat) :
    (streaming c.size n).next c = .ok (streaming c.size (elapse c n)) := by
  rw [next_eq_advance ((within_streaming c.size n).succ_lt_limit h), advance_streaming]

theorem run_eq {size : Nat} (h : size < Checked.limit) {cs : List Control}
    (hcs : ∀ c ∈ cs, c.size = size) :
    run cs stopped = .ok (streaming size (elapsed cs)) := by
  induction cs using List.reverseRecOn with
  | nil => rw [elapsed_nil, streaming_zero]; rfl
  | append_singleton cs c ih =>
      obtain ⟨hcs, hc⟩ := List.forall_mem_append.1 hcs
      obtain rfl : c.size = size := hc c (List.mem_singleton_self c)
      rw [run_append_singleton, ih hcs, elapsed_append_singleton]
      exact next_streaming h _

/-- With whatever pulses a sequencer is ticked from the stop on, in a cycle of one
length, it is running exactly if there was a start since the last reset, and then
its position is the number of ticks from the first of these starts on, modulo the
length of the cycle. In a cycle without places the position is zero. -/
theorem registers_of_history {size : Nat} (h : size < Checked.limit) {cs : List Control}
    (hcs : ∀ c ∈ cs, c.size = size) :
    ∃ s, run cs stopped = .ok s ∧ (s.running = true ↔ 0 < elapsed cs) ∧
      (0 < size → s.position = elapsed cs % size) ∧ (size = 0 → s.position = 0) :=
  ⟨_, run_eq h hcs, decide_eq_true_iff, fun hpos => if_neg (Nat.ne_of_gt hpos),
    fun hz => if_pos hz⟩

/-- A stream in a cycle of three that a reset ends although it comes with a start, a
tick without effect, and another stream in which a second start has no effect. -/
theorem registers_after_second_stream :
    let cs : List Control :=
      [⟨true, false, 3⟩, ⟨false, false, 3⟩, ⟨true, true, 3⟩, ⟨false, false, 3⟩,
        ⟨true, false, 3⟩, ⟨false, false, 3⟩, ⟨true, false, 3⟩, ⟨false, false, 3⟩]
    elapsed cs = 4 ∧ run cs stopped = .ok ⟨1, true⟩ := by
  intro cs
  have hsize : 3 < Checked.limit := by decide
  have hcs : ∀ c ∈ cs, c.size = 3 := by decide
  obtain ⟨⟨position, running⟩, hrun, hrunning, hposition, -⟩ :=
    registers_of_history hsize hcs
  obtain rfl : running = true := hrunning.2 (by decide)
  obtain rfl : position = 1 := (hposition (by decide)).trans (by decide)
  exact ⟨by decide, hrun⟩

end Sequencer

end Wavefront
