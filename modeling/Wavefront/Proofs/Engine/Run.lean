import Mathlib.Data.List.TakeDrop
import Wavefront.Proofs.Engine.Cycle

/-!
# Runs of the engine

As long as the block admits what is queued, a run carries out its cycles one after
the other, first with the inputs in the queue and then idly. `Engine.ahead n` is
where `n` cycles lead. The run gets there when the cycles can be counted
(`run_of_lt`); otherwise it stops at the cycle that cannot, after all those before
it (`run_of_le`).
-/

namespace Wavefront

namespace Engine

variable {c : Config} {e : Engine}

def follow : List Inputs → Engine → Engine
  | [], e => e
  | i :: is, e => follow is (e.next i)

@[simp] theorem follow_nil (e : Engine) : e.follow [] = e := rfl

theorem follow_cons (i : Inputs) (is : List Inputs) (e : Engine) :
    e.follow (i :: is) = (e.next i).follow is := rfl

theorem follow_append (is js : List Inputs) (e : Engine) :
    e.follow (is ++ js) = (e.follow is).follow js := by
  induction is generalizing e with
  | nil => rfl
  | cons i is ih =>
      rw [List.cons_append, follow_cons, follow_cons, ih]

theorem store_follow (is : List Inputs) (e : Engine) :
    (e.follow is).store = e.store.follow is := by
  induction is generalizing e with
  | nil => rfl
  | cons i is ih =>
      rw [follow_cons, ih, store_next, Store.follow_cons]

theorem cycles_follow (is : List Inputs) (e : Engine) :
    (e.follow is).cycles = e.cycles + is.length := by
  induction is generalizing e with
  | nil => rfl
  | cons i is ih =>
      rw [follow_cons, ih, cycles_next, List.length_cons, Nat.add_right_comm,
        Nat.add_assoc]

theorem follow_setQueue (is queue : List Inputs) (e : Engine) :
    (e.setQueue queue).follow is = (e.follow is).setQueue queue := by
  induction is generalizing e with
  | nil => rfl
  | cons i is ih =>
      rw [follow_cons, follow_cons, next_setQueue, ih]

/-- The engine `n` cycles on: the queue has been followed so far, and idling where
it has run dry. -/
def ahead (n : Nat) (e : Engine) : Engine :=
  (e.follow (e.queue.takeD n .idle)).setQueue (e.queue.drop n)

theorem ahead_succ (n : Nat) (e : Engine) :
    e.ahead (n + 1) =
      ((e.setQueue e.queue.tail).next (e.queue.headD .idle)).ahead n := by
  have hinputs : e.queue.takeD (n + 1) .idle =
      e.queue.headD .idle :: e.queue.tail.takeD n .idle := by
    cases e.queue <;> rfl
  have hqueue : e.queue.drop (n + 1) = e.queue.tail.drop n := List.drop_tail.symm
  rw [ahead, hinputs, follow_cons, hqueue, ahead, next_setQueue, follow_setQueue,
    queue_setQueue, setQueue_setQueue]

theorem cycles_ahead (n : Nat) (e : Engine) : (e.ahead n).cycles = e.cycles + n := by
  show (e.follow (e.queue.takeD n .idle)).cycles = _
  rw [cycles_follow, List.takeD_length]

theorem admits_headD (hq : ∀ i ∈ e.queue, e.store.Admits i) :
    e.store.Admits (e.queue.headD .idle) ∧ ∀ i ∈ e.queue.tail, e.store.Admits i := by
  cases hqueue : e.queue with
  | nil =>
      refine ⟨fun w hw => ?_, fun i hi => ?_⟩
      · exact absurd hw (by simp [Inputs.idle])
      · exact absurd hi (by simp)
  | cons i is =>
      rw [hqueue] at hq
      exact List.forall_mem_cons.1 hq

theorem run_of_lt (h : e.store.WellFormed c) (hq : ∀ i ∈ e.queue, e.store.Admits i)
    {n ticks : Nat} (hcount : e.store.CountedBy ticks)
    (hticks : ticks + n < Checked.limit) (hcycles : e.cycles + n < Checked.limit)
    (log : Array Event) :
    ∃ log', run n ⟨e, log⟩ = .ok () ⟨e.ahead n, log'⟩ := by
  induction n generalizing e ticks log with
  | zero => exact ⟨log, rfl⟩
  | succ n ih =>
      -- The first cycle leaves a block that admits the rest of the queue and has
      -- ticked once more.
      obtain ⟨hhead, htail⟩ := admits_headD hq
      have hroom : e.store.HasRoom := hcount.hasRoom (by omega)
      have hclock := clock_of_admits (e := e.setQueue e.queue.tail) h hhead hroom
        (show e.cycles + 1 < Checked.limit by omega) log
      have hadmits : ∀ i ∈ e.queue.tail,
          (e.store.next (e.queue.headD .idle)).Admits i := by
        intro i hi
        rw [Store.admits_next]
        exact htail i hi
      rw [run_succ, Step.bind_apply, Step.discard_apply, clockNext_apply, hclock,
        ahead_succ]
      exact ih (e := (e.setQueue e.queue.tail).next (e.queue.headD .idle))
        (h.next (e.queue.headD .idle)) hadmits (hcount.next (e.queue.headD .idle))
          (by omega)
        (show e.cycles + 1 + n < Checked.limit by omega) _

theorem run_of_le (h : e.store.WellFormed c) (hq : ∀ i ∈ e.queue, e.store.Admits i)
    {n : Nat} (hcount : e.store.CountedBy e.cycles) (hlt : e.cycles < Checked.limit)
    (hn : Checked.limit ≤ e.cycles + n) (log : Array Event) :
    ∃ queue log', run n ⟨e, log⟩ =
      .error (.overflow .add) ⟨(e.ahead (Checked.limit - 1 - e.cycles)).setQueue queue,
        log'⟩ := by
  obtain ⟨k, hk⟩ : ∃ k, e.cycles + k + 1 = Checked.limit :=
    ⟨Checked.limit - 1 - e.cycles, by omega⟩
  obtain ⟨m, rfl⟩ : ∃ m, n = k + (m + 1) := ⟨n - k - 1, by omega⟩
  have hcounted : Checked.limit - 1 - e.cycles = k := by omega
  obtain ⟨log', hrun⟩ := run_of_lt h hq (n := k) hcount (by omega) (by omega) log
  have hfull : Checked.limit ≤ (e.ahead k).cycles + 1 := by
    rw [cycles_ahead]
    exact Nat.le_of_eq hk.symm
  have hstop := clock_of_le (e := (e.ahead k).setQueue (e.ahead k).queue.tail) hfull
    ((e.ahead k).queue.headD .idle) log'
  refine ⟨(e.ahead k).queue.tail, log', ?_⟩
  rw [run_add, Step.bind_apply, hrun, hcounted]
  show run (m + 1) ⟨e.ahead k, log'⟩ = _
  rw [run_succ, Step.bind_apply, Step.discard_apply, clockNext_apply, hstop]

end Engine

end Wavefront
