import Wavefront.Engine
import Wavefront.Proofs.Store.Follow

/-!
# One cycle of the engine

`Engine.record` and `Engine.next` say, as plain functions of the inputs, what a
cycle yields and where it leads when its tick is carried out. A cycle leaves the
queue to `clockNext`, which takes one entry out of it before the tick begins; so a
run over `m + n` cycles is a run over `m` and then one over `n` (`run_add`), and to
drain the queue is to run as many cycles as it is long (`drain_apply`).
-/

namespace Wavefront

namespace Engine

variable {c : Config} {e : Engine}

def record (i : Inputs) (e : Engine) : Record :=
  ⟨e.cycles + 1, .ofTick e.store.sequencer.running i, e.store.sequencer.position,
    e.store.sequencer.running, (List.range e.store.width).map e.store.readAddress,
    (e.store.next i).outputs⟩

def next (i : Inputs) (e : Engine) : Engine :=
  { e with
    store := e.store.next i
    cycles := e.cycles + 1
    trace := e.trace.map (Trace.push (e.record i)) }

@[simp] theorem store_next (i : Inputs) (e : Engine) :
    (e.next i).store = e.store.next i :=
  rfl

@[simp] theorem cycles_next (i : Inputs) (e : Engine) :
    (e.next i).cycles = e.cycles + 1 :=
  rfl

@[simp] theorem trace_next (i : Inputs) (e : Engine) :
    (e.next i).trace = e.trace.map (Trace.push (e.record i)) := rfl

def setQueue (queue : List Inputs) (e : Engine) : Engine := { e with queue := queue }

@[simp] theorem queue_setQueue (queue : List Inputs) (e : Engine) :
    (e.setQueue queue).queue = queue := rfl

@[simp] theorem setQueue_setQueue (queue queue' : List Inputs) (e : Engine) :
    (e.setQueue queue).setQueue queue' = e.setQueue queue' := rfl

theorem next_setQueue (i : Inputs) (queue : List Inputs) (e : Engine) :
    (e.setQueue queue).next i = (e.next i).setQueue queue := rfl

theorem clock_of_admits (h : e.store.WellFormed c) {i : Inputs} (hi : e.store.Admits i)
    (hroom : e.store.HasRoom) (hcycles : e.cycles + 1 < Checked.limit)
    (log : Array Event) :
    clock i ⟨e, log⟩ = .ok (e.record i)
      ⟨e.next i, log.push (.cycle (e.cycles + 1)) ++ (e.store.events i).toArray⟩ := by
  have htick := Store.tick_of_hasRoom h hi hroom (log.push (.cycle (e.cycles + 1)))
  have haddresses : e.store.addresses =
      .ok ((List.range e.store.width).map e.store.readAddress) := by
    rw [h.addresses_eq, h.width_eq]
  simp only [clock, clockBy, Step.bind_apply, Step.query_apply, Step.emit_apply,
    Step.observe_apply, Checked.add_of_lt hcycles, haddresses, onStore,
    Step.within_apply, takeStore, htick, Step.update_apply, Step.pure_apply]
  rfl

theorem clock_of_le (h : Checked.limit ≤ e.cycles + 1) (i : Inputs)
    (log : Array Event) :
    clock i ⟨e, log⟩ = .error (.overflow .add) ⟨e, log⟩ := by
  simp only [clock, clockBy, Step.bind_apply, Step.query_apply, Checked.add_of_le h]

theorem queue_clockBy (tick : Inputs → Step Store Unit) (i : Inputs) (e : Engine)
    (log : Array Event) :
    (Step.final (clockBy tick i ⟨e, log⟩)).state.queue = e.queue := by
  simp only [clockBy, Step.bind_apply, Step.query_apply, Step.emit_apply,
    Step.observe_apply, onStore, Step.within_apply, takeStore, Step.update_apply,
    Step.pure_apply]
  cases Checked.add e.cycles 1 with
  | error fault => simp only [Step.final_error]
  | ok cycle =>
      cases haddresses : e.store.addresses with
      | error fault => simp only [haddresses, Step.final_error]
      | ok addresses =>
          cases htick : tick i ⟨e.store, log.push (.cycle cycle)⟩ with
          | error fault s => simp only [haddresses, htick, Step.final_error]
          | ok u s => simp only [haddresses, htick, Step.final_ok]

/-! ## Cycles from the queue -/

theorem clockNext_apply (e : Engine) (log : Array Event) :
    clockNext ⟨e, log⟩ =
      clock (e.queue.headD .idle) ⟨e.setQueue e.queue.tail, log⟩ := rfl

theorem run_zero : run 0 = pure () := rfl

theorem run_succ (n : Nat) : run (n + 1) = discard clockNext >>= fun _ => run n := rfl

theorem run_add (m n : Nat) (s : Logged Engine) :
    run (m + n) s = (run m >>= fun _ => run n) s := by
  induction m generalizing s with
  | zero => rw [Nat.zero_add, run_zero, Step.bind_apply, Step.pure_apply]
  | succ m ih =>
      rw [Nat.add_right_comm, run_succ, run_succ, Step.bind_apply, Step.bind_apply,
        Step.bind_apply]
      cases discard clockNext s with
      | error fault t => rfl
      | ok u t =>
          show run (m + n) t = _
          rw [ih, Step.bind_apply]

/-- Draining the queue is running through it: each cycle takes one entry, so a bound
that the queue is not longer than cuts nothing short. -/
theorem drainWithinBy_apply (tick : Inputs → Step Store Unit) (bound : Nat)
    (s : Logged Engine) (hb : s.state.pending ≤ bound) :
    drainWithinBy tick bound s = runBy tick s.state.pending s := by
  induction bound generalizing s with
  | zero =>
      rw [Nat.le_zero.1 hb]
      rfl
  | succ bound ih =>
      rw [drainWithinBy, Step.bind_apply, Step.observe_apply]
      cases hn : s.state.pending with
      | zero =>
          have hdrained : s.state.drained = true := (drained_iff s.state).2 hn
          simp only [hdrained, if_true]
          rfl
      | succ n =>
          have hdrained : s.state.drained = false := by
            rw [← Bool.not_eq_true, drained_iff, hn]
            exact Nat.succ_ne_zero n
          simp only [hdrained, Bool.false_eq_true, if_false]
          rw [runBy, Step.bind_apply, Step.bind_apply, Step.discard_apply]
          have hqueue : (Step.final (clockNextBy tick s)).state.queue =
              s.state.queue.tail :=
            queue_clockBy tick _ _ _
          cases hclock : clockNextBy tick s with
          | error fault t => rfl
          | ok record t =>
              rw [hclock, Step.final_ok] at hqueue
              have hpending : t.state.pending = n := by
                show t.state.queue.length = n
                rw [hqueue, List.length_tail]
                show s.state.pending - 1 = n
                rw [hn, Nat.add_sub_cancel]
              rw [← hpending]
              exact ih t (by omega)

theorem drainBy_apply (tick : Inputs → Step Store Unit) (s : Logged Engine) :
    drainBy tick s = runBy tick s.state.pending s := by
  rw [drainBy, Step.bind_apply, Step.observe_apply]
  exact drainWithinBy_apply tick s.state.pending s (Nat.le_refl _)

theorem drain_apply (s : Logged Engine) : drain s = run s.state.pending s :=
  drainBy_apply Store.tick s

end Engine

end Wavefront
