import Wavefront.Proofs.Engine.History
import Wavefront.Proofs.Json.Types

/-!
# Everything an engine records can be read

The records of an engine are put together from its count and from what stands in its
block. The count goes no further than it can be counted, and position and addresses
stay within the cycle; so every trace fits. One cycle keeps this (`InRange.clock`),
hence a run does, and every request.
-/

namespace Wavefront

namespace Engine

variable {c : Config} {e f : Engine}

/-- The count and the trace of an engine are within the range of quantities. -/
structure InRange (c : Config) (e : Engine) : Prop where
  wellFormed : e.store.WellFormed c
  cycles_lt : e.cycles < Checked.limit
  fits : ∀ t ∈ e.trace, Fits t

theorem fits_record (h : e.store.WellFormed c) (hcycles : e.cycles + 1 < Checked.limit)
    (i : Inputs) : Fits (e.record i) := by
  have hhalf : Checked.half < Checked.limit := by decide
  refine ⟨hcycles, trivial, Nat.lt_trans h.position_lt_half hhalf, trivial, ?_,
    fun _ _ => trivial⟩
  intro a ha address haddress
  obtain ⟨lane, -, rfl⟩ := List.mem_map.1 ha
  have hlt : address < e.store.size := Store.readAddress_lt haddress
  exact Nat.lt_trans hlt (Nat.lt_trans h.size_lt_half hhalf)

namespace InRange

theorem of_empty (h : e.store.WellFormed c) (hcycles : e.cycles < Checked.limit)
    (htrace : ∀ t ∈ e.trace, t = .empty) : e.InRange c := by
  refine ⟨h, hcycles, fun t ht => ?_⟩
  rw [htrace t ht]
  exact fun r hr => absurd hr List.not_mem_nil

theorem of_eq (h : e.InRange c) (hf : f.store.WellFormed c)
    (hcycles : f.cycles = e.cycles) (htrace : f.trace = e.trace) : f.InRange c :=
  ⟨hf, hcycles ▸ h.cycles_lt, htrace ▸ h.fits⟩

theorem next (h : e.InRange c) (hcycles : e.cycles + 1 < Checked.limit) (i : Inputs) :
    (e.next i).InRange c := by
  refine ⟨h.wellFormed.next i, hcycles, fun t' ht' => ?_⟩
  rw [trace_next] at ht'
  obtain ⟨t, ht, rfl⟩ := Option.map_eq_some_iff.1 ht'
  intro r hr
  rw [Trace.toList_push, List.mem_append, List.mem_singleton] at hr
  rcases hr with hr | rfl
  · exact h.fits t ht r hr
  · exact fits_record h.wellFormed hcycles i

theorem clock (h : e.InRange c) (i : Inputs) (log : Array Event) :
    (Step.final (clock i ⟨e, log⟩)).state.InRange c := by
  rcases Nat.lt_or_ge (e.cycles + 1) Checked.limit with hcycles | hfull
  · rcases clock_outcome h.wellFormed i log with
      ⟨-, log', hok⟩ | ⟨-, cause, log', herr⟩ | ⟨-, store, log', herr, hstore, -⟩
    · rw [hok]
      exact h.next hcycles i
    · rw [herr]
      exact h
    · rw [herr]
      exact h.of_eq hstore rfl rfl
  · rw [clock_of_le hfull]
    exact h

theorem clockNext (h : e.InRange c) (log : Array Event) :
    (Step.final (clockNext ⟨e, log⟩)).state.InRange c := by
  have hqueue : (e.setQueue e.queue.tail).InRange c := h.of_eq h.wellFormed rfl rfl
  rw [clockNext_apply]
  exact hqueue.clock (e.queue.headD .idle) log

theorem run (h : e.InRange c) (n : Nat) (log : Array Event) :
    (Step.final (run n ⟨e, log⟩)).state.InRange c := by
  induction n generalizing e log with
  | zero => exact h
  | succ n ih =>
      have hfirst := h.clockNext log
      rw [run_succ, Step.bind_apply, Step.discard_apply]
      cases hclock : Engine.clockNext ⟨e, log⟩ with
      | error fault t =>
          rw [hclock] at hfirst
          exact hfirst
      | ok r t =>
          rw [hclock] at hfirst
          exact ih hfirst t.log

theorem perform (h : e.InRange c) (r : Request) (log : Array Event) :
    (Step.final (perform r ⟨e, log⟩)).state.InRange c := by
  cases r with
  | enqueue inputs => exact h.of_eq h.wellFormed rfl rfl
  | load words =>
      obtain ⟨store, queue, hload, hstore, -⟩ := final_load h.wellFormed words log
      rw [final_perform_load, hload]
      exact h.of_eq hstore rfl rfl
  | clock i =>
      rw [final_perform_clock]
      exact h.clock i log
  | clockNext =>
      rw [final_perform_clockNext]
      exact h.clockNext log
  | run n =>
      rw [final_perform_run]
      exact h.run n log
  | drain =>
      rw [final_perform_drain, drain_apply]
      exact h.run e.pending log
  | handOverTrace =>
      refine of_empty h.wellFormed h.cycles_lt fun t ht => ?_
      obtain ⟨u, -, rfl⟩ := Option.map_eq_some_iff.1 ht
      rfl
  | ofStore q =>
      rw [perform_ofStore, Step.final_bind_pure, final_onStore]
      exact h.of_eq (h.wellFormed.final_perform q log) rfl rfl

end InRange

theorem Reachable.inRange {t : Logged Engine} (h : Reachable c t) :
    InRange c t.state := by
  obtain ⟨s, rs, log, hs, rfl⟩ := h
  have hpos : 0 < Checked.limit := by decide
  have hnew : (ofStore s.state).InRange c :=
    .of_empty hs.wellFormed hpos fun _ ht => eq_empty_of_mem_trace_ofStore ht
  exact Step.after_induction (I := fun t => InRange c t.state) hnew
    (fun r t ht => ht.perform r t.log) rs

end Engine

end Wavefront
