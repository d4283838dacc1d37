import Wavefront.Proofs.Engine.History
import Wavefront.Simulation

/-!
# A simulation is a run of its engine

A simulation looks after every cycle whether it is over, and shows the record of the
cycle to its observers. Neither has any part in what the engine does. As many cycles
as remain are carried out as by `Engine.run` (`runWithin_apply`), because each of
them leaves one less (`remaining_of_clockNext`) and the simulation is finished when
none does. So a bound on the cycles changes nothing, unless it cuts the run short
(`runWithin_of_le`). Every observer has been shown the records of the cycles that
were carried out, `Simulation.reached`. `run_agrees` says so for each limit,
together with the count that is returned and with the trace.
-/

namespace Wavefront

namespace Simulation

variable {ω : Type} [Observer ω]

def shown (records : List Record) (o : ω) : ω :=
  records.foldl (fun o r => Observer.note r o) o

theorem shown_cons (r : Record) (records : List Record) (o : ω) :
    shown (r :: records) o = shown records (Observer.note r o) := rfl

theorem shown_array (records : List Record) (seen : Array Record) :
    shown records seen = seen ++ records.toArray := by
  induction records generalizing seen with
  | nil => exact Array.append_empty.symm
  | cons r records ih =>
      have hnote : Observer.note r seen = seen.push r := rfl
      rw [shown_cons, ih, hnote]
      apply Array.ext'
      simp

/-- The simulation when its engine has got to `t` and the observers have been shown
the records. -/
def reached (s : Simulation ω) (records : List Record) (t : Logged Engine) :
    Logged (Simulation ω) :=
  ⟨⟨t.state, s.limit, s.observers.map (shown records)⟩, t.log⟩

theorem reached_nil (s : Simulation ω) (t : Logged Engine) :
    s.reached [] t = ⟨⟨t.state, s.limit, s.observers⟩, t.log⟩ := by
  have hshown : shown [] = (id : ω → ω) := rfl
  rw [reached, hshown, List.map_id]

theorem reached_cons (s : Simulation ω) (r : Record) (records : List Record)
    (t t' : Logged Engine) :
    (s.reached [r] t).state.reached records t' = s.reached (r :: records) t' := by
  simp only [reached, List.map_map]
  rfl

/-- The records of the cycles that remain, of those that are carried out. -/
def records (s : Simulation ω) (log : Array Event) : List Record :=
  (Engine.runCycles s.remaining ⟨s.engine, log⟩).map Engine.Cycle.record

omit [Observer ω] in
theorem records_eq_nil {s : Simulation ω} (h : s.remaining = 0) (log : Array Event) :
    s.records log = [] := by
  rw [records, h, Engine.runCycles_zero, List.map_nil]

/-! ## Cycle by cycle -/

theorem step_apply (s : Simulation ω) (log : Array Event) :
    step ⟨s, log⟩ =
      match Engine.clockNext ⟨s.engine, log⟩ with
      | .ok r t => .ok () (s.reached [r] t)
      | .error fault t => .error fault (s.reached [] t) := by
  simp only [step, Step.bind_apply, onEngine, Step.within_apply, takeEngine]
  cases Engine.clockNext ⟨s.engine, log⟩ with
  | ok r t => rfl
  | error fault t => simp only [reached_nil]

theorem remaining_of_clockNext {s : Simulation ω} {log : Array Event} {r : Record}
    {t : Logged Engine} (h : Engine.clockNext ⟨s.engine, log⟩ = .ok r t)
    (records : List Record) :
    (s.reached records t).state.remaining = s.remaining - 1 := by
  obtain ⟨hcycles, hqueue⟩ := Engine.clockNext_of_ok h
  obtain ⟨e, limit, observers⟩ := s
  cases limit with
  | some m =>
      show m - t.state.cycles = m - e.cycles - 1
      rw [hcycles, Nat.sub_sub]
  | none =>
      show t.state.queue.length = e.queue.length - 1
      rw [hqueue, List.length_tail]

theorem runWithin_apply {s : Simulation ω} {bound : Nat} (hb : s.remaining ≤ bound)
    (log : Array Event) :
    runWithin bound ⟨s, log⟩ =
      match Engine.run s.remaining ⟨s.engine, log⟩ with
      | .ok _ t => .ok () (s.reached (s.records log) t)
      | .error fault t => .error fault (s.reached (s.records log) t) := by
  induction bound generalizing s log with
  | zero =>
      have hn : s.remaining = 0 := Nat.le_zero.1 hb
      simp only [records_eq_nil hn, hn, reached_nil]
      rfl
  | succ bound ih =>
      rw [runWithin, Step.bind_apply, Step.observe_apply]
      cases hn : s.remaining with
      | zero =>
          have hover : s.finished = true := s.finished_iff.2 hn
          simp only [hover, if_true, records_eq_nil hn, reached_nil]
          rfl
      | succ n =>
          have hunfinished : s.finished = false := by
            rw [← Bool.not_eq_true, finished_iff, hn]
            exact Nat.succ_ne_zero n
          simp only [hunfinished, Bool.false_eq_true, if_false]
          rw [Step.bind_apply, step_apply, Engine.run_succ, Step.bind_apply,
            Step.discard_apply, records, hn]
          cases hclock : Engine.clockNext ⟨s.engine, log⟩ with
          | error fault t => rw [Engine.runCycles_succ_of_error hclock, List.map_nil]
          | ok r t =>
              have hremaining : (s.reached [r] t).state.remaining = n := by
                rw [remaining_of_clockNext hclock, hn, Nat.add_sub_cancel]
              have htail := ih (s := (s.reached [r] t).state) (by omega) t.log
              rw [records, hremaining] at htail
              rw [Engine.runCycles_succ_of_ok hclock, List.map_cons]
              simp only [reached_cons] at htail
              exact htail

/-- A bound that the run does not exceed has no part in it. -/
theorem runWithin_of_le {s : Simulation ω} {bound : Nat} (hb : s.remaining ≤ bound)
    (log : Array Event) :
    runWithin bound ⟨s, log⟩ = runWithin s.remaining ⟨s, log⟩ := by
  rw [runWithin_apply hb, runWithin_apply (Nat.le_refl _)]

theorem run_apply (s : Simulation ω) (log : Array Event) :
    run ⟨s, log⟩ =
      match Engine.run s.remaining ⟨s.engine, log⟩ with
      | .ok _ t => .ok t.state.cycles (s.reached (s.records log) t)
      | .error fault t => .error fault (s.reached (s.records log) t) := by
  rw [run, Step.bind_apply, Step.observe_apply]
  simp only [Step.bind_apply, runWithin_apply (Nat.le_succ s.remaining)]
  cases Engine.run s.remaining ⟨s.engine, log⟩ with
  | ok u t => rfl
  | error fault t => rfl

/-! ## The whole run -/

/-- What the engine is to do by itself, were it not for the observers. -/
def plain (s : Simulation ω) : Step Engine Unit :=
  match s.limit with
  | some m => Engine.run (m - s.engine.cycles)
  | none => Engine.drain

/-- The number of cycles of the engine when the run is over. -/
def count (s : Simulation ω) : Nat :=
  match s.limit with
  | some m => max s.engine.cycles m
  | none => s.engine.cycles + s.engine.pending

omit [Observer ω] in
theorem plain_apply (s : Simulation ω) (log : Array Event) :
    s.plain ⟨s.engine, log⟩ = Engine.run s.remaining ⟨s.engine, log⟩ := by
  obtain ⟨e, limit, observers⟩ := s
  cases limit with
  | some m => rfl
  | none => exact Engine.drain_apply ⟨e, log⟩

omit [Observer ω] in
theorem cycles_add_remaining (s : Simulation ω) :
    s.engine.cycles + s.remaining = s.count := by
  obtain ⟨e, limit, observers⟩ := s
  cases limit with
  | some m =>
      show e.cycles + (m - e.cycles) = max e.cycles m
      rw [Nat.add_comm, Nat.sub_add_eq_max, Nat.max_comm]
  | none => rfl

theorem final_run (s : Simulation ω) (log : Array Event) :
    Step.final (run ⟨s, log⟩) =
      s.reached (s.records log) (Step.final (s.plain ⟨s.engine, log⟩)) := by
  rw [run_apply, plain_apply]
  cases Engine.run s.remaining ⟨s.engine, log⟩ <;> rfl

theorem outcome_run (s : Simulation ω) (log : Array Event) :
    Step.outcome (run ⟨s, log⟩) =
      (Step.outcome (s.plain ⟨s.engine, log⟩)).map fun _ => s.count := by
  rw [run_apply, plain_apply]
  cases hrun : Engine.run s.remaining ⟨s.engine, log⟩ with
  | error fault t => rfl
  | ok u t =>
      show Except.ok t.state.cycles = Except.ok s.count
      rw [(Engine.run_of_ok hrun).1, cycles_add_remaining]

theorem remaining_of_run {s : Simulation ω} {log : Array Event} {t : Logged Engine}
    (h : Engine.run s.remaining ⟨s.engine, log⟩ = .ok () t) (records : List Record) :
    (s.reached records t).state.remaining = 0 := by
  obtain ⟨hcycles, hqueue⟩ := Engine.run_of_ok h
  obtain ⟨e, limit, observers⟩ := s
  cases limit with
  | some m =>
      show m - t.state.cycles = 0
      rw [hcycles, Nat.sub_add_eq]
      exact Nat.sub_self (m - e.cycles)
  | none =>
      show t.state.queue.length = 0
      rw [hqueue, List.length_drop]
      exact Nat.sub_self e.queue.length

theorem run_again {s : Simulation ω} {log : Array Event}
    (hok : (Step.outcome (s.plain ⟨s.engine, log⟩)).isOk = true)
    (records : List Record) :
    run (s.reached records (Step.final (s.plain ⟨s.engine, log⟩))) =
      .ok s.count (s.reached records (Step.final (s.plain ⟨s.engine, log⟩))) := by
  rw [plain_apply] at hok ⊢
  cases hrun : Engine.run s.remaining ⟨s.engine, log⟩ with
  | error fault t => simp [hrun] at hok
  | ok u t =>
      have hcount : t.state.cycles = s.count := by
        rw [(Engine.run_of_ok hrun).1, cycles_add_remaining]
      have hagain := run_apply (s.reached records t).state t.log
      rw [remaining_of_run hrun records] at hagain
      simp only [records_eq_nil (remaining_of_run hrun records), reached_nil] at hagain
      rw [Step.final_ok, ← hcount]
      exact hagain

theorem finished_of_run {s : Simulation ω} {log : Array Event}
    (hok : (Step.outcome (run ⟨s, log⟩)).isOk = true) :
    (Step.final (run ⟨s, log⟩)).state.finished = true := by
  rw [run_apply] at hok ⊢
  cases hrun : Engine.run s.remaining ⟨s.engine, log⟩ with
  | error fault t => simp [hrun] at hok
  | ok u t => exact (finished_iff _).2 (remaining_of_run hrun (s.records log))

/-- A simulation and its engine by itself agree, whatever is queued and however far
the engine has got. Both end in the same state with the same outcome, and every
observer has been shown the records of the cycles that were carried out, which are
those that have come into the trace. It is the simulation that finds the end of the
run: no bound on its cycles that the run does not exceed has a part in it, and when
the run has been carried out, the simulation is finished. The count returned is then
the limit, or that of the engine if it was past it already; without a limit all that
was queued has been added to it. To run again then changes nothing. The run is
carried out if and only if the block admits what is taken out of the queue, unless a
counter overflows, for which it takes more ticks than it can count. -/
theorem run_agrees {c : Config} {e : Engine} {log : Array Event}
    (he : Engine.Reachable c ⟨e, log⟩) (limit : Option Nat)
    (observers : List (Array Record)) :
    let s : Simulation (Array Record) := ⟨e, limit, observers⟩
    let records := (Engine.runCycles s.remaining ⟨e, log⟩).map Engine.Cycle.record
    let t := Step.final (s.plain ⟨e, log⟩)
    let s' : Logged (Simulation (Array Record)) :=
      ⟨⟨t.state, limit, observers.map fun seen => seen ++ records.toArray⟩, t.log⟩
    Step.final (run ⟨s, log⟩) = s' ∧
      Step.outcome (run ⟨s, log⟩) =
        (Step.outcome (s.plain ⟨e, log⟩)).map (fun _ => s.count) ∧
      (∀ bound, s.remaining ≤ bound →
        runWithin bound ⟨s, log⟩ = runWithin s.remaining ⟨s, log⟩) ∧
      ((Step.outcome (run ⟨s, log⟩)).isOk = true →
        (Step.final (run ⟨s, log⟩)).state.finished = true) ∧
      t.state.trace.map Trace.toList =
        e.trace.map (fun trace => trace.toList ++ records) ∧
      ((Step.outcome (s.plain ⟨e, log⟩)).isOk = true → run s' = .ok s.count s') ∧
      (Step.IsAnswer (Step.outcome (s.plain ⟨e, log⟩)) →
        ((Step.outcome (s.plain ⟨e, log⟩)).isOk = true ↔
          ∀ i ∈ e.queue.take s.remaining, e.store.Admits i)) ∧
      ∀ ticks, e.store.CountedBy ticks → ticks + s.remaining < Checked.limit →
        e.cycles + s.remaining < Checked.limit →
        Step.IsAnswer (Step.outcome (s.plain ⟨e, log⟩)) := by
  intro s records t s'
  have hwell : e.store.WellFormed c := he.wellFormed
  have hplain : s.plain ⟨e, log⟩ = Engine.run s.remaining ⟨e, log⟩ := s.plain_apply log
  have hreached : s.reached records t = s' := by
    have hshown : shown records = fun seen => seen ++ records.toArray :=
      funext fun seen => shown_array records seen
    simp only [reached, hshown]
    rfl
  have hpasses := Engine.passes_run hwell s.remaining log
  rw [← hplain] at hpasses
  refine ⟨(final_run s log).trans hreached, outcome_run s log,
    fun bound hb => runWithin_of_le hb log, finished_of_run, hpasses.trace_eq, ?_, ?_,
    ?_⟩
  · intro hok
    rw [← hreached]
    exact run_again hok records
  · rw [hplain]
    exact Engine.run_isOk_iff hwell
  · intro ticks hcount hticks hcycles
    rw [hplain]
    exact Engine.isAnswer_run hwell hcount hticks hcycles log

/-- Two observers of a run over three cycles, of which the second one is refused. A
run over the first alone is finished, however many more looks it is allowed. -/
theorem run_agrees_until_refused :
    let queue : List Inputs :=
      [.ofWrite ⟨0, 0, 7⟩, .ofWrite ⟨9, 0, 9⟩, ⟨none, true, false⟩]
    let e := (Engine.ofStore (Store.initial ⟨2, 4, .sequential, true⟩)).enqueue queue
    let s : Simulation (Array Record) := ⟨e, some 3, [#[], #[]]⟩
    let first : Simulation (Array Record) := ⟨e, some 1, []⟩
    (∃ seen, (Step.final (run ⟨s, #[]⟩)).state.observers = [seen, seen] ∧
      seen.map Record.cycle = #[1] ∧ (Step.outcome (run ⟨s, #[]⟩)).isOk = false ∧
      (Step.final (run ⟨s, #[]⟩)).state.engine.pending = 1) ∧
      (Step.final (run ⟨first, #[]⟩)).state.finished = true ∧
      runWithin 5 ⟨first, #[]⟩ = runWithin 1 ⟨first, #[]⟩ := by
  intro queue e s first
  have he : Engine.Reachable ⟨2, 4, .sequential, true⟩ ⟨e, #[]⟩ :=
    ⟨⟨Store.initial ⟨2, 4, .sequential, true⟩, #[]⟩, [.enqueue queue], #[],
      ⟨_, [], #[], rfl, rfl⟩, rfl⟩
  obtain ⟨hfinal, houtcome, -⟩ := run_agrees he (some 3) [#[], #[]]
  obtain ⟨-, hcarried, hbound, hfinished, -⟩ := run_agrees he (some 1) []
  refine ⟨⟨_, congrArg (fun t => t.state.observers) hfinal, by decide +kernel, ?_, ?_⟩,
    hfinished ?_, hbound 5 (by decide)⟩
  · rw [houtcome]
    decide +kernel
  · rw [hfinal]
    decide +kernel
  · rw [hcarried]
    decide +kernel

end Simulation

end Wavefront
