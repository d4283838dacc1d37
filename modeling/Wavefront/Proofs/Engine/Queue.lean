import Wavefront.Proofs.Log
import Wavefront.Proofs.Store.Refusals
import Wavefront.Proofs.Engine.History
import Wavefront.Proofs.Engine.Run

/-!
# What becomes of the queue

A run takes its inputs out of the queue one by one, and goes on idly when there are
none left. Inputs that the block refuses end it: they have left the queue like those
before them, but they are neither counted nor recorded. So a run is the block ticked
through the same inputs (`Store.tickEach`), up to the first refusal and with its
outcome, and only what was carried out before that shows in the count and in the
trace (`run_of_isAnswer`).

To drain an engine is to run it as many cycles as its queue is long, and no bound on
the number of cycles cuts it short (`drainWithinBy_apply`). When nothing in the
queue is refused, all of it is carried out (`drain_of_admits`). An engine that is
drained again after every refusal carries out all the inputs that the block admits,
and reports each of the others once (`drains_of_answered`).
-/

namespace Wavefront

namespace Engine

variable {c : Config} {e : Engine}

/-! ## Runs -/

/-- The inputs of the next `n` cycles: those in the queue, and idle ones behind
them. -/
def upcoming (n : Nat) (e : Engine) : List Inputs := e.queue.takeD n .idle

theorem upcoming_succ (n : Nat) (e : Engine) :
    e.upcoming (n + 1) =
      e.queue.headD .idle :: (e.setQueue e.queue.tail).upcoming n := by
  show e.queue.takeD (n + 1) .idle = e.queue.headD .idle :: e.queue.tail.takeD n .idle
  cases e.queue <;> rfl

theorem upcoming_pending (e : Engine) : e.upcoming e.pending = e.queue := by
  rw [upcoming, pending, List.takeD_eq_take _ (Nat.le_refl _), List.take_length]

theorem admits_upcoming (hq : ∀ i ∈ e.queue, e.store.Admits i) (n : Nat) :
    ∀ i ∈ e.upcoming n, e.store.Admits i := by
  induction n generalizing e with
  | zero => exact fun i hi => absurd hi List.not_mem_nil
  | succ n ih =>
      obtain ⟨hhead, htail⟩ := admits_headD hq
      rw [upcoming_succ]
      exact List.forall_mem_cons.2 ⟨hhead, ih (e := e.setQueue e.queue.tail) htail⟩

theorem clock_of_isAnswer (h : e.store.WellFormed c) {i : Inputs} {log : Array Event}
    (ha : Step.IsAnswer (Step.outcome (clock i ⟨e, log⟩))) :
    (e.store.Admits i ∧
        (∀ log', Store.tick i ⟨e.store, log'⟩ =
          .ok () ⟨e.store.next i, log' ++ (e.store.events i).toArray⟩) ∧
        ∃ log', clock i ⟨e, log⟩ = .ok (e.record i) ⟨e.next i, log'⟩) ∨
      ∃ cause log', e.store.refusal? i = some cause ∧
        clock i ⟨e, log⟩ = .error (.rejected cause) ⟨e, log'⟩ := by
  rcases Nat.lt_or_ge (e.cycles + 1) Checked.limit with hcycles | hfull
  · have hclock := clock_apply h hcycles i log
    cases hi : e.store.refusal? i with
    | some cause =>
        rw [Store.tick_of_refusal? hi] at hclock
        exact .inr ⟨cause, _, rfl, hclock⟩
    | none =>
        have hadmits := (Store.refusal?_eq_none_iff i).1 hi
        rcases Store.tick_outcome h hadmits (log.push (.cycle (e.cycles + 1))) with
          hok | ⟨-, banks, router, log', herr, -⟩
        · refine .inl ⟨hadmits, fun log' => ?_, _, hclock.trans (by rw [hok]; rfl)⟩
          -- The tick is carried out behind the log of the engine, and so behind
          -- every other.
          have hsame :=
            (Store.appends_tick i).outcome_eq e.store log'
              (log.push (.cycle (e.cycles + 1)))
          rw [hok] at hsame
          exact Store.tick_of_isAnswer h hadmits (by rw [hsame]; trivial)
        · rw [hclock, herr] at ha
          exact ha.elim
  · rw [clock_of_le hfull] at ha
    exact ha.elim

/-- A run that is answered goes through the upcoming inputs up to the first refusal.
Those before it have been carried out, and it has left the queue together with
them. -/
theorem run_of_isAnswer (h : e.store.WellFormed c) {n : Nat} {log : Array Event}
    (ha : Step.IsAnswer (Step.outcome (run n ⟨e, log⟩))) :
    (∀ log', Step.Accepted Store.tick (e.store.upToRefusal (e.upcoming n))
      ⟨e.store, log'⟩) ∧
      Step.outcome (run n ⟨e, log⟩) = e.store.verdict (e.upcoming n) ∧
      (Step.final (run n ⟨e, log⟩)).state =
        (e.follow (e.store.upToRefusal (e.upcoming n))).setQueue
          (e.queue.drop (min n ((e.store.upToRefusal (e.upcoming n)).length + 1))) := by
  induction n generalizing e log with
  | zero => exact ⟨fun _ => Step.accepted_nil Store.tick _, rfl, rfl⟩
  | succ n ih =>
      rw [run_succ] at ha ⊢
      have hcycle := Step.isAnswer_of_bind ha
      rw [Step.outcome_discard, Step.isAnswer_map_iff, clockNext_apply] at hcycle
      rw [Step.bind_apply, Step.discard_apply, clockNext_apply] at ha ⊢
      rw [upcoming_succ]
      rcases clock_of_isAnswer (e := e.setQueue e.queue.tail) h hcycle with
        ⟨hi, htick, log', hok⟩ | ⟨cause, log', hi, herr⟩
      · rw [hok] at ha ⊢
        obtain ⟨haccepted, houtcome, hfinal⟩ :=
          ih (e := (e.setQueue e.queue.tail).next (e.queue.headD .idle)) (h.next _) ha
        have hadmits : e.store.Admits (e.queue.headD .idle) := hi
        rw [Store.upToRefusal_cons_of_admits hadmits,
          Store.verdict_cons_of_admits hadmits]
        rw [store_next, Store.verdict_next] at houtcome
        rw [store_next, Store.upToRefusal_next] at haccepted hfinal
        refine ⟨fun log'' => ?_, houtcome, ?_⟩
        · have hstep : Store.tick (e.queue.headD .idle) ⟨e.store, log''⟩ =
              .ok () ⟨_, _⟩ :=
            htick log''
          rw [Step.accepted_cons, hstep]
          exact ⟨rfl, haccepted _⟩
        · rw [next_setQueue, follow_setQueue, setQueue_setQueue] at hfinal
          rw [follow_cons, List.length_cons, Nat.add_min_add_right, ← List.drop_tail]
          exact hfinal
      · have hrefused : e.store.refusal? (e.queue.headD .idle) = some cause := hi
        rw [herr, Store.upToRefusal_cons_of_refusal? hrefused,
          Store.verdict_cons_of_refusal? hrefused]
        refine ⟨fun _ => Step.accepted_nil Store.tick _, rfl, ?_⟩
        rw [List.length_nil, Nat.zero_add, Nat.min_eq_right (Nat.le_add_left 1 n),
          List.drop_one]
        rfl

theorem run_of_admits (h : e.store.WellFormed c) (hq : ∀ i ∈ e.queue, e.store.Admits i)
    {n : Nat} {log : Array Event} (ha : Step.IsAnswer (Step.outcome (run n ⟨e, log⟩))) :
    Step.outcome (run n ⟨e, log⟩) = .ok () ∧
      (Step.final (run n ⟨e, log⟩)).state = e.ahead n := by
  obtain ⟨-, houtcome, hfinal⟩ := run_of_isAnswer h ha
  have hadmits := admits_upcoming hq n
  rw [Store.verdict_of_admits hadmits] at houtcome
  rw [Store.upToRefusal_eq_self hadmits, upcoming, List.takeD_length,
    Nat.min_eq_left (Nat.le_succ n)] at hfinal
  exact ⟨houtcome, hfinal⟩

/-! ## Drains -/

theorem outcome_perform_drain (s : Logged Engine) :
    Step.outcome (perform .drain s) = (Step.outcome (drain s)).map fun _ => .done :=
  Step.outcome_bind_pure drain (fun _ => Reply.done) s

theorem ahead_pending (e : Engine) :
    e.ahead e.pending = (e.follow e.queue).setQueue [] := by
  show (e.follow (e.upcoming e.pending)).setQueue (e.queue.drop e.queue.length) = _
  rw [upcoming_pending, List.drop_length]

theorem isAnswer_drain (h : e.store.WellFormed c) {ticks : Nat}
    (hcount : e.store.CountedBy ticks) (hticks : ticks + e.pending < Checked.limit)
    (hcycles : e.cycles + e.pending < Checked.limit) (log : Array Event) :
    Step.IsAnswer (Step.outcome (drain ⟨e, log⟩)) := by
  rw [drain_apply]
  exact isAnswer_run h hcount hticks hcycles log

theorem drain_of_admits (h : e.store.WellFormed c)
    (hq : ∀ i ∈ e.queue, e.store.Admits i) {log : Array Event}
    (ha : Step.IsAnswer (Step.outcome (drain ⟨e, log⟩))) :
    Step.outcome (drain ⟨e, log⟩) = .ok () ∧
      (Step.final (drain ⟨e, log⟩)).state = (e.follow e.queue).setQueue [] := by
  rw [drain_apply] at ha ⊢
  rw [← ahead_pending]
  exact run_of_admits h hq ha

theorem drain_of_nil (hq : e.queue = []) (log : Array Event) :
    drain ⟨e, log⟩ = .ok () ⟨e, log⟩ := by
  rw [drain_apply]
  show run e.queue.length ⟨e, log⟩ = _
  rw [hq]
  rfl

theorem drain_of_cons {i : Inputs} {is : List Inputs} (hq : e.queue = i :: is)
    (log : Array Event) :
    drain ⟨e, log⟩ = (discard (clock i) >>= fun _ => drain) ⟨e.setQueue is, log⟩ := by
  have hpending : (⟨e, log⟩ : Logged Engine).state.pending = is.length + 1 := by
    rw [pending, hq, List.length_cons]
  have hhead : clockNext ⟨e, log⟩ = clock i ⟨e.setQueue is, log⟩ := by
    rw [clockNext_apply, hq]
    rfl
  rw [drain_apply, hpending, run_succ, Step.bind_apply, Step.bind_apply,
    Step.discard_apply, Step.discard_apply, hhead]
  cases hclock : clock i ⟨e.setQueue is, log⟩ with
  | error fault t => rfl
  | ok r t =>
      have hqueue : t.state.queue = is := (clock_of_ok hclock).2
      show run is.length t = drain t
      rw [drain_apply, pending, hqueue]

/-- Drained again after every refusal, an engine carries out all that the block
admits and reports each of the other inputs once. -/
theorem drains_of_answered {queue : List Inputs} (hq : e.queue = queue)
    (h : e.store.WellFormed c) {log : Array Event}
    (ha : Step.Answered perform
      (List.replicate ((e.store.refusals queue).length + 1) .drain) ⟨e, log⟩) :
    (∀ log', Step.Accepted Store.tick (e.store.admitted queue) ⟨e.store, log'⟩) ∧
      Step.outcomes perform
          (List.replicate ((e.store.refusals queue).length + 1) .drain) ⟨e, log⟩ =
        (e.store.refusals queue).map (fun cause => .error (.rejected cause)) ++
          [.ok .done] ∧
      (Step.after perform
          (List.replicate ((e.store.refusals queue).length + 1) .drain)
            ⟨e, log⟩).state =
        (e.follow (e.store.admitted queue)).setQueue [] := by
  induction queue generalizing e log with
  | nil =>
      have hdrain := drain_of_nil hq log
      refine ⟨fun _ => Step.accepted_nil Store.tick _, ?_, ?_⟩
      · show [Step.outcome (perform .drain ⟨e, log⟩)] = [.ok .done]
        rw [outcome_perform_drain, hdrain]
        rfl
      · show (Step.final (perform .drain ⟨e, log⟩)).state = e.setQueue []
        rw [final_perform_drain, hdrain, ← hq]
        rfl
  | cons i is ih =>
      have hdrain := drain_of_cons hq log
      have hcycle : Step.IsAnswer (Step.outcome (clock i ⟨e.setQueue is, log⟩)) := by
        have hfirst := ((Step.answered_cons _ _ _ _).1 ha).1
        rw [outcome_perform_drain, Step.isAnswer_map_iff, hdrain] at hfirst
        have hbegin := Step.isAnswer_of_bind hfirst
        rwa [Step.outcome_discard, Step.isAnswer_map_iff] at hbegin
      rw [Step.bind_apply, Step.discard_apply] at hdrain
      rcases clock_of_isAnswer (e := e.setQueue is) h hcycle with
        ⟨hi, htick, log', hok⟩ | ⟨cause, log', hi, herr⟩
      · have hadmits : e.store.Admits i := hi
        have hstep : ∀ log',
            Store.tick i ⟨e.store, log'⟩ = .ok () ⟨e.store.next i, _⟩ := htick
        -- The drain goes on where its first cycle has led, and so do those that
        -- follow it.
        have hsame : perform .drain ⟨e, log⟩ =
            perform .drain ⟨(e.setQueue is).next i, log'⟩ := by
          rw [hok] at hdrain
          show (drain >>= fun _ => pure Reply.done) _ =
            (drain >>= fun _ => pure Reply.done) _
          rw [Step.bind_apply, Step.bind_apply, hdrain]
        rw [Store.refusals_cons_of_admits hadmits, List.replicate_succ] at ha ⊢
        rw [Step.answered_cons, hsame, ← Step.answered_cons, ← List.replicate_succ,
          ← Store.refusals_next i e.store] at ha
        obtain ⟨haccepted, houtcomes, hafter⟩ := ih rfl (h.next i) ha
        rw [Store.admitted_cons_of_admits hadmits, Step.outcomes_cons, Step.after_cons,
          hsame, ← Step.outcomes_cons, ← Step.after_cons, ← List.replicate_succ,
          ← Store.refusals_next i e.store, ← Store.admitted_next i e.store]
        rw [next_setQueue, follow_setQueue, setQueue_setQueue, ← follow_cons] at hafter
        refine ⟨fun log'' => ?_, houtcomes, hafter⟩
        rw [Step.accepted_cons, hstep]
        exact ⟨rfl, haccepted _⟩
      · have hrefused : e.store.refusal? i = some cause := hi
        rw [herr] at hdrain
        rw [Store.refusals_cons_of_refusal? hrefused, List.length_cons,
          List.replicate_succ] at ha ⊢
        rw [Step.answered_cons, final_perform_drain, hdrain] at ha
        obtain ⟨haccepted, houtcomes, hafter⟩ := ih (e := e.setQueue is) rfl h ha.2
        rw [follow_setQueue, setQueue_setQueue] at hafter
        rw [Store.admitted_cons_of_refusal? hrefused, Step.outcomes_cons,
          Step.after_cons, outcome_perform_drain, final_perform_drain, hdrain]
        exact ⟨haccepted, congrArg _ houtcomes, hafter⟩

theorem answered_drains (h : e.store.WellFormed c) {ticks : Nat}
    (hcount : e.store.CountedBy ticks) (hticks : ticks + e.pending < Checked.limit)
    (hcycles : e.cycles + e.pending < Checked.limit) (k : Nat) (log : Array Event) :
    Step.Answered perform (List.replicate k .drain) ⟨e, log⟩ := by
  induction k generalizing e ticks log with
  | zero => exact Step.answered_nil perform ⟨e, log⟩
  | succ k ih =>
      have hdrain : drain ⟨e, log⟩ = run e.pending ⟨e, log⟩ := drain_apply ⟨e, log⟩
      have ha : Step.IsAnswer (Step.outcome (run e.pending ⟨e, log⟩)) :=
        isAnswer_run h hcount hticks hcycles log
      obtain ⟨-, -, hfinal⟩ := run_of_isAnswer h ha
      rw [upcoming_pending] at hfinal
      obtain ⟨log', hend⟩ : ∃ log', Step.final (run e.pending ⟨e, log⟩) = ⟨_, log'⟩ :=
        ⟨_, congrArg (Logged.mk · _) hfinal⟩
      rw [List.replicate_succ, Step.answered_cons, outcome_perform_drain,
        final_perform_drain, hdrain, Step.isAnswer_map_iff, hend]
      -- What the drain has carried out is counted, but it has left the queue.
      have hlength : (e.store.upToRefusal e.queue).length ≤ e.pending :=
        e.store.length_upToRefusal_le e.queue
      generalize hqueue : e.queue.drop (min e.pending _) = queue
      have hpending : queue.length =
          e.pending - min e.pending ((e.store.upToRefusal e.queue).length + 1) := by
        rw [← hqueue, List.length_drop]
        rfl
      have hwell : (e.follow (e.store.upToRefusal e.queue)).store.WellFormed c := by
        rw [store_follow]
        exact h.follow _
      have hcounted : (e.follow (e.store.upToRefusal e.queue)).store.CountedBy
          (ticks + (e.store.upToRefusal e.queue).length) := by
        rw [store_follow]
        exact hcount.follow _
      refine ⟨ha, ih (e := (e.follow _).setQueue queue) hwell hcounted ?_ ?_ log'⟩
      · show ticks + (e.store.upToRefusal e.queue).length + queue.length < Checked.limit
        omega
      · show (e.follow (e.store.upToRefusal e.queue)).cycles + queue.length <
          Checked.limit
        rw [cycles_follow]
        omega

/-! ## What was executed -/

def records : List Inputs → Engine → List Record
  | [], _ => []
  | i :: is, e => e.record i :: records is (e.next i)

theorem trace_follow (is : List Inputs) (e : Engine) :
    (e.follow is).trace.map Trace.toList =
      e.trace.map fun t => t.toList ++ e.records is := by
  induction is generalizing e with
  | nil => simp [records]
  | cons i is ih =>
      rw [follow_cons, ih, trace_next, Option.map_map]
      simp [records, Function.comp_def]

/-- The inputs took the engine from `e` to `f`: the block has ticked with one after
the other, each of these ticks was carried out, and they were counted and
recorded. -/
structure Executes (e : Engine) (is : List Inputs) (f : Engine) : Prop where
  accepted : ∀ log, Step.Accepted Store.tick is ⟨e.store, log⟩
  store_eq : ∀ log, f.store = (Step.after Store.tick is ⟨e.store, log⟩).state
  cycles_eq : f.cycles = e.cycles + is.length
  trace_eq : f.trace.map Trace.toList = e.trace.map fun t => t.toList ++ e.records is

theorem executes_follow (h : e.store.WellFormed c) {is : List Inputs}
    (ha : ∀ log, Step.Accepted Store.tick is ⟨e.store, log⟩) (queue : List Inputs) :
    e.Executes is ((e.follow is).setQueue queue) := by
  refine ⟨ha, fun log => ?_, cycles_follow is e, trace_follow is e⟩
  rw [(Store.after_tick_of_accepted h (ha log)).2]
  exact store_follow is e

/-- The queue is executed entry by entry. A run ticks the block through the upcoming
inputs and ends at the first that is refused, with that refusal. That entry has left
the queue with those before it, but only those were counted and recorded. Two runs
are one long run, a drain is a run through the queue whatever the bound on its
cycles, and when it is repeated until it succeeds it passes over the refused
entries, each of them reported once. All this is so as long as the ticks and the
cycles can be counted. -/
theorem queue_execution {t : Logged Engine} (ht : Reachable c t) :
    let e := t.state
    (∀ n, Step.IsAnswer (Step.outcome (run n t)) →
      let is := e.upcoming n
      let done := e.store.upToRefusal is
      let f := (Step.final (run n t)).state
      Step.outcome (run n t) = e.store.verdict is ∧
        (∀ log, Step.outcome (Store.tickEach is ⟨e.store, log⟩) = e.store.verdict is ∧
          f.store = (Step.final (Store.tickEach is ⟨e.store, log⟩)).state) ∧
        e.Executes done f ∧ f.queue = e.queue.drop (min n (done.length + 1))) ∧
      (∀ m n, (run m >>= fun _ => run n) t = run (m + n) t) ∧
      (∀ bound, e.pending ≤ bound →
        drainWithinBy Store.tick bound t = run e.pending t) ∧
      drain t = run e.pending t ∧
      (let drains :=
        List.replicate ((e.store.refusals e.queue).length + 1) Request.drain
       Step.Answered perform drains t →
        let f := (Step.after perform drains t).state
        Step.outcomes perform drains t =
            (e.store.refusals e.queue).map (fun cause => .error (.rejected cause)) ++
              [.ok .done] ∧
          e.Executes (e.store.admitted e.queue) f ∧ f.queue = []) ∧
      ∀ ticks, e.store.CountedBy ticks →
        (∀ n, ticks + n < Checked.limit → e.cycles + n < Checked.limit →
          Step.IsAnswer (Step.outcome (run n t))) ∧
        (ticks + e.pending < Checked.limit → e.cycles + e.pending < Checked.limit →
          ∀ k, Step.Answered perform (List.replicate k .drain) t) := by
  intro e
  have hwell : e.store.WellFormed c := ht.wellFormed
  refine ⟨?_, fun m n => (run_add m n t).symm,
    fun bound hb => drainWithinBy_apply Store.tick bound t hb, drain_apply t, ?_, ?_⟩
  · intro n ha is done f
    obtain ⟨haccepted, houtcome, hfinal⟩ := run_of_isAnswer (e := e) hwell ha
    have hexecutes : e.Executes done f := by
      show e.Executes done (Step.final (run n t)).state
      rw [hfinal]
      exact executes_follow hwell haccepted _
    refine ⟨houtcome, fun log => ?_, hexecutes, congrArg queue hfinal⟩
    obtain ⟨hverdict, hend⟩ := Store.tickEach_of_accepted hwell (haccepted log)
    rw [hend]
    exact ⟨hverdict, hexecutes.store_eq log⟩
  · intro drains ha f
    obtain ⟨haccepted, houtcomes, hafter⟩ := drains_of_answered (e := e) rfl hwell ha
    have hexecutes : e.Executes (e.store.admitted e.queue) f := by
      show e.Executes _ (Step.after perform drains t).state
      rw [hafter]
      exact executes_follow hwell haccepted _
    exact ⟨houtcomes, hexecutes, congrArg queue hafter⟩
  · intro ticks hcount
    exact ⟨fun n hticks hcycles => isAnswer_run hwell hcount hticks hcycles t.log,
      fun hticks hcycles k => answered_drains hwell hcount hticks hcycles k t.log⟩

/-- Two commands out of range stand in the queue. A run ends at the first of them;
repeated drains pass over both. -/
theorem queue_executed_past_refusals :
    let t := Step.after perform
      [.ofStore (.resize 3),
        .enqueue [.ofWrite ⟨0, 0, 5⟩, .ofWrite ⟨7, 0, 1⟩, ⟨none, true, false⟩,
        .ofWrite ⟨1, 9, 2⟩, .idle]]
      ⟨ofStore (Store.initial ⟨2, 4, .parallel, true⟩), #[]⟩
    (Step.outcome (run 4 t) = .error (.rejected (.bankOutOfRange 7 2)) ∧
      (Step.final (run 4 t)).state.queue =
        [⟨none, true, false⟩, .ofWrite ⟨1, 9, 2⟩, .idle] ∧
      (Step.final (run 4 t)).state.cycles = 1) ∧
      Step.outcomes perform (List.replicate 3 .drain) t =
        [.error (.rejected (.bankOutOfRange 7 2)),
          .error (.rejected (.addressOutOfRange 9 4)), .ok .done] ∧
      (Step.after perform (List.replicate 3 .drain) t).state.cycles = 3 := by
  intro t
  have hreachable : Reachable ⟨2, 4, .parallel, true⟩ t :=
    ⟨⟨Store.initial ⟨2, 4, .parallel, true⟩, #[]⟩, _, #[], ⟨_, [], #[], rfl, rfl⟩, rfl⟩
  have hrefusals : (t.state.store.refusals t.state.queue).length + 1 = 3 := by
    decide +kernel
  obtain ⟨hrun, -, -, -, hdrains, -⟩ := queue_execution hreachable
  rw [hrefusals] at hdrains
  obtain ⟨houtcome, -, hexecutes, hqueue⟩ := hrun 4 (by decide +kernel)
  obtain ⟨houtcomes, hexecutes', -⟩ := hdrains (by decide +kernel)
  refine ⟨⟨houtcome.trans ?_, hqueue.trans ?_, hexecutes.cycles_eq.trans ?_⟩,
    houtcomes.trans ?_, hexecutes'.cycles_eq.trans ?_⟩
  all_goals decide +kernel

end Engine

end Wavefront
