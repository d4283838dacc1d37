import Wavefront.Proofs.Engine.Outcome

/-!
# The cycles of a run

`Engine.history` lists the cycles that the requests of a run carry out, in order,
each with what it sampled, with the streaming size in force and with the record it
returned. A cycle that fails is not among them, and what `run` or `drain` carry out
before they fail is.

What cycles do to an engine is said by three relations between where it was before
and where it is after them. `Counts`: the cycles are numbered without gaps, and each
of them has recorded every lane. `Leads`: each was carried out where the one before
it had led. `Passes`: both, and their records are what has come into the trace.
Stretches of cycles can be put together, so that it is enough to look at one cycle
(`passes_clock`) and to follow a run along its recursion (`passes_run`). From there
`counts_after` and `leads_after` go over all requests.
-/

namespace Wavefront

namespace Engine

/-- A cycle that was carried out: what it sampled, the streaming size in force, and
its record. -/
structure Cycle where
  inputs : Inputs
  size : Nat
  record : Record
deriving DecidableEq

/-- The cycles that `run n` carries out: all up to the first one that fails. -/
def runCycles : Nat → Logged Engine → List Cycle
  | 0, _ => []
  | n + 1, s =>
      match clockNext s with
      | .ok r t => ⟨s.state.queue.headD .idle, s.state.store.size, r⟩ :: runCycles n t
      | .error _ _ => []

@[simp] theorem runCycles_zero (s : Logged Engine) : runCycles 0 s = [] := rfl

theorem runCycles_succ_of_ok {n : Nat} {s t : Logged Engine} {r : Record}
    (h : clockNext s = .ok r t) :
    runCycles (n + 1) s =
      ⟨s.state.queue.headD .idle, s.state.store.size, r⟩ :: runCycles n t := by
  simp only [runCycles, h]

theorem runCycles_succ_of_error {n : Nat} {s t : Logged Engine} {fault : Fault}
    (h : clockNext s = .error fault t) : runCycles (n + 1) s = [] := by
  simp only [runCycles, h]

namespace Request

/-- The cycles that a request carries out. A request to the block is none of the
engine's cycles, even if it ticks the block. -/
def cycles : Request → Logged Engine → List Cycle
  | .clock i, s =>
      match Engine.clock i s with
      | .ok r _ => [⟨i, s.state.store.size, r⟩]
      | .error _ _ => []
  | .clockNext, s => runCycles 1 s
  | .run n, s => runCycles n s
  | .drain, s => runCycles s.state.pending s
  | .enqueue _, _ => []
  | .load _, _ => []
  | .handOverTrace, _ => []
  | .ofStore _, _ => []

end Request

/-- The cycles that the requests of a run carry out, in order. -/
def history : List Request → Logged Engine → List Cycle
  | [], _ => []
  | r :: rs, s => r.cycles s ++ history rs (Step.final (perform r s))

@[simp] theorem history_nil (s : Logged Engine) : history [] s = [] := rfl

theorem history_cons (r : Request) (rs : List Request) (s : Logged Engine) :
    history (r :: rs) s = r.cycles s ++ history rs (Step.final (perform r s)) := rfl

def cycle (i : Inputs) (e : Engine) : Cycle := ⟨i, e.store.size, e.record i⟩

variable {c : Config} {e f g : Engine} {cs ds : List Cycle}

/-! ## What cycles do to an engine -/

/-- The cycles lead from the block of `e` to that of `g`: each of them was carried
out where the one before it had led, and in between the block stood still. -/
def Leads (c : Config) : Engine → List Cycle → Engine → Prop
  | e, [], g => e.store.Still g.store
  | e, x :: cs, g =>
      ∃ (f : Engine) (i : Inputs), e.store.Still f.store ∧ f.store.WellFormed c ∧
        x = f.cycle i ∧ Leads c (f.next i) cs g

namespace Leads

theorem of_still (h : e.store.Still g.store) : Leads c e [] g := h

theorem cons (h : e.store.Still f.store) (hf : f.store.WellFormed c) {i : Inputs}
    (hcs : Leads c (f.next i) cs g) : Leads c e (f.cycle i :: cs) g :=
  ⟨f, i, h, hf, rfl, hcs⟩

theorem of_still_append (h : e.store.Still f.store) (hcs : Leads c f cs g) :
    Leads c e cs g := by
  cases cs with
  | nil => exact h.trans hcs
  | cons x cs =>
      obtain ⟨f', i, hstill, hwell, rfl, hcs⟩ := hcs
      exact .cons (h.trans hstill) hwell hcs

theorem append (h : Leads c e cs f) (h' : Leads c f ds g) : Leads c e (cs ++ ds) g := by
  induction cs generalizing e with
  | nil => exact of_still_append h h'
  | cons x cs ih =>
      obtain ⟨f', i, hstill, hwell, rfl, hcs⟩ := h
      exact .cons hstill hwell (ih hcs)

end Leads

/-- Between `e` and `f` the cycles `cs` were counted, and each has recorded every
lane. -/
structure Counts (c : Config) (e : Engine) (cs : List Cycle) (f : Engine) : Prop where
  wellFormed : f.store.WellFormed c
  cycles_eq : f.cycles = e.cycles + cs.length
  numbers_eq : cs.map (fun x => x.record.cycle) = List.range' (e.cycles + 1) cs.length
  lanes_eq : ∀ x ∈ cs, x.record.addresses.length = c.banks ∧
    x.record.outputs.length = c.banks

namespace Counts

theorem of_eq (hf : f.store.WellFormed c) (hcycles : f.cycles = e.cycles) :
    Counts c e [] f :=
  ⟨hf, hcycles, rfl, by simp⟩

theorem append (h : Counts c e cs f) (h' : Counts c f ds g) :
    Counts c e (cs ++ ds) g := by
  refine ⟨h'.wellFormed, ?_, ?_, ?_⟩
  · rw [h'.cycles_eq, h.cycles_eq, List.length_append, Nat.add_assoc]
  · have hstart : f.cycles + 1 = e.cycles + 1 + cs.length := by
      rw [h.cycles_eq, Nat.add_right_comm]
    rw [List.map_append, h.numbers_eq, h'.numbers_eq, hstart, List.range'_append_1,
      List.length_append]
  · exact List.forall_mem_append.2 ⟨h.lanes_eq, h'.lanes_eq⟩

theorem next (h : e.store.WellFormed c) (i : Inputs) :
    Counts c e [e.cycle i] (e.next i) := by
  refine ⟨h.next i, rfl, rfl, List.forall_mem_singleton.2 ⟨?_, ?_⟩⟩
  · show ((List.range e.store.width).map e.store.readAddress).length = c.banks
    rw [List.length_map, List.length_range, h.width_eq]
  · show (e.store.next i).outputs.length = c.banks
    rw [Store.length_outputs, Store.width_next, h.width_eq]

end Counts

/-- The cycles `cs` took the engine from `e` to `f`, and nothing was done to its
trace besides. -/
structure Passes (c : Config) (e : Engine) (cs : List Cycle) (f : Engine) : Prop
    extends Counts c e cs f where
  trace_eq : f.trace.map Trace.toList =
    e.trace.map fun t => t.toList ++ cs.map Cycle.record
  leads : Leads c e cs f

namespace Passes

theorem of_still (hf : f.store.WellFormed c) (hcycles : f.cycles = e.cycles)
    (htrace : f.trace = e.trace) (hstill : e.store.Still f.store) :
    Passes c e [] f := by
  refine ⟨.of_eq hf hcycles, ?_, hstill⟩
  simp [htrace]

theorem append (h : Passes c e cs f) (h' : Passes c f ds g) :
    Passes c e (cs ++ ds) g := by
  refine ⟨h.toCounts.append h'.toCounts, ?_, h.leads.append h'.leads⟩
  have hmore : (f.trace.map fun t => t.toList ++ ds.map Cycle.record) =
      (f.trace.map Trace.toList).map (· ++ ds.map Cycle.record) := by
    rw [Option.map_map]
    rfl
  rw [h'.trace_eq, hmore, h.trace_eq, Option.map_map, List.map_append]
  congr 1
  funext t
  exact List.append_assoc _ _ _

theorem next (h : e.store.WellFormed c) (i : Inputs) :
    Passes c e [e.cycle i] (e.next i) := by
  refine ⟨.next h i, ?_, .cons (.refl e.store) h (.refl _)⟩
  rw [trace_next, Option.map_map]
  congr 1
  funext t
  exact t.toList_push (e.record i)

end Passes

/-! ## Cycles that are asked for -/

theorem passes_clock (h : e.store.WellFormed c) (i : Inputs) (log : Array Event) :
    Passes c e (Request.cycles (.clock i) ⟨e, log⟩)
      (Step.final (clock i ⟨e, log⟩)).state := by
  rcases clock_outcome h i log with
    ⟨-, log', hok⟩ | ⟨-, cause, log', herr⟩ | ⟨-, store, log', herr, hstore, hstill⟩
  · simp only [Request.cycles, hok]
    exact .next h i
  · simp only [Request.cycles, herr]
    exact .of_still h rfl rfl (.refl _)
  · simp only [Request.cycles, herr]
    exact .of_still hstore rfl rfl hstill

theorem passes_clockNext (h : e.store.WellFormed c) (log : Array Event) :
    Passes c e (runCycles 1 ⟨e, log⟩) (Step.final (clockNext ⟨e, log⟩)).state := by
  have hqueue : Passes c e [] (e.setQueue e.queue.tail) := .of_still h rfl rfl (.refl _)
  have hclock := passes_clock (e := e.setQueue e.queue.tail) h (e.queue.headD .idle) log
  simp only [Request.cycles, ← clockNext_apply e log] at hclock
  exact hqueue.append hclock

theorem passes_run (h : e.store.WellFormed c) (n : Nat) (log : Array Event) :
    Passes c e (runCycles n ⟨e, log⟩) (Step.final (run n ⟨e, log⟩)).state := by
  induction n generalizing e log with
  | zero => exact .of_still h rfl rfl (.refl _)
  | succ n ih =>
      have hfirst := passes_clockNext h log
      rw [run_succ, Step.bind_apply, Step.discard_apply]
      cases hclock : clockNext ⟨e, log⟩ with
      | error fault t =>
          rw [hclock, runCycles_succ_of_error hclock] at hfirst
          rw [runCycles_succ_of_error hclock]
          exact hfirst
      | ok r t =>
          rw [hclock, runCycles_succ_of_ok hclock] at hfirst
          rw [runCycles_succ_of_ok hclock]
          exact hfirst.append (ih hfirst.wellFormed t.log)

/-! ## Every request -/

/-- The request ticks the block past the engine. -/
def Request.TicksBlock : Request → Prop
  | .ofStore q => q.inputs.isSome = true
  | _ => False

instance : DecidablePred Request.TicksBlock
  | .ofStore q => inferInstanceAs (Decidable (q.inputs.isSome = true))
  | .enqueue _ | .load _ | .clock _ | .clockNext | .run _ | .drain | .handOverTrace =>
      isFalse id

theorem perform_ofStore (q : Store.Request) :
    perform (.ofStore q) = onStore (Store.perform q) >>= fun _ => pure .done := rfl

/-! What a request returns is wrapped up for its caller, and that changes nothing in
the engine. -/

theorem final_perform_load (words : List Word) (s : Logged Engine) :
    Step.final (perform (.load words) s) = Step.final (load words s) :=
  Step.final_bind_pure (load words) Reply.size s

theorem final_perform_clock (i : Inputs) (s : Logged Engine) :
    Step.final (perform (.clock i) s) = Step.final (clock i s) :=
  Step.final_bind_pure (clock i) Reply.record s

theorem final_perform_clockNext (s : Logged Engine) :
    Step.final (perform .clockNext s) = Step.final (clockNext s) :=
  Step.final_bind_pure clockNext Reply.record s

theorem final_perform_run (n : Nat) (s : Logged Engine) :
    Step.final (perform (.run n) s) = Step.final (run n s) :=
  Step.final_bind_pure (run n) (fun _ => Reply.done) s

theorem final_perform_drain (s : Logged Engine) :
    Step.final (perform .drain s) = Step.final (drain s) :=
  Step.final_bind_pure drain (fun _ => Reply.done) s

/-- Whatever is asked of an engine, but to hand over its trace or to let its block
be ticked past it, makes it pass through the cycles that this carries out. -/
theorem passes_perform (h : e.store.WellFormed c) {r : Request} (hr : ¬ r.TicksBlock)
    (htrace : r ≠ .handOverTrace) (log : Array Event) :
    Passes c e (r.cycles ⟨e, log⟩) (Step.final (perform r ⟨e, log⟩)).state := by
  cases r with
  | enqueue is => exact .of_still h rfl rfl (.refl _)
  | load words =>
      obtain ⟨store, queue, hload, hstore, hstill⟩ := final_load h words log
      rw [final_perform_load, hload]
      exact .of_still hstore rfl rfl hstill
  | clock i =>
      rw [final_perform_clock]
      exact passes_clock h i log
  | clockNext =>
      rw [final_perform_clockNext]
      exact passes_clockNext h log
  | run n =>
      rw [final_perform_run]
      exact passes_run h n log
  | drain =>
      rw [final_perform_drain, drain_apply]
      exact passes_run h e.pending log
  | handOverTrace => exact absurd rfl htrace
  | ofStore q =>
      cases q with
      | resize size =>
          rw [perform_ofStore, Step.final_bind_pure, final_onStore]
          exact .of_still (h.final_resize size log) rfl rfl
            (Store.Still.final_resize size e.store log)
      | tick i => exact absurd rfl hr
      | write w => exact absurd rfl hr

theorem counts_perform (h : e.store.WellFormed c) (r : Request) (log : Array Event) :
    Counts c e (r.cycles ⟨e, log⟩) (Step.final (perform r ⟨e, log⟩)).state := by
  by_cases hr : r.TicksBlock
  · cases r with
    | ofStore q =>
        rw [perform_ofStore, Step.final_bind_pure, final_onStore]
        exact .of_eq (h.final_perform q log) rfl
    | enqueue _ | load _ | clock _ | clockNext | run _ | drain | handOverTrace =>
        exact hr.elim
  · by_cases htrace : r = .handOverTrace
    · subst htrace
      exact .of_eq h rfl
    · exact (passes_perform h hr htrace log).toCounts

theorem leads_perform (h : e.store.WellFormed c) {r : Request} (hr : ¬ r.TicksBlock)
    (log : Array Event) :
    Leads c e (r.cycles ⟨e, log⟩) (Step.final (perform r ⟨e, log⟩)).state := by
  by_cases htrace : r = .handOverTrace
  · subst htrace
    exact .of_still (.refl _)
  · exact (passes_perform h hr htrace log).leads

theorem counts_after (h : e.store.WellFormed c) (rs : List Request)
    (log : Array Event) :
    Counts c e (history rs ⟨e, log⟩) (Step.after perform rs ⟨e, log⟩).state := by
  induction rs generalizing e log with
  | nil => exact .of_eq h rfl
  | cons r rs ih =>
      have hr := counts_perform h r log
      exact hr.append (ih hr.wellFormed _)

theorem leads_after (h : e.store.WellFormed c) {rs : List Request}
    (hrs : ∀ r ∈ rs, ¬ r.TicksBlock) (log : Array Event) :
    Leads c e (history rs ⟨e, log⟩) (Step.after perform rs ⟨e, log⟩).state := by
  induction rs generalizing e log with
  | nil => exact .of_still (.refl _)
  | cons r rs ih =>
      obtain ⟨hr, htail⟩ := List.forall_mem_cons.1 hrs
      exact (leads_perform h hr log).append
        (ih (counts_perform h r log).wellFormed htail _)

theorem eq_empty_of_mem_trace_ofStore {s : Store} {t : Trace}
    (h : t ∈ (ofStore s).trace) :
    t = .empty := by
  have htrace : (if s.config.traced then some Trace.empty else none) = some t := h
  split at htrace
  · exact (Option.some.inj htrace).symm
  · exact absurd htrace (by simp)

/-- A run of an engine that was made of a block leads there, and a run of a new
block to that block. -/
def Reachable (c : Config) (t : Logged Engine) : Prop :=
  ∃ s rs log, Store.Reachable c s ∧ t = Step.after perform rs ⟨ofStore s.state, log⟩

theorem Reachable.wellFormed {t : Logged Engine} (h : Reachable c t) :
    t.state.store.WellFormed c := by
  obtain ⟨s, rs, log, hs, rfl⟩ := h
  exact (counts_after (e := ofStore s.state) hs.wellFormed rs log).wellFormed

end Engine

end Wavefront
