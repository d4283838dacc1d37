import Wavefront.Proofs.Engine.Cycle
import Wavefront.Proofs.Store.Orders

/-!
# Every way a cycle of the engine can end

A cycle is its tick with the count and the record around it (`clock_apply`). On a
well-formed block it ends in one of three ways, `clock_outcome`: it is carried out
and leads to `Engine.next`; its tick is rejected, and nothing has changed; or a
counter has reached the end of its range. A cycle that is not carried out leaves the
count and the trace alone, and the registers of the block stand where they stood
(`Store.Still`).

A run that is answered is carried out if and only if the block admits all that it
takes out of the queue (`run_isOk_iff`), and it is answered as long as nothing needs
to be counted any further than it can be (`isAnswer_run`). What is loaded or asked
of the block past the engine changes the queue and the block alone (`final_load`,
`final_onStore`).
-/

namespace Wavefront

namespace Step

variable {σ α β : Type}

theorem final_bind_pure (x : Step σ α) (f : α → β) (s : Logged σ) :
    final ((x >>= fun a => pure (f a)) s) = final (x s) := by
  rw [bind_apply]
  cases x s <;> rfl

theorem outcome_bind_pure (x : Step σ α) (f : α → β) (s : Logged σ) :
    outcome ((x >>= fun a => pure (f a)) s) = (outcome (x s)).map f := by
  rw [bind_apply]
  cases x s <;> rfl

end Step

namespace Store

/-- From `s` to `s'` the sequencer has stood still, and with it, while it is
running, the size. -/
structure Still (s s' : Store) : Prop where
  sequencer_eq : s'.sequencer = s.sequencer
  size_eq : s.sequencer.running = true → s'.size = s.size

namespace Still

@[simp] theorem refl (s : Store) : Still s s := ⟨rfl, fun _ => rfl⟩

theorem trans {s s' s'' : Store} (h : Still s s') (h' : Still s' s'') :
    Still s s'' := by
  refine ⟨h'.sequencer_eq.trans h.sequencer_eq, fun hr => ?_⟩
  have hr' : s'.sequencer.running = true := by rwa [h.sequencer_eq]
  exact (h'.size_eq hr').trans (h.size_eq hr)

theorem final_resize (size : Nat) (s : Store) (log : Array Event) :
    Still s (Step.final (resize size ⟨s, log⟩)).state := by
  rcases resize_outcome size s log with ⟨⟨-, hr⟩, hok⟩ | ⟨-, cause, herr⟩
  · rw [hok]
    exact ⟨rfl, fun hrun => absurd hrun (by simp [hr])⟩
  · rw [herr]
    exact .refl s

end Still

end Store

namespace Engine

variable {c : Config} {e : Engine}

/-! ## One cycle -/

theorem clock_apply (h : e.store.WellFormed c) (hcycles : e.cycles + 1 < Checked.limit)
    (i : Inputs) (log : Array Event) :
    clock i ⟨e, log⟩ =
      match Store.tick i ⟨e.store, log.push (.cycle (e.cycles + 1))⟩ with
      | .ok _ t =>
          let record := { e.record i with outputs := t.state.outputs }
          .ok record
            ⟨⟨t.state, e.cycles + 1, e.queue, e.trace.map (Trace.push record)⟩, t.log⟩
      | .error fault t => .error fault ⟨{ e with store := t.state }, t.log⟩ := by
  have haddresses : e.store.addresses =
      .ok ((List.range e.store.width).map e.store.readAddress) := by
    rw [h.addresses_eq, h.width_eq]
  simp only [clock, clockBy, Step.bind_apply, Step.query_apply, Step.emit_apply,
    Step.observe_apply, Checked.add_of_lt hcycles, haddresses, onStore,
    Step.within_apply, takeStore]
  cases Store.tick i ⟨e.store, log.push (.cycle (e.cycles + 1))⟩ with
  | error fault t => rfl
  | ok u t => rfl

/-- The three ways in which a cycle ends. -/
theorem clock_outcome (h : e.store.WellFormed c) (i : Inputs) (log : Array Event) :
    (e.store.Admits i ∧ ∃ log', clock i ⟨e, log⟩ = .ok (e.record i) ⟨e.next i, log'⟩) ∨
      (¬ e.store.Admits i ∧
        ∃ cause log', clock i ⟨e, log⟩ = .error (.rejected cause) ⟨e, log'⟩) ∨
      ¬ (e.cycles + 1 < Checked.limit ∧ e.store.HasRoom) ∧
        ∃ store log',
          clock i ⟨e, log⟩ = .error (.overflow .add) ⟨{ e with store := store }, log'⟩ ∧
          store.WellFormed c ∧ e.store.Still store := by
  rcases Nat.lt_or_ge (e.cycles + 1) Checked.limit with hcycles | hfull
  · have hclock := clock_apply h hcycles i log
    by_cases hi : e.store.Admits i
    · rcases Store.tick_outcome h hi (log.push (.cycle (e.cycles + 1))) with
        hok | ⟨hroom, banks, router, log', herr, halike⟩
      · rw [hok] at hclock
        exact .inl ⟨hi, _, hclock⟩
      · rw [herr] at hclock
        exact .inr (.inr ⟨fun hcount => hroom hcount.2, _, log', hclock,
          h.of_alike halike router, rfl, fun _ => rfl⟩)
    · obtain ⟨cause, herr⟩ :=
        Store.tick_of_not_admits hi (log.push (.cycle (e.cycles + 1)))
      rw [herr] at hclock
      exact .inr (.inl ⟨hi, cause, _, hclock⟩)
  · refine .inr (.inr ⟨fun hcount => Nat.not_lt.2 hfull hcount.1, e.store, log, ?_, h,
      .refl _⟩)
    exact clock_of_le hfull i log

theorem clock_of_ok {e f : Engine} {i : Inputs} {log log' : Array Event} {r : Record}
    (h : clock i ⟨e, log⟩ = .ok r ⟨f, log'⟩) :
    f.cycles = e.cycles + 1 ∧ f.queue = e.queue := by
  simp only [clock, clockBy, Step.bind_apply, Step.query_apply, Step.emit_apply,
    Step.observe_apply, onStore, Step.within_apply, takeStore, Step.update_apply,
    Step.pure_apply] at h
  rcases Nat.lt_or_ge (e.cycles + 1) Checked.limit with hcycles | hfull
  · rw [Checked.add_of_lt hcycles] at h
    cases haddresses : e.store.addresses with
    | error fault => simp [haddresses] at h
    | ok addresses =>
        cases htick : Store.tick i ⟨e.store, log.push (.cycle (e.cycles + 1))⟩ with
        | error fault t => simp [haddresses, htick] at h
        | ok u t =>
            simp only [haddresses, htick, EStateM.Result.ok.injEq, Logged.mk.injEq] at h
            obtain ⟨-, rfl, -⟩ := h
            exact ⟨rfl, rfl⟩
  · rw [Checked.add_of_le hfull] at h
    exact absurd h (by simp)

/-! ## Runs -/

theorem clockNext_of_ok {s t : Logged Engine} {r : Record} (h : clockNext s = .ok r t) :
    t.state.cycles = s.state.cycles + 1 ∧ t.state.queue = s.state.queue.tail := by
  have hclock := h
  rw [clockNext_apply] at hclock
  exact clock_of_ok hclock

theorem run_of_ok {n : Nat} {s t : Logged Engine} (h : run n s = .ok () t) :
    t.state.cycles = s.state.cycles + n ∧ t.state.queue = s.state.queue.drop n := by
  induction n generalizing s with
  | zero =>
      obtain rfl : s = t := (EStateM.Result.ok.inj h).2
      exact ⟨rfl, rfl⟩
  | succ n ih =>
      rw [run_succ, Step.bind_apply, Step.discard_apply] at h
      cases hclock : clockNext s with
      | error fault s' => simp [hclock] at h
      | ok r s' =>
          rw [hclock] at h
          obtain ⟨hcycles, hqueue⟩ := clockNext_of_ok hclock
          obtain ⟨hcycles', hqueue'⟩ := ih h
          refine ⟨?_, ?_⟩
          · rw [hcycles', hcycles, Nat.add_right_comm, Nat.add_assoc]
          · rw [hqueue', hqueue, List.drop_tail]

/-- An idle cycle is always admitted, so it does not matter that the queue can have
run dry. -/
theorem forall_take_succ_iff {s : Store} (queue : List Inputs) (n : Nat) :
    (∀ i ∈ queue.take (n + 1), s.Admits i) ↔
      s.Admits (queue.headD .idle) ∧ ∀ i ∈ queue.tail.take n, s.Admits i := by
  cases queue with
  | nil =>
      have hidle : s.Admits .idle := by
        intro w hw
        exact absurd hw (by simp [Inputs.idle])
      simp [hidle]
  | cons i queue => exact List.forall_mem_cons

theorem run_isOk_iff (h : e.store.WellFormed c) {n : Nat} {log : Array Event}
    (ha : Step.IsAnswer (Step.outcome (run n ⟨e, log⟩))) :
    (Step.outcome (run n ⟨e, log⟩)).isOk = true ↔
      ∀ i ∈ e.queue.take n, e.store.Admits i := by
  induction n generalizing e log with
  | zero =>
      have hok : (Step.outcome (run 0 ⟨e, log⟩)).isOk = true := rfl
      simp [hok]
  | succ n ih =>
      rw [run_succ, Step.bind_apply, Step.discard_apply, clockNext_apply] at ha ⊢
      rw [forall_take_succ_iff]
      rcases clock_outcome (e := e.setQueue e.queue.tail) h
        (e.queue.headD .idle) log with
        ⟨hi, log', hok⟩ | ⟨hi, cause, log', herr⟩ | ⟨-, store, log', herr, -, -⟩
      · rw [hok] at ha ⊢
        have htail :=
          ih (e := (e.setQueue e.queue.tail).next (e.queue.headD .idle)) (h.next _) ha
        simp only [store_next, Store.admits_next] at htail
        exact htail.trans (and_iff_right hi).symm
      · rw [herr]
        exact ⟨fun hok => absurd hok (by simp),
          fun hadmits => absurd hadmits.1 hi⟩
      · rw [herr] at ha
        exact ha.elim

theorem isAnswer_run (h : e.store.WellFormed c) {n ticks : Nat}
    (hcount : e.store.CountedBy ticks) (hticks : ticks + n < Checked.limit)
    (hcycles : e.cycles + n < Checked.limit) (log : Array Event) :
    Step.IsAnswer (Step.outcome (run n ⟨e, log⟩)) := by
  induction n generalizing e ticks log with
  | zero => trivial
  | succ n ih =>
      rw [run_succ, Step.bind_apply, Step.discard_apply, clockNext_apply]
      rcases clock_outcome (e := e.setQueue e.queue.tail) h
        (e.queue.headD .idle) log with
        ⟨-, log', hok⟩ | ⟨-, cause, log', herr⟩ | ⟨hfull, -⟩
      · rw [hok]
        exact ih (e := (e.setQueue e.queue.tail).next (e.queue.headD .idle)) (h.next _)
          (hcount.next _) (by omega)
            (show e.cycles + 1 + n < Checked.limit by omega) log'
      · rw [herr]
        trivial
      · have hroom : e.store.HasRoom := hcount.hasRoom (by omega)
        exact absurd ⟨show e.cycles + 1 < Checked.limit by omega, hroom⟩ hfull

/-! ## The other requests -/

theorem final_onStore {α : Type} (x : Step Store α) (e : Engine) (log : Array Event) :
    (Step.final (onStore x ⟨e, log⟩)).state =
      { e with store := (Step.final (x ⟨e.store, log⟩)).state } := by
  simp only [onStore, Step.within_apply, takeStore]
  cases x ⟨e.store, log⟩ <;> rfl

theorem final_load (h : e.store.WellFormed c) (words : List Word) (log : Array Event) :
    ∃ store queue, (Step.final (load words ⟨e, log⟩)).state =
        { e with store := store, queue := queue } ∧ store.WellFormed c ∧
          e.store.Still store := by
  cases hload : e.layout.load words with
  | error fault =>
      refine ⟨e.store, e.queue, ?_, h, .refl _⟩
      simp only [load, Step.bind_apply, Step.query_apply, hload, Step.final_error]
  | ok plan =>
      have hwell := h.final_resize plan.size log
      have hstill := Store.Still.final_resize plan.size e.store log
      rcases Store.resize_outcome plan.size e.store log with ⟨-, hok⟩ | ⟨-, cause, herr⟩
      · rw [hok] at hwell hstill
        refine ⟨_, e.queue ++ plan.commands.map Inputs.ofWrite, ?_, hwell, hstill⟩
        simp only [load, Step.bind_apply, Step.query_apply, hload, onStore,
          Step.within_apply, takeStore, hok, Step.emit_apply, Step.update_apply,
          Step.pure_apply, Step.final_ok, enqueue]
      · refine ⟨e.store, e.queue, ?_, h, .refl _⟩
        simp only [load, Step.bind_apply, Step.query_apply, hload, onStore,
          Step.within_apply, takeStore, herr, Step.final_error]

end Engine

end Wavefront
