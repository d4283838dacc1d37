import Wavefront.Proofs.Engine.Cycle

/-!
# Starts that nothing takes notice of

A start is redundant when the sequencer is running already, and beside a reset.
Three parts of the block look at it, each on a branch of its own: the sequencer
(`next_essential`), the phase of the record (`ofTick_essential`) and the report of
the pulses (`pulses_essential`). They agree on what is redundant, so a tick is the
same without it, whether it is carried out, refused or overflows
(`Store.tick_essential`), and so is a cycle (`Engine.clock_essential`).

Which starts of a run are redundant depends on where the run has led.
`Engine.essential` goes along with the run and clears them, and
`redundant_starts_erasable` says that this is a run of the same results through the
same states.
-/

namespace Wavefront

/-- The inputs with the start cleared if it is redundant. -/
def Inputs.essential (running : Bool) (i : Inputs) : Inputs :=
  if running || i.reset then { i with start := false } else i

namespace Inputs

variable (running : Bool) (i : Inputs)

@[simp] theorem write_essential : (i.essential running).write = i.write := by
  rw [essential]
  split <;> rfl

@[simp] theorem reset_essential : (i.essential running).reset = i.reset := by
  rw [essential]
  split <;> rfl

theorem start_essential :
    (i.essential running).start = (i.start && !running && !i.reset) := by
  cases running <;> cases h : i.reset <;> simp [essential, h]

end Inputs

theorem Phase.ofTick_essential (running : Bool) (i : Inputs) :
    ofTick running (i.essential running) = ofTick running i := by
  cases running <;> cases h : i.reset <;> simp [ofTick, Inputs.essential, h]

theorem Sequencer.next_essential (i : Inputs) (size : Nat) (s : Sequencer) :
    s.next ⟨(i.essential s.running).start, i.reset, size⟩ =
      s.next ⟨i.start, i.reset, size⟩ := by
  cases hreset : i.reset with
  | true => rw [next_of_reset rfl, next_of_reset rfl]
  | false =>
      rw [Inputs.start_essential, hreset]
      cases hrunning : s.running <;> simp [next, hrunning]

namespace Store

theorem pulses_essential (i : Inputs) (s : Store) :
    s.pulses (i.essential s.sequencer.running) = s.pulses i := by
  rw [pulses, pulses, Inputs.start_essential, Inputs.reset_essential]
  cases i.reset <;> cases s.sequencer.running <;> simp

theorem admits_essential (running : Bool) (i : Inputs) (s : Store) :
    s.Admits (i.essential running) ↔ s.Admits i := by
  rw [Admits, Admits, Inputs.write_essential]

theorem settle_essential (order : List Nat) (i : Inputs) (before : Sequencer)
    (s : Store) (log : Array Event) :
    settle order (i.essential s.sequencer.running) before ⟨s, log⟩ =
      settle order i before ⟨s, log⟩ := by
  simp only [settle, Inputs.write_essential, Inputs.reset_essential, Step.bind_apply,
    Step.within_apply, Step.query_apply, takeRouter, takeBanks]
  cases Router.route i.write ⟨s.router, log⟩ with
  | error fault t => rfl
  | ok routed t =>
      cases hdrives : drives routed { s with router := t.state } with
      | error fault => simp only [hdrives]
      | ok drives =>
          cases hcommit : commit drives order ⟨s.banks, t.log⟩ with
          | error fault u => simp only [hdrives, hcommit]
          | ok done u => simp only [hdrives, hcommit, Sequencer.next_essential]

theorem tick_essential (i : Inputs) (s : Store) (log : Array Event) :
    tick (i.essential s.sequencer.running) ⟨s, log⟩ = tick i ⟨s, log⟩ := by
  rw [tick_apply, tick_apply]
  by_cases hi : s.Admits i
  · rw [tickIn_of_admits hi, tickIn_of_admits ((admits_essential _ i s).2 hi),
      pulses_essential, settle_essential]
  · obtain ⟨w, cause, hw, hcheck⟩ := check_of_not_admits hi
    have hw' : (i.essential s.sequencer.running).write = some w :=
      (i.write_essential _).trans hw
    rw [tickIn_of_check hw hcheck, tickIn_of_check hw' hcheck]

end Store

namespace Engine

theorem clock_essential (i : Inputs) (s : Logged Engine) :
    clock (i.essential s.state.store.sequencer.running) s = clock i s := by
  simp only [clock, clockBy, Step.bind_apply, Step.query_apply, Step.emit_apply,
    Step.observe_apply, onStore, Step.within_apply, takeStore]
  cases Checked.add s.state.cycles 1 with
  | error fault => rfl
  | ok cycle =>
      cases haddresses : s.state.store.addresses with
      | error fault => simp only [haddresses]
      | ok addresses =>
          simp only [haddresses, Phase.ofTick_essential, Store.tick_essential]

def essential : List Inputs → Logged Engine → List Inputs
  | [], _ => []
  | i :: is, s =>
      i.essential s.state.store.sequencer.running ::
        essential is (Step.final (clock i s))

@[simp] theorem essential_nil (s : Logged Engine) : essential [] s = [] := rfl

theorem essential_cons (i : Inputs) (is : List Inputs) (s : Logged Engine) :
    essential (i :: is) s =
      i.essential s.state.store.sequencer.running ::
        essential is (Step.final (clock i s)) := rfl

theorem take_essential (is : List Inputs) (n : Nat) (s : Logged Engine) :
    (essential is s).take n = essential (is.take n) s := by
  induction is generalizing n s with
  | nil => rw [essential_nil, List.take_nil, essential_nil]
  | cons i is ih =>
      cases n with
      | zero => rfl
      | succ n =>
          rw [essential_cons, List.take_succ_cons, List.take_succ_cons, essential_cons,
            ih]

theorem getElem?_essential (is : List Inputs) (n : Nat) (s : Logged Engine) :
    (essential is s)[n]? = is[n]?.map fun i =>
      i.essential (Step.after clock (is.take n) s).state.store.sequencer.running := by
  induction is generalizing n s with
  | nil => rfl
  | cons i is ih =>
      cases n with
      | zero => rfl
      | succ n =>
          rw [essential_cons, List.getElem?_cons_succ, List.getElem?_cons_succ,
            List.take_succ_cons, Step.after_cons, ih]

theorem after_essential (is : List Inputs) (s : Logged Engine) :
    Step.after clock (essential is s) s = Step.after clock is s := by
  induction is generalizing s with
  | nil => rfl
  | cons i is ih =>
      rw [essential_cons, Step.after_cons, Step.after_cons, clock_essential, ih]

theorem outcomes_essential (is : List Inputs) (s : Logged Engine) :
    Step.outcomes clock (essential is s) s = Step.outcomes clock is s := by
  induction is generalizing s with
  | nil => rfl
  | cons i is ih =>
      rw [essential_cons, Step.outcomes_cons, Step.outcomes_cons, clock_essential, ih]

/-- Redundant starts can be erased. Wherever an engine stands, clock it with any
inputs, admitted or not, and once more with the start cleared in every cycle that
begins with a running sequencer and in every one that samples a reset. Both runs
return the same records and the same faults, and after every cycle they are in the
same state: banks with their statistics, counters, registers, queue and trace, and
the log behind it. -/
theorem redundant_starts_erasable (is : List Inputs) (s : Logged Engine) :
    let js := essential is s
    (∀ n, js[n]? = is[n]?.map fun i =>
        let before := (Step.after clock (is.take n) s).state.store.sequencer
        if before.running || i.reset then { i with start := false } else i) ∧
      Step.outcomes clock js s = Step.outcomes clock is s ∧
      ∀ n, Step.after clock (js.take n) s = Step.after clock (is.take n) s := by
  intro js
  refine ⟨fun n => getElem?_essential is n s, outcomes_essential is s, fun n => ?_⟩
  rw [take_essential, after_essential]

-- A start that is repeated, one beside a reset, and one that begins a second
-- stream.
example :
    (essential
      [⟨none, true, false⟩, ⟨some ⟨0, 1, 7⟩, true, false⟩, ⟨none, true, true⟩,
        ⟨none, true, false⟩]
      ⟨ofStore (Store.initial ⟨2, 4, .parallel, true⟩), #[]⟩).map Inputs.start =
        [true, false, false, true] := by
  decide +kernel

end Engine

end Wavefront
