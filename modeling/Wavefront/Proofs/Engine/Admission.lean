import Wavefront.Proofs.Engine.History
import Wavefront.Proofs.Engine.Load

/-!
# A load as a whole

A load is carried out or refused, and there are two reasons to refuse it: the filter
has more words than the banks hold, or the block is running (`load_outcome`). The
planner, the size register and the ticks that are to come each make a check of their
own, and these agree. Since a filter that fits has no more rows than the banks, its
size is not refused for being too large, and since its commands name words of these
rows, none of them is ever refused.

Whether the block admits a command is a matter of its geometry, and that is kept by
whatever the engine does. So an engine that has been loaded takes every command of
the filter, also after other requests (`load_atomic`).
-/

namespace Wavefront

namespace Engine

variable {c : Config} {e : Engine} {t : Logged Engine} {i : Inputs} {words : List Word}

/-- The three ways in which a load ends. -/
theorem load_outcome (h : e.store.WellFormed c) (hc : c.banks * c.depth < Checked.limit)
    (words : List Word) (log : Array Event) :
    (c.banks * c.depth < words.length ∧ load words ⟨e, log⟩ =
        .error (.rejected (.filterTooLarge words.length (c.banks * c.depth)))
          ⟨e, log⟩) ∨
      (words.length ≤ c.banks * c.depth ∧ e.store.sequencer.running = true ∧
        load words ⟨e, log⟩ = .error (.rejected .sizeChangeWhileRunning) ⟨e, log⟩) ∨
      words.length ≤ c.banks * c.depth ∧ e.store.sequencer.running = false ∧
        ∃ log', load words ⟨e, log⟩ =
          .ok (c.layout.rows words.length) ⟨e.loaded c words, log'⟩ := by
  rcases Nat.lt_or_ge (c.banks * c.depth) words.length with hlt | hle
  · exact .inl ⟨hlt, load_of_lt h hc hlt log⟩
  · cases hr : e.store.sequencer.running with
    | true => exact .inr (.inl ⟨hle, rfl, load_of_running h hr hc hle log⟩)
    | false => exact .inr (.inr ⟨hle, rfl, load_of_stopped h hr hc hle log⟩)

/-- The engine takes the inputs: its block does not refuse them, and neither is a
cycle rejected that finds them at the head of the queue. Both are carried out as
long as the counters have room. -/
structure Takes (i : Inputs) (t : Logged Engine) : Prop where
  tick_ne : ∀ log cause,
    Step.outcome (Store.tick i ⟨t.state.store, log⟩) ≠ .error (.rejected cause)
  tick_eq : t.state.store.HasRoom →
    ∀ log, Step.outcome (Store.tick i ⟨t.state.store, log⟩) = .ok ()
  cycle_ne : t.state.queue.head? = some i →
    ∀ cause, Step.outcome (clockNext t) ≠ .error (.rejected cause)
  cycle_eq : t.state.queue.head? = some i → t.state.store.HasRoom →
    t.state.cycles + 1 < Checked.limit →
      Step.outcome (clockNext t) = .ok (t.state.record i)

theorem takes_of_admits (h : t.state.store.WellFormed c) (hi : t.state.store.Admits i) :
    Takes i t := by
  obtain ⟨e, log⟩ := t
  have hhead : e.queue.head? = some i →
      clockNext ⟨e, log⟩ = clock i ⟨e.setQueue e.queue.tail, log⟩ := by
    intro hqueue
    rw [clockNext_apply, List.headD_eq_head?_getD, hqueue]
    rfl
  refine ⟨fun log' cause => ?_, fun hroom log' => ?_, fun hqueue cause => ?_,
    fun hqueue hroom hcycles => ?_⟩
  · rcases Store.tick_outcome h hi log' with hok | ⟨-, _, _, _, herr, -⟩
    · simp [hok]
    · simp [herr]
  · rw [Store.tick_of_hasRoom h hi hroom log']
    rfl
  · rw [hhead hqueue]
    rcases clock_outcome (e := e.setQueue e.queue.tail) h i log with
      ⟨-, _, hok⟩ | ⟨hrefused, -⟩ | ⟨-, _, _, herr, -, -⟩
    · simp [hok]
    · exact absurd hi hrefused
    · simp [herr]
  · rw [hhead hqueue,
      clock_of_admits (e := e.setQueue e.queue.tail) h hi hroom hcycles log]
    rfl

theorem takes_writes (h : t.state.store.WellFormed c)
    (hw : words.length ≤ c.banks * c.depth) (hi : i ∈ c.layout.writes words) :
    Takes i t :=
  takes_of_admits h (admits_writes h hw i hi)

/-- A load ends in one of three ways, and which of them it is depends on nothing but
the number of words, the geometry and whether the block is running. A load that is
refused has changed nothing. One that is carried out has set the size and put its
writes behind the queue, one for each word. Whatever is asked of the engine from
then on, it takes every one of them, so that none can get a cycle rejected. -/
theorem load_atomic (ht : Reachable c t) (hc : c.banks * c.depth < Checked.limit)
    (words : List Word) :
    let outcome := Step.outcome (load words t)
    let f := Step.final (load words t)
    let writes := c.layout.writes words
    (outcome = .error (.rejected (.filterTooLarge words.length (c.banks * c.depth))) ↔
        c.banks * c.depth < words.length) ∧
      (outcome = .error (.rejected .sizeChangeWhileRunning) ↔
        words.length ≤ c.banks * c.depth ∧ t.state.store.sequencer.running = true) ∧
      (outcome = .ok (c.layout.rows words.length) ↔
        words.length ≤ c.banks * c.depth ∧ t.state.store.sequencer.running = false) ∧
      (∀ flaw, outcome ≠ .error (.rejected (.invalidConfig flaw))) ∧
      (∀ size depth, outcome ≠ .error (.rejected (.sizeExceedsDepth size depth))) ∧
      (outcome.isOk = false → f = t) ∧
      (outcome.isOk = true →
        f.state = { t.state with
          store := { t.state.store with size := c.layout.rows words.length }
          queue := t.state.queue ++ writes } ∧
        writes.length = words.length ∧ (∀ i ∈ writes, ∃ w, i = .ofWrite w) ∧
        ∀ rs, ∀ i ∈ writes, Takes i (Step.after perform rs f)) := by
  intro outcome f writes
  obtain ⟨e, log⟩ := t
  have hwell : e.store.WellFormed c := ht.wellFormed
  rcases load_outcome hwell hc words log with
    ⟨hlt, herr⟩ | ⟨hle, hr, herr⟩ | ⟨hle, hr, log', hok⟩
  · have houtcome : outcome = _ := congrArg Step.outcome herr
    have hfinal : f = ⟨e, log⟩ := congrArg Step.final herr
    simp [houtcome, hfinal, hlt, Nat.not_le.2 hlt]
  · have houtcome : outcome = _ := congrArg Step.outcome herr
    have hfinal : f = ⟨e, log⟩ := congrArg Step.final herr
    simp [houtcome, hfinal, hle, hr]
  · have houtcome : outcome = _ := congrArg Step.outcome hok
    have hfinal : f = ⟨e.loaded c words, log'⟩ := congrArg Step.final hok
    refine ⟨by simp [houtcome, hle], by simp [houtcome, hr],
      by simp [houtcome, hle, hr],
      by simp [houtcome], by simp [houtcome], fun hfailed => ?_, fun _ => ?_⟩
    · exact absurd hfailed (by simp [houtcome])
    · have hloaded := wellFormed_loaded hwell hr hle
      rw [hfinal]
      refine ⟨rfl, c.layout.length_writes words, fun i hi => ?_, fun rs i hi => ?_⟩
      · obtain ⟨w, -, data, rfl⟩ := Layout.mem_writes hi
        exact ⟨_, rfl⟩
      · exact takes_writes (counts_after hloaded rs log').wellFormed hle hi

/-- Two banks of four words. A filter that fills them is loaded behind a start. Once
the block is running, it is refused; one of one word more is refused for its
length. -/
theorem full_load_behind_start :
    let t := Step.after perform [.enqueue [⟨none, true, false⟩]]
      ⟨ofStore (Store.initial ⟨2, 4, .parallel, true⟩), #[]⟩
    let t' := Step.after perform [.load [1, 2, 3], .clockNext] t
    (Step.outcome (load [1, 2, 3, 4, 5, 6, 7, 8] t) = .ok 4 ∧
      (Step.final (load [1, 2, 3, 4, 5, 6, 7, 8] t)).state.pending = 9) ∧
      Step.outcome (load [1, 2, 3, 4, 5, 6, 7, 8] t') =
        .error (.rejected .sizeChangeWhileRunning) ∧
      Step.outcome (load [1, 2, 3, 4, 5, 6, 7, 8, 9] t') =
        .error (.rejected (.filterTooLarge 9 8)) := by
  intro t t'
  have hreachable : ∀ rs, Reachable ⟨2, 4, .parallel, true⟩ (Step.after perform rs
      ⟨ofStore (Store.initial ⟨2, 4, .parallel, true⟩), #[]⟩) := fun rs =>
    ⟨⟨Store.initial ⟨2, 4, .parallel, true⟩, #[]⟩, rs, #[], ⟨_, [], #[], rfl, rfl⟩, rfl⟩
  obtain ⟨-, -, hok, -, -, -, hchange⟩ :=
    load_atomic (hreachable [.enqueue [⟨none, true, false⟩]])
    (by decide) [1, 2, 3, 4, 5, 6, 7, 8]
  obtain ⟨-, hrunning, -⟩ := load_atomic (hreachable [.enqueue [⟨none, true, false⟩],
    .load [1, 2, 3], .clockNext]) (by decide) [1, 2, 3, 4, 5, 6, 7, 8]
  obtain ⟨hlarge, -⟩ := load_atomic (hreachable [.enqueue [⟨none, true, false⟩],
    .load [1, 2, 3], .clockNext]) (by decide) [1, 2, 3, 4, 5, 6, 7, 8, 9]
  have hstopped := hok.2 ⟨by decide, by decide⟩
  obtain ⟨hstate, -⟩ := hchange (congrArg Except.isOk hstopped)
  refine ⟨⟨hstopped, ?_⟩, hrunning.2 ⟨by decide, by decide +kernel⟩,
    hlarge.2 (by decide)⟩
  exact (congrArg pending hstate).trans (by decide)

end Engine

end Wavefront
