import Wavefront.Proofs.Engine.Load
import Wavefront.Proofs.Engine.Queue

/-!
# What the banks hold after a load

A load goes behind whatever is queued, be that writes, pulses or another load.
Draining the queue then carries out all of it in order, so that at an address of a
bank the word of the filter is the last to be written, if the filter has one there.
Where it has none, it is the last write of what was queued before, and where that
has none either, the word is as it was (`peek_follow_loaded`).

The pulses among the inputs start and reset the stream, but they have no part in
what is written. So nothing is assumed of them in `memory_after_load`, which also
says what the load and the drain add to the counters.
-/

namespace Wavefront

namespace Engine

variable {c : Config} {e : Engine} {words : List Word}

/-- When all that was queued has been carried out, the filter lies over what was
written before it, and that over what was there. -/
theorem peek_follow_loaded (h : e.store.WellFormed c)
    (hr : e.store.sequencer.running = false) (hq : ∀ i ∈ e.queue, e.store.Admits i)
    (hw : words.length ≤ c.banks * c.depth) {bank address : Nat} (hb : bank < c.banks)
    (ha : address < c.depth) :
    ((e.loaded c words).store.follow (e.loaded c words).queue).peek bank address =
      (words[address * c.banks + bank]?.or (Store.lastWrite bank address e.queue)).elim
        (e.store.peek bank address) .ok := by
  have hwell := wellFormed_loaded h hr hw
  have hlast : Store.lastWrite bank address (e.loaded c words).queue =
      words[address * c.banks + bank]?.or (Store.lastWrite bank address e.queue) := by
    show Store.lastWrite bank address (e.queue ++ c.layout.writes words) = _
    rw [Store.lastWrite_append, Layout.lastWrite_writes hb]
    rfl
  have hbefore : (e.loaded c words).store.word bank address =
      e.store.word bank address := rfl
  rw [Store.peek_eq (hwell.follow _) hb ha,
    Store.word_follow hwell (admits_loaded h hq hw), hlast, hbefore,
    Store.peek_eq h hb ha]
  cases words[address * c.banks + bank]?.or
    (Store.lastWrite bank address e.queue) <;> rfl

/-- A filter that fits is loaded into a stopped engine behind whatever inputs in
range are queued there, and draining the queue carries out everything. Then every
address of every bank holds the word of the filter that belongs there; where the
filter has none, the last word that was queued for it before; and where there is
none of these either, what it held. The size is the number of rows, and every write
and every cycle is counted. A drain is cut short only by counters that have run out,
for which it takes as many ticks as they can count. -/
theorem memory_after_load {t : Logged Engine} (ht : Reachable c t)
    (hr : t.state.store.sequencer.running = false)
    (hq : ∀ i ∈ t.state.queue, ∀ w, i.write = some w →
      w.bank < c.banks ∧ w.address < c.depth)
    (hc : c.banks * c.depth < Checked.limit) (hw : words.length ≤ c.banks * c.depth) :
    let e := t.state
    let u := Step.final (load words t)
    let f := (Step.final (drain u)).state
    Step.outcome (load words t) = .ok (c.layout.rows words.length) ∧
      (∀ ticks, e.store.CountedBy ticks →
        ticks + (words.length + e.queue.length) < Checked.limit →
        e.cycles + (words.length + e.queue.length) < Checked.limit →
        Step.IsAnswer (Step.outcome (drain u))) ∧
      (Step.IsAnswer (Step.outcome (drain u)) →
        Step.outcome (drain u) = .ok () ∧
        (∀ bank < c.banks, ∀ address < c.depth, f.store.peek bank address =
          (words[address * c.banks + bank]?.or
            (Store.lastWrite bank address e.queue)).elim
            (e.store.peek bank address) .ok) ∧
        f.store.size = c.layout.rows words.length ∧
        f.store.accepted =
          e.store.accepted + words.length + (e.queue.filterMap Inputs.write).length ∧
        f.cycles = e.cycles + words.length + e.queue.length ∧ f.queue = []) := by
  intro e u f
  have hwell : e.store.WellFormed c := ht.wellFormed
  have hadmits : ∀ i ∈ e.queue, e.store.Admits i :=
    fun i hi => (Store.admits_iff hwell i).2 (hq i hi)
  obtain ⟨log, hload⟩ := load_of_stopped hwell hr hc hw t.log
  have hloaded : u = ⟨e.loaded c words, log⟩ := congrArg Step.final hload
  refine ⟨congrArg Step.outcome hload, fun ticks hcount hticks hcycles => ?_,
    fun ha => ?_⟩
  · rw [← pending_loaded c] at hticks hcycles
    rw [hloaded]
    exact isAnswer_drain (wellFormed_loaded hwell hr hw)
      (hcount.resize _) hticks hcycles log
  · rw [hloaded] at ha ⊢
    obtain ⟨houtcome, hdrain⟩ :=
      drain_of_admits (wellFormed_loaded hwell hr hw)
        (admits_loaded hwell hadmits hw) ha
    have hf : f = ((e.loaded c words).follow (e.loaded c words).queue).setQueue [] := by
      show (Step.final (drain u)).state = _
      rw [hloaded, hdrain]
    have hstore : f.store =
        (e.loaded c words).store.follow (e.loaded c words).queue := by
      rw [hf]
      exact store_follow _ _
    refine ⟨houtcome, fun bank hb address ha => ?_, ?_, ?_, ?_, congrArg queue hf⟩
    · rw [hstore]
      exact peek_follow_loaded hwell hr hadmits hw hb ha
    · rw [hstore, Store.size_follow]
      rfl
    · have hwrites : ((e.loaded c words).queue.filterMap Inputs.write).length =
          (e.queue.filterMap Inputs.write).length + words.length := by
        show ((e.queue ++ c.layout.writes words).filterMap Inputs.write).length = _
        rw [List.filterMap_append, List.length_append, Layout.filterMap_writes,
          List.length_mapIdx]
      rw [hstore, Store.accepted_follow, hwrites, Nat.add_comm _ words.length,
        ← Nat.add_assoc]
      rfl
    · rw [hf]
      show ((e.loaded c words).follow (e.loaded c words).queue).cycles = _
      rw [cycles_follow, ← pending, pending_loaded, ← Nat.add_assoc]
      rfl

/-- Three words over two banks are loaded behind a start and two writes. The first
write is overwritten by a word of the filter, the second is not, and neither is a
word that was written before. -/
theorem memory_after_load_behind_start :
    let t := Step.after perform [.clock (.ofWrite ⟨1, 2, 8⟩),
        .enqueue [.ofWrite ⟨0, 0, 6⟩, ⟨some ⟨1, 1, 7⟩, true, false⟩, .idle]]
      ⟨ofStore (Store.initial ⟨2, 4, .parallel, true⟩), #[]⟩
    let f := (Step.final (drain (Step.final (load [10, 11, 12] t)))).state
    f.store.peek 0 0 = .ok 10 ∧ f.store.peek 1 0 = .ok 11 ∧ f.store.peek 0 1 = .ok 12 ∧
      f.store.peek 1 1 = .ok 7 ∧ f.store.peek 1 2 = .ok 8 ∧ f.store.peek 0 3 = .ok 0 ∧
      f.store.size = 2 ∧ f.store.accepted = 6 ∧ f.cycles = 7 := by
  intro t f
  have hreachable : Reachable ⟨2, 4, .parallel, true⟩ t :=
    ⟨⟨Store.initial ⟨2, 4, .parallel, true⟩, #[]⟩, _, #[], ⟨_, [], #[], rfl, rfl⟩, rfl⟩
  have hfits : ([10, 11, 12] : List Word).length ≤ 2 * 4 := by decide
  obtain ⟨-, -, hanswered⟩ :=
    memory_after_load hreachable (by decide +kernel) (by decide +kernel)
      (by decide) hfits
  obtain ⟨-, hpeek, hsize, haccepted, hcycles, -⟩ := hanswered (by decide +kernel)
  refine ⟨(hpeek 0 (by decide) 0 (by decide)).trans ?_,
    (hpeek 1 (by decide) 0 (by decide)).trans ?_,
    (hpeek 0 (by decide) 1 (by decide)).trans ?_,
    (hpeek 1 (by decide) 1 (by decide)).trans ?_,
    (hpeek 1 (by decide) 2 (by decide)).trans ?_,
    (hpeek 0 (by decide) 3 (by decide)).trans ?_,
    hsize.trans ?_, haccepted.trans ?_, hcycles.trans ?_⟩
  all_goals decide +kernel

end Engine

end Wavefront
