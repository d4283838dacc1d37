import Wavefront.Proofs.Engine.Load

/-!
# Streaming a filter

A filter is loaded, the block is started behind it, and it streams for as long as it
is clocked. While the commands of the filter are carried out the block is idle, so
nothing of that is recorded as a stream. From the start on, tick `k` puts on lane
`i` the word at the address `(k - i) mod size` of bank `i`, one lane behind the
other. `Streaming` says so of the first `n` ticks; a tick takes it from `n` to
`n + 1` (`Streaming.next`), and the writes of a filter establish it for `n = 0`
(`streaming_writes`).
-/

namespace Wavefront

def Inputs.starting : Inputs := { Inputs.idle with start := true }

/-- What a stream is clocked with: the start in its first tick, and nothing in the
others. -/
def Inputs.beat (n : Nat) : Inputs := ⟨none, n == 0, false⟩

theorem Trace.streamed_push (lane : Nat) (r : Record) (t : Trace) :
    (t.push r).streamed lane =
      t.streamed lane ++ if r.phase = .idle then [] else r.outputs[lane]?.toList := by
  rw [streamed, streamed, toList_push, List.filter_append, List.filterMap_append]
  congr 1
  by_cases hr : r.phase = .idle
  · simp [hr]
  · cases h : r.outputs[lane]? <;> simp [hr, h]

theorem takeD_append_of_le {α : Type} {xs : List α} {n : Nat} (h : xs.length ≤ n)
    (ys : List α) (a : α) :
    (xs ++ ys).takeD n a = xs ++ ys.takeD (n - xs.length) a := by
  induction xs generalizing n with
  | nil => rfl
  | cons x xs ih =>
      cases n with
      | zero => exact absurd h (by simp)
      | succ n =>
          have hle : xs.length ≤ n := Nat.le_of_succ_le_succ h
          rw [List.cons_append, List.takeD_succ, List.head?_cons, Option.getD_some,
            List.tail_cons, ih hle, List.length_cons, Nat.add_sub_add_right,
            List.cons_append]

theorem Inputs.takeD_starting (n : Nat) :
    [Inputs.starting].takeD n .idle = (List.range n).map Inputs.beat := by
  cases n with
  | zero => rfl
  | succ n =>
      rw [List.takeD_succ, List.range_succ_eq_map, List.map_cons, List.map_map,
        List.tail_cons, List.takeD_nil]
      have hidle : Inputs.beat ∘ Nat.succ = fun _ => Inputs.idle := by
        funext k
        rfl
      rw [hidle, List.map_const', List.length_range]
      rfl

namespace Engine

variable {c : Config} {e : Engine}

/-- The first `n` ticks of a stream over banks that hold `mem` have been carried
out, and they are all that the trace has of streams. -/
structure Streaming (c : Config) (mem : Nat → Nat → Word) (size n : Nat)
    (e : Engine) : Prop where
  wellFormed : e.store.WellFormed c
  size_pos : 0 < size
  size_eq : e.store.size = size
  sequencer_eq : e.store.sequencer = ⟨n % size, decide (0 < n)⟩
  word_eq : ∀ {lane address : Nat}, lane < c.banks → address < size →
    e.store.word lane address = mem lane address
  streamed_eq : ∃ t, e.trace = some t ∧ ∀ lane, t.streamed lane =
    if lane < c.banks then
      (List.range n).map fun k : Nat => mem lane (((k : Int) - lane) % size).toNat
    else []

namespace Streaming

variable {mem : Nat → Nat → Word} {size n : Nat}

theorem sequencer_next (h : e.Streaming c mem size n) :
    (e.next (.beat n)).store.sequencer = ⟨(n + 1) % size, decide (0 < n + 1)⟩ := by
  have hmoving : ((Inputs.beat n).start || e.store.sequencer.running) = true := by
    rw [h.sequencer_eq]
    cases n <;> rfl
  have hsize : e.store.size ≠ 0 := by
    rw [h.size_eq]
    exact Nat.ne_of_gt h.size_pos
  rw [store_next, h.wellFormed.sequencer_next_of_moving rfl hmoving, if_neg hsize,
    h.sequencer_eq, h.size_eq, Nat.mod_add_mod]
  simp

theorem output_next (h : e.Streaming c mem size n) {lane : Nat} (hl : lane < c.banks) :
    (e.next (.beat n)).store.output lane =
      mem lane (((n : Int) - lane) % size).toNat := by
  have hpos : 0 < e.store.size := by
    rw [h.size_eq]
    exact h.size_pos
  have hread := Store.readAddress_of_size_pos hpos lane
  have hlt := Store.readAddress_lt hread
  rw [h.sequencer_eq, h.size_eq, Int.natCast_emod, Int.emod_sub_emod] at hread
  rw [h.sequencer_eq, h.size_eq, Int.natCast_emod, Int.emod_sub_emod] at hlt
  rw [store_next, Store.output_next, hread]
  exact h.word_eq hl hlt

theorem next (h : e.Streaming c mem size n) :
    (e.next (.beat n)).Streaming c mem size (n + 1) := by
  have hwell : (e.next (.beat n)).store.WellFormed c := h.wellFormed.next (.beat n)
  refine ⟨hwell, h.size_pos, h.size_eq, h.sequencer_next, ?_, ?_⟩
  · intro lane address hl ha
    have hadmits : e.store.Admits (.beat n) :=
      fun w hw => absurd hw (by simp [Inputs.beat])
    rw [store_next, Store.word_next h.wellFormed hadmits]
    exact h.word_eq hl ha
  · obtain ⟨t, ht, hstreamed⟩ := h.streamed_eq
    refine ⟨t.push (e.record (.beat n)), by rw [trace_next, ht]; rfl, ?_⟩
    intro lane
    -- Neither the start nor a tick after it counts as idle.
    have hphase : (e.record (.beat n)).phase ≠ .idle := by
      show Phase.ofTick e.store.sequencer.running (.beat n) ≠ .idle
      rw [h.sequencer_eq]
      cases n <;> simp [Phase.ofTick, Inputs.beat]
    have houtputs : (e.record (.beat n)).outputs =
        (List.range c.banks).map
          (e.next (.beat n)).store.output := Store.outputs_eq hwell
    rw [Trace.streamed_push, hstreamed, if_neg hphase, houtputs, List.getElem?_map]
    by_cases hl : lane < c.banks
    · rw [if_pos hl, if_pos hl, List.getElem?_range hl, Option.map_some,
        h.output_next hl, List.range_succ, List.map_append]
      rfl
    · have hnone : (List.range c.banks)[lane]? = none :=
        List.getElem?_eq_none (by simpa using hl)
      rw [if_neg hl, if_neg hl, hnone]
      rfl

theorem follow (h : e.Streaming c mem size 0) (n : Nat) :
    (e.follow ((List.range n).map .beat)).Streaming c mem size n := by
  induction n with
  | zero => exact h
  | succ n ih =>
      rw [List.range_succ, List.map_append, follow_append]
      exact ih.next

end Streaming

/-! ## Before the stream -/

theorem streamed_follow_of_stopped (hr : e.store.sequencer.running = false)
    {is : List Inputs} (his : ∀ i ∈ is, i.start = false ∧ i.reset = false) {t : Trace}
    (ht : e.trace = some t) :
    ∃ t', (e.follow is).trace = some t' ∧
      ∀ lane, t'.streamed lane = t.streamed lane := by
  induction is generalizing e t with
  | nil => exact ⟨t, ht, fun _ => rfl⟩
  | cons i is ih =>
      obtain ⟨⟨hstart, hreset⟩, htail⟩ := List.forall_mem_cons.1 his
      have hnext : (e.next i).store.sequencer.running = false := by
        rw [store_next, Store.sequencer_next,
          Sequencer.advance_of_idle hreset hstart hr]
        exact hr
      have hphase : (e.record i).phase = .idle := by
        show Phase.ofTick e.store.sequencer.running i = .idle
        simp [Phase.ofTick, hr, hstart]
      have htrace : (e.next i).trace = some (t.push (e.record i)) := by
        rw [trace_next, ht]
        rfl
      obtain ⟨t', ht', hstreamed⟩ := ih hnext htail htrace
      refine ⟨t', ht', fun lane => ?_⟩
      rw [hstreamed, Trace.streamed_push, if_pos hphase, List.append_nil]

/-- Once a filter has been written into a stopped block of its size, its stream can
begin. Where the filter has no word, the block still holds what it held before. -/
theorem streaming_writes (h : e.store.WellFormed c)
    (hr : e.store.sequencer.running = false) {words : List Word}
    (hpos : 0 < words.length) (hw : words.length ≤ c.banks * c.depth)
    (hsize : e.store.size = c.layout.rows words.length) {t : Trace}
    (ht : e.trace = some t) (hempty : ∀ lane, t.streamed lane = []) :
    (e.follow (c.layout.writes words)).Streaming c
      (fun lane address => words[address * c.banks + lane]?.getD
        (e.store.word lane address))
      (c.layout.rows words.length) 0 := by
  have hquiet : ∀ i ∈ c.layout.writes words, i.start = false ∧ i.reset = false := by
    intro i hi
    obtain ⟨w, -, data, rfl⟩ := Layout.mem_writes hi
    exact ⟨rfl, rfl⟩
  have hstopped : e.store.sequencer = .stopped := h.within.eq_stopped hr
  refine ⟨?_, Layout.rows_pos h.buildable.banks_pos hpos, ?_, ?_, ?_, ?_⟩
  · rw [store_follow]
    exact h.follow (c.layout.writes words)
  · rw [store_follow, Store.size_follow, hsize]
  · rw [store_follow, Store.sequencer_follow_of_stopped hr hquiet, hstopped,
      Nat.zero_mod]
    rfl
  · intro lane address hl _
    rw [store_follow, Store.word_follow h (admits_writes h hw),
      Layout.lastWrite_writes (l := c.layout) hl]
    rfl
  · obtain ⟨t', ht', hstreamed⟩ := streamed_follow_of_stopped hr hquiet ht
    refine ⟨t', ht', fun lane => ?_⟩
    rw [hstreamed, hempty]
    simp

end Engine

end Wavefront
