import Wavefront.Proofs.Engine.Stream

/-!
# From a filter to its stream

A session loads a filter, starts the block behind it, and clocks it for some time.
On a new engine that keeps a trace it ends in one of two ways. Either all its cycles
can be counted: then the session succeeds, and every lane has carried a word of its
own column in the tick of the start and in every tick since. Or the count of cycles
runs out first: then the lanes have carried their words up to the last cycle that
could be counted (`streamed_after_load`).
-/

namespace Wavefront

namespace Engine

variable {c : Config} {e : Engine}

theorem new_eq_ok_iff {e₀ : Engine} :
    new c = .ok e₀ ↔ c.IsBuildable ∧ e₀ = ofStore (Store.initial c) := by
  constructor
  · intro h
    cases hs : Store.new c with
    | error fault =>
        rw [new, hs, error_bind] at h
        cases h
    | ok s =>
        obtain ⟨hc, rfl⟩ := Store.new_eq_ok_iff.1 hs
        rw [new, hs] at h
        exact ⟨hc, (Except.ok.inj h).symm⟩
  · rintro ⟨hc, rfl⟩
    rw [new, Store.new_eq_ok_iff.2 ⟨hc, rfl⟩, ok_bind]
    rfl

/-- Load a filter, start the block behind it, and clock it `m` times after the
start. -/
def session (words : List Word) (m : Nat) : Step Engine Nat := do
  let size ← load words
  Step.update (enqueue [.starting])
  drain
  run m
  return size

/-- The trace holds `n` ticks of the stream of a filter: in tick `k`, lane `i`
carries the word in column `i` of row `(k - i) mod rows`. Where the last row has no
word, it carries what `rest` holds there. -/
def Carries (c : Config) (words : List Word) (rest : Nat → Nat → Word) (n : Nat)
    (e : Engine) : Prop :=
  ∃ t, e.trace = some t ∧ ∀ lane, t.streamed lane =
    if lane < c.banks then
      (List.range n).map fun k : Nat =>
        let row := (((k : Int) - lane) % (c.layout.rows words.length)).toNat
        words[row * c.banks + lane]?.getD (rest lane row)
    else []

theorem Carries.setQueue {words : List Word} {rest : Nat → Nat → Word} {n : Nat}
    (h : e.Carries c words rest n) (queue : List Inputs) :
    (e.setQueue queue).Carries c words rest n := h

def primed (c : Config) (words : List Word) (e : Engine) : Engine :=
  (e.loaded c words).enqueue [.starting]

variable {words : List Word}

theorem drain_run_apply (m : Nat) (s : Logged Engine) :
    (drain >>= fun _ => run m) s = run (s.state.pending + m) s := by
  rw [run_add, Step.bind_apply, Step.bind_apply, drain_apply]

/-- A session on a stopped block is a run through the commands of the filter, the
start, and the cycles after it. -/
theorem session_apply (h : e.store.WellFormed c)
    (hr : e.store.sequencer.running = false) (hq : e.queue = [])
    (hc : c.banks * c.depth < Checked.limit) (hw : words.length ≤ c.banks * c.depth)
    (m : Nat) (log : Array Event) :
    ∃ log', session words m ⟨e, log⟩ =
      match run (words.length + 1 + m) ⟨e.primed c words, log'⟩ with
      | .ok _ t => .ok (c.layout.rows words.length) t
      | .error fault t => .error fault t := by
  obtain ⟨log', hload⟩ := load_of_stopped h hr hc hw log
  have hpending : (e.primed c words).pending = words.length + 1 := by
    simp [pending, primed, enqueue, loaded, hq]
  have hrun := drain_run_apply m ⟨e.primed c words, log'⟩
  rw [hpending, Step.bind_apply] at hrun
  refine ⟨log', ?_⟩
  rw [session, Step.bind_apply, hload, ← hrun]
  simp only [Step.bind_apply, Step.update_apply, Step.pure_apply, primed]
  cases drain ⟨(e.loaded c words).enqueue [.starting], log'⟩ with
  | error fault t => rfl
  | ok u t => cases hrest : run m t <;> simp only [hrest]

theorem wellFormed_primed (h : e.store.WellFormed c)
    (hr : e.store.sequencer.running = false) (hw : words.length ≤ c.banks * c.depth) :
    (e.primed c words).store.WellFormed c :=
  wellFormed_loaded h hr hw

theorem admits_primed (h : e.store.WellFormed c) (hq : e.queue = [])
    (hw : words.length ≤ c.banks * c.depth) :
    ∀ i ∈ (e.primed c words).queue, (e.primed c words).store.Admits i := by
  have hstart : e.store.Admits .starting :=
    fun w hwrite => absurd hwrite (by simp [Inputs.starting, Inputs.idle])
  show ∀ i ∈ (e.loaded c words).queue ++ [Inputs.starting],
    (e.loaded c words).store.Admits i
  rw [List.forall_mem_append, List.forall_mem_singleton]
  exact ⟨admits_loaded h (by simp [hq]) hw, hstart⟩

theorem carries_primed (h : e.store.WellFormed c)
    (hr : e.store.sequencer.running = false) (hq : e.queue = [])
    (ht : e.trace = some .empty) (hpos : 0 < words.length)
    (hw : words.length ≤ c.banks * c.depth) {n : Nat} (hn : words.length ≤ n) :
    ((e.primed c words).ahead n).Carries c words e.store.word (n - words.length) := by
  have hinputs : (e.primed c words).queue.takeD n .idle =
      c.layout.writes words ++ (List.range (n - words.length)).map .beat := by
    show (e.queue ++ c.layout.writes words ++ [Inputs.starting]).takeD n .idle = _
    rw [← Layout.length_writes c.layout words] at hn
    rw [hq, List.nil_append, takeD_append_of_le hn, Inputs.takeD_starting,
      Layout.length_writes]
  have hstream := (streaming_writes (wellFormed_primed h hr hw) hr hpos hw rfl ht
    fun _ => rfl).follow (n - words.length)
  obtain ⟨t, ht', hstreamed⟩ := hstream.streamed_eq
  rw [← follow_append, ← hinputs] at ht'
  exact ⟨t, ht', hstreamed⟩

/-- On a new engine that keeps a trace, every filter that fits is streamed as it was
laid out, for as long as the cycles can be counted; the load returns the number of
rows. -/
theorem streamed_after_load {e₀ : Engine} (h : new c = .ok e₀) (ht : c.traced = true)
    (hc : c.banks * c.depth < Checked.limit) (hpos : 0 < words.length)
    (hw : words.length ≤ c.banks * c.depth) (m : Nat) (log : Array Event) :
    (words.length + 1 + m < Checked.limit →
      ∃ e log', session words m ⟨e₀, log⟩ = .ok (c.layout.rows words.length) ⟨e, log'⟩ ∧
        e.Carries c words (fun _ _ => 0) (m + 1)) ∧
    (Checked.limit ≤ words.length + 1 + m →
      ∃ e log', session words m ⟨e₀, log⟩ = .error (.overflow .add) ⟨e, log'⟩ ∧
        e.Carries c words (fun _ _ => 0) (Checked.limit - 1 - words.length)) := by
  obtain ⟨hbuildable, rfl⟩ := new_eq_ok_iff.1 h
  have hinitial := Store.wellFormed_initial hbuildable
  have hwell := wellFormed_primed (e := ofStore (Store.initial c)) hinitial rfl hw
  have hadmits := admits_primed (e := ofStore (Store.initial c)) hinitial rfl hw
  have hcycles : ((ofStore (Store.initial c)).primed c words).cycles = 0 := rfl
  have hcount : ((ofStore (Store.initial c)).primed c words).store.CountedBy 0 :=
    ⟨(Store.CountedBy.initial c).router_le, (Store.CountedBy.initial c).banks⟩
  have hzero : (Store.initial c).word = fun _ _ => 0 := by
    funext lane address
    exact Store.word_initial c lane address
  have hcarries : ∀ {n : Nat}, words.length ≤ n →
      (((ofStore (Store.initial c)).primed c words).ahead n).Carries c words
        (fun _ _ => 0)
        (n - words.length) := by
    intro n hn
    rw [← hzero]
    exact carries_primed (e := ofStore (Store.initial c)) hinitial rfl rfl
      (if_pos ht) hpos hw hn
  obtain ⟨log', hsession⟩ :=
    session_apply (e := ofStore (Store.initial c)) hinitial rfl rfl hc hw m log
  have hfits : words.length < Checked.limit := Nat.lt_of_le_of_lt hw hc
  constructor
  · intro hlt
    obtain ⟨log'', hrun⟩ :=
      run_of_lt hwell hadmits (n := words.length + 1 + m) hcount (by omega)
      (by omega) log'
    have hticks : words.length + 1 + m - words.length = m + 1 := by omega
    rw [hrun] at hsession
    exact ⟨_, log'', hsession, hticks ▸ hcarries (by omega)⟩
  · intro hle
    obtain ⟨queue, log'', hrun⟩ :=
      run_of_le hwell hadmits (n := words.length + 1 + m) hcount
      (by omega) (by omega) log'
    rw [hrun, hcycles, Nat.sub_zero] at hsession
    -- The cycle that cannot be counted leaves no record: the stream is what came
    -- before it.
    have hdone := hcarries (n := Checked.limit - 1) (by omega)
    exact ⟨_, log'', hsession, hdone.setQueue queue⟩

/-- Three words over two banks: the second lane finds no word in the second row. -/
theorem streamed_ragged_filter :
    ∃ e log', session [10, 11, 12] 3
      ⟨ofStore (Store.initial ⟨2, 4, .sequential, true⟩), #[]⟩ =
        .ok 2 ⟨e, log'⟩ ∧
      ∃ t, e.trace = some t ∧ t.streamed 0 = [10, 12, 10, 12] ∧
        t.streamed 1 = [0, 11, 0, 11] ∧ t.streamed 2 = [] := by
  have hnew : new ⟨2, 4, .sequential, true⟩ =
      .ok (ofStore (Store.initial ⟨2, 4, .sequential, true⟩)) := rfl
  have hpos : 0 < ([10, 11, 12] : List Word).length := by decide
  obtain ⟨hok, -⟩ := streamed_after_load hnew rfl (by decide) hpos (by decide) 3 #[]
  obtain ⟨e, log', hsession, t, ht, hstreamed⟩ := hok (by decide)
  exact ⟨e, log', hsession, t, ht, (hstreamed 0).trans (by decide),
    (hstreamed 1).trans (by decide), (hstreamed 2).trans (by decide)⟩

end Engine

end Wavefront
