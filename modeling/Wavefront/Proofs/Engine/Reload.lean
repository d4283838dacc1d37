import Wavefront.Proofs.Engine.Queue
import Wavefront.Proofs.Engine.Session

/-!
# Loading over what was loaded before

An engine that has come to rest can be loaded again. The words of the new filter
overwrite what stood in their places, but in the last row there may be places
without a word, and these still hold what they held. So what a session streams is
the filter and, in those places, the past (`AtRest.session_of_isAnswer`).

When the filter fills its rows, there are no such places and all engines at rest
stream it alike (`Carries.streamed_eq_of_dvd`). When it does not, the place behind
its last word is one, and every lane goes through all its rows in as many ticks
(`rowIn_of_lt`): the word there is streamed soon after the start, and it tells an
engine that was loaded before from one that is new (`part_of_not_dvd`). Together
this is `reload_hygiene`.
-/

namespace Wavefront

namespace Engine

variable {c c' : Config} {e f : Engine} {words : List Word}

/-- An engine of this geometry at rest: the block is stopped, nothing is queued, and
the trace was handed over. It may have been used for anything before. -/
structure AtRest (l : Layout) (t : Logged Engine) : Prop where
  reachable : ∃ c : Config, c.layout = l ∧ Reachable c t
  stopped : t.state.store.sequencer.running = false
  queue_eq : t.state.queue = []
  trace_eq : t.state.trace = some .empty

/-- What a session leaves of its stream on a lane. -/
def streams (words : List Word) (m : Nat) (t : Logged Engine) (lane : Nat) :
    Option (List Word) :=
  (Step.final (session words m t)).state.trace.map (Trace.streamed lane)

/-- Every session with these words streams the same, whatever engine at rest it
begins with. -/
def StreamsAlike (l : Layout) (words : List Word) : Prop :=
  ∀ t t', AtRest l t → AtRest l t' → ∀ m,
    Step.IsAnswer (Step.outcome (session words m t)) →
    Step.IsAnswer (Step.outcome (session words m t')) →
    ∀ lane, streams words m t lane = streams words m t' lane

/-! ## The session -/

/-- The stream is a matter of the geometry, and not of the modes of the block. -/
theorem Carries.of_layout_eq (h : c'.layout = c.layout) {rest : Nat → Nat → Word}
    {n : Nat} (hcarries : e.Carries c' words rest n) : e.Carries c words rest n := by
  have hbanks : c'.banks = c.banks := congrArg Layout.banks h
  rwa [Carries, h, hbanks] at hcarries

theorem session_outcome (h : e.store.WellFormed c)
    (hr : e.store.sequencer.running = false) (hq : e.queue = [])
    (hc : c.banks * c.depth < Checked.limit) (hw : words.length ≤ c.banks * c.depth)
    (m : Nat) (log : Array Event) :
    ∃ log', Step.outcome (session words m ⟨e, log⟩) =
        (Step.outcome (run (words.length + 1 + m) ⟨e.primed c words, log'⟩)).map
          (fun _ => c.layout.rows words.length) ∧
      Step.final (session words m ⟨e, log⟩) =
        Step.final (run (words.length + 1 + m) ⟨e.primed c words, log'⟩) := by
  obtain ⟨log', hsession⟩ := session_apply h hr hq hc hw m log
  refine ⟨log', ?_⟩
  rw [hsession]
  cases run (words.length + 1 + m) ⟨e.primed c words, log'⟩ with
  | ok u t => exact ⟨rfl, rfl⟩
  | error fault t => exact ⟨rfl, rfl⟩

/-- A session that is answered has streamed the filter and, where that has no word,
what the block held. -/
theorem session_of_isAnswer (h : e.store.WellFormed c)
    (hr : e.store.sequencer.running = false) (hq : e.queue = [])
    (ht : e.trace = some .empty) (hc : c.banks * c.depth < Checked.limit)
    (hpos : 0 < words.length) (hw : words.length ≤ c.banks * c.depth) {m : Nat}
    {log : Array Event} (ha : Step.IsAnswer (Step.outcome (session words m ⟨e, log⟩))) :
    Step.outcome (session words m ⟨e, log⟩) = .ok (c.layout.rows words.length) ∧
      (Step.final (session words m ⟨e, log⟩)).state.Carries c words e.store.word
        (m + 1) := by
  obtain ⟨log', houtcome, hfinal⟩ := session_outcome h hr hq hc hw m log
  rw [houtcome, Step.isAnswer_map_iff] at ha
  obtain ⟨hok, hend⟩ :=
    run_of_admits (wellFormed_primed h hr hw) (admits_primed h hq hw) ha
  have hcarries :=
    carries_primed h hr hq ht hpos hw (n := words.length + 1 + m) (by omega)
  have hticks : words.length + 1 + m - words.length = m + 1 := by omega
  rw [houtcome, hfinal, hok, hend]
  exact ⟨rfl, hticks ▸ hcarries⟩

theorem isAnswer_session (h : e.store.WellFormed c)
    (hr : e.store.sequencer.running = false) (hq : e.queue = [])
    (hc : c.banks * c.depth < Checked.limit) (hw : words.length ≤ c.banks * c.depth)
    {m ticks : Nat} (hcount : e.store.CountedBy ticks)
    (hticks : ticks + (words.length + 1 + m) < Checked.limit)
    (hcycles : e.cycles + (words.length + 1 + m) < Checked.limit) (log : Array Event) :
    Step.IsAnswer (Step.outcome (session words m ⟨e, log⟩)) := by
  obtain ⟨log', houtcome, -⟩ := session_outcome h hr hq hc hw m log
  rw [houtcome, Step.isAnswer_map_iff]
  exact isAnswer_run (wellFormed_primed h hr hw) (hcount.resize _) hticks hcycles log'

theorem AtRest.exists_config {t : Logged Engine} (h : AtRest c.layout t) :
    ∃ c' : Config, c'.layout = c.layout ∧ c'.banks = c.banks ∧ c'.depth = c.depth ∧
      t.state.store.WellFormed c' := by
  obtain ⟨c', hlayout, hreachable⟩ := h.reachable
  exact ⟨c', hlayout, congrArg Layout.banks hlayout, congrArg Layout.depth hlayout,
    hreachable.wellFormed⟩

theorem AtRest.session_of_isAnswer {t : Logged Engine} (h : AtRest c.layout t)
    (hc : c.banks * c.depth < Checked.limit) (hpos : 0 < words.length)
    (hw : words.length ≤ c.banks * c.depth) {m : Nat}
    (ha : Step.IsAnswer (Step.outcome (session words m t))) :
    Step.outcome (session words m t) = .ok (c.layout.rows words.length) ∧
      (Step.final (session words m t)).state.Carries c words t.state.store.word
        (m + 1) := by
  obtain ⟨c', hlayout, hbanks, hdepth, hwell⟩ := h.exists_config
  rw [← hbanks, ← hdepth] at hc hw
  obtain ⟨hok, hcarries⟩ :=
    Engine.session_of_isAnswer (e := t.state) hwell h.stopped h.queue_eq
    h.trace_eq hc hpos hw ha
  rw [hlayout] at hok
  exact ⟨hok, hcarries.of_layout_eq hlayout⟩

theorem AtRest.isAnswer_session {t : Logged Engine} (h : AtRest c.layout t)
    (hc : c.banks * c.depth < Checked.limit) (hw : words.length ≤ c.banks * c.depth)
    {m ticks : Nat} (hcount : t.state.store.CountedBy ticks)
    (hticks : ticks + (words.length + 1 + m) < Checked.limit)
    (hcycles : t.state.cycles + (words.length + 1 + m) < Checked.limit) :
    Step.IsAnswer (Step.outcome (session words m t)) := by
  obtain ⟨c', -, hbanks, hdepth, hwell⟩ := h.exists_config
  rw [← hbanks, ← hdepth] at hc hw
  exact Engine.isAnswer_session
    (e := t.state) hwell h.stopped h.queue_eq hc hw hcount hticks
    hcycles
    t.log

/-! ## Full and ragged filters -/

def rowIn (rows lane k : Nat) : Nat := (((k : Int) - lane) % rows).toNat

theorem rowIn_lt {rows : Nat} (hr : 0 < rows) (lane k : Nat) :
    rowIn rows lane k < rows := by
  have hlt := Int.emod_lt_of_pos ((k : Int) - lane) (Int.natCast_pos.2 hr)
  have hnonneg :=
    Int.emod_nonneg ((k : Int) - lane) (Int.natCast_ne_zero.2 (Nat.ne_of_gt hr))
  rw [rowIn]
  omega

theorem rowIn_of_lt {rows row : Nat} (hr : row < rows) (lane : Nat) :
    rowIn rows lane ((row + lane) % rows) = row := by
  have hdiff : ((((row + lane) % rows : Nat) : Int) - lane) % rows = row := by
    rw [Int.natCast_emod, Int.emod_sub_emod, Int.natCast_add, Int.add_sub_cancel]
    exact Int.emod_eq_of_lt (Int.natCast_nonneg row) (Int.ofNat_lt.2 hr)
  rw [rowIn, hdiff, Int.toNat_natCast]

theorem Carries.getElem?_streamed {rest : Nat → Nat → Word} {n : Nat}
    (h : e.Carries c words rest n) {lane : Nat} (hl : lane < c.banks) {k : Nat}
    (hk : k < n) :
    (e.trace.map (Trace.streamed lane)).bind (·[k]?) =
      some (words[rowIn (c.layout.rows words.length) lane k * c.banks + lane]?.getD
        (rest lane (rowIn (c.layout.rows words.length) lane k))) := by
  obtain ⟨t, ht, hstreamed⟩ := h
  rw [ht, Option.map_some, Option.bind_some, hstreamed, if_pos hl, List.getElem?_map,
    List.getElem?_range hk]
  rfl

/-- A filter that fills its rows leaves no place for the past. -/
theorem Carries.streamed_eq_of_dvd {rest rest' : Nat → Nat → Word} {n : Nat}
    (h : e.Carries c words rest n) (h' : f.Carries c words rest' n)
    (hd : c.banks ∣ words.length) (hpos : 0 < words.length) (lane : Nat) :
    e.trace.map (Trace.streamed lane) = f.trace.map (Trace.streamed lane) := by
  obtain ⟨t, ht, hstreamed⟩ := h
  obtain ⟨t', ht', hstreamed'⟩ := h'
  rw [ht, ht', Option.map_some, Option.map_some, hstreamed, hstreamed']
  by_cases hl : lane < c.banks
  · have hb : 0 < c.layout.banks := Nat.lt_of_le_of_lt (Nat.zero_le lane) hl
    simp only [if_pos hl, Option.some.injEq]
    refine List.map_congr_left fun k _ => ?_
    have hrow := (Layout.lt_rows_iff hb).1 (rowIn_lt (Layout.rows_pos hb hpos) lane k)
    -- The words before this row are whole rows, and so are those from it on.
    have hword : rowIn (c.layout.rows words.length) lane k * c.banks + lane <
        words.length := by
      obtain ⟨q, hq⟩ := hd
      rw [hq] at hrow ⊢
      have hlt : rowIn (c.layout.rows (c.banks * q)) lane k < q :=
        Nat.lt_of_mul_lt_mul_left hrow
      calc _ < rowIn (c.layout.rows (c.banks * q)) lane k * c.banks + c.banks :=
              Nat.add_lt_add_left hl _
        _ = (rowIn (c.layout.rows (c.banks * q)) lane k + 1) * c.banks :=
              (Nat.succ_mul _ _).symm
        _ ≤ q * c.banks := Nat.mul_le_mul_right _ hlt
        _ = c.banks * q := Nat.mul_comm _ _
    show words[rowIn (c.layout.rows words.length) lane k * c.banks + lane]?.getD _ =
      words[rowIn (c.layout.rows words.length) lane k * c.banks + lane]?.getD _
    rw [List.getElem?_eq_getElem hword, Option.getD_some, Option.getD_some]
  · rw [if_neg hl, if_neg hl]

/-- A filter that does not fill its rows ends before the last of them does: the
place behind its last word lies in one of its rows. -/
theorem exists_place_of_not_dvd (hb : 0 < c.banks) (hd : ¬ c.banks ∣ words.length) :
    ∃ lane < c.banks, ∃ row, row * c.banks + lane = words.length ∧
      row < c.layout.rows words.length := by
  refine ⟨words.length % c.banks, Nat.mod_lt _ hb, words.length / c.banks,
    Nat.div_add_mod' _ _, ?_⟩
  rw [Layout.lt_rows_iff hb]
  exact Nat.lt_of_le_of_ne (Nat.mul_div_le _ _) fun h => hd ⟨_, h.symm⟩

/-- In the place behind the last word the lane carries what the block held there,
before the rows have been gone through once. -/
theorem Carries.streams_rest {rest : Nat → Nat → Word} {n : Nat}
    (h : e.Carries c words rest n) {lane row : Nat} (hl : lane < c.banks)
    (hplace : row * c.banks + lane = words.length)
    (hr : row < c.layout.rows words.length)
    (hn : (row + lane) % c.layout.rows words.length < n) :
    (e.trace.map (Trace.streamed lane)).bind
      (·[(row + lane) % c.layout.rows words.length]?) =
      some (rest lane row) := by
  rw [h.getElem?_streamed hl hn, rowIn_of_lt hr, hplace,
    List.getElem?_eq_none (Nat.le_refl _)]
  rfl

/-! ## An engine with a past -/

/-- The requests that leave an engine at rest with a filter in its banks. -/
def refilling (words : List Word) : List Request :=
  [.load words, .drain, .handOverTrace]

theorem after_refilling (h : e.store.WellFormed c)
    (hr : e.store.sequencer.running = false) (hq : e.queue = [])
    (hc : c.banks * c.depth < Checked.limit) (hw : words.length ≤ c.banks * c.depth)
    {ticks : Nat} (hcount : e.store.CountedBy ticks)
    (hticks : ticks + words.length < Checked.limit)
    (hcycles : e.cycles + words.length < Checked.limit) (log : Array Event) :
    ∃ f log', Step.after perform (refilling words) ⟨e, log⟩ = ⟨f, log'⟩ ∧
      f.store = (e.loaded c words).store.follow (c.layout.writes words) ∧
      f.cycles = e.cycles + words.length ∧ f.queue = [] ∧
        f.trace = e.trace.map fun _ => .empty := by
  obtain ⟨log', hload⟩ := load_of_stopped h hr hc hw log
  have hloaded : Step.final (perform (.load words) ⟨e, log⟩) =
      ⟨e.loaded c words, log'⟩ := by
    show Step.final ((load words >>= fun size => pure (Reply.size size)) ⟨e, log⟩) = _
    rw [Step.final_bind_pure, hload]
    rfl
  have hqueue : (e.loaded c words).queue = c.layout.writes words := by
    show e.queue ++ c.layout.writes words = _
    rw [hq, List.nil_append]
  have hpending : (e.loaded c words).pending = words.length := by
    rw [pending_loaded, hq, List.length_nil, Nat.add_zero]
  have hwell := wellFormed_loaded h hr hw
  have hadmits := admits_loaded h (by simp [hq]) hw
  have hanswer :=
    isAnswer_drain hwell (hcount.resize _) (hpending ▸ hticks) (hpending ▸ hcycles) log'
  have hdrain := (drain_of_admits hwell hadmits hanswer).2
  rw [hqueue] at hdrain
  obtain ⟨log'', hend⟩ : ∃ log'', Step.final (drain ⟨e.loaded c words, log'⟩) =
      ⟨((e.loaded c words).follow (c.layout.writes words)).setQueue [], log''⟩ :=
    ⟨_, congrArg (Logged.mk · _) hdrain⟩
  have htrace := congrArg (Option.map fun _ => Trace.empty)
    (trace_follow (c.layout.writes words) (e.loaded c words))
  rw [Option.map_map, Option.map_map] at htrace
  rw [refilling, Step.after_cons, hloaded, Step.after_cons, final_perform_drain, hend]
  refine ⟨_, log'', rfl, store_follow _ _, ?_, rfl, htrace⟩
  show ((e.loaded c words).follow (c.layout.writes words)).cycles = _
  rw [cycles_follow, Layout.length_writes]
  rfl

theorem reachable_new {e₀ : Engine} (h : new c = .ok e₀) (rs : List Request)
    (log : Array Event) :
    Reachable c (Step.after perform rs ⟨e₀, log⟩) := by
  obtain ⟨hbuildable, rfl⟩ := new_eq_ok_iff.1 h
  exact ⟨⟨Store.initial c, #[]⟩, rs, log,
    ⟨_, [], #[], Store.new_eq_ok_iff.2 ⟨hbuildable, rfl⟩, rfl⟩, rfl⟩

theorem atRest_new {e₀ : Engine} (h : new c = .ok e₀) (ht : c.traced = true)
    (log : Array Event) :
    AtRest c.layout ⟨e₀, log⟩ := by
  have hreachable := reachable_new h [] log
  obtain ⟨-, rfl⟩ := new_eq_ok_iff.1 h
  exact ⟨⟨c, rfl, hreachable⟩, rfl, rfl, if_pos ht⟩

theorem refilled_new {e₀ : Engine} (h : new c = .ok e₀) (ht : c.traced = true)
    (hc : c.banks * c.depth < Checked.limit) (hw : words.length ≤ c.banks * c.depth)
    (log : Array Event) :
    ∃ t, t = Step.after perform (refilling words) ⟨e₀, log⟩ ∧ AtRest c.layout t ∧
      t.state.cycles = words.length ∧ t.state.store.CountedBy words.length ∧
      ∀ lane < c.banks, ∀ address,
        t.state.store.word lane address = words[address * c.banks + lane]?.getD 0 := by
  have hreachable := reachable_new h (refilling words) log
  obtain ⟨hbuildable, rfl⟩ := new_eq_ok_iff.1 h
  have hinitial := Store.wellFormed_initial hbuildable
  have hfits : 0 + words.length < Checked.limit := by omega
  obtain ⟨f, log', hafter, hstore, hcycles, hqueue, htrace⟩ :=
    after_refilling (e := ofStore (Store.initial c)) hinitial rfl rfl hc hw
      (Store.CountedBy.initial c) hfits hfits log
  have hwell : ((ofStore (Store.initial c)).loaded c words).store.WellFormed c :=
    wellFormed_loaded hinitial rfl hw
  have hcount : ((ofStore (Store.initial c)).loaded c words).store.CountedBy 0 :=
    (Store.CountedBy.initial c).resize _
  have hrest : (ofStore (Store.initial c)).trace = some .empty := if_pos ht
  refine ⟨_, rfl, ⟨⟨c, rfl, hreachable⟩, ?_, ?_, ?_⟩, ?_, ?_, ?_⟩
  all_goals rw [hafter]
  · show f.store.sequencer.running = false
    rw [hstore, Store.sequencer_follow_of_stopped rfl]
    · rfl
    · intro i hi
      obtain ⟨w, -, data, rfl⟩ := Layout.mem_writes hi
      exact ⟨rfl, rfl⟩
  · exact hqueue
  · show f.trace = _
    rw [htrace, hrest]
    rfl
  · show f.cycles = _
    rw [hcycles]
    exact Nat.zero_add _
  · show f.store.CountedBy _
    have hfollow := hcount.follow (c.layout.writes words)
    rwa [Layout.length_writes, Nat.zero_add, ← hstore] at hfollow
  · intro lane hl address
    have hzero : ((ofStore (Store.initial c)).loaded c words).store.word lane address =
        0 :=
      Store.word_initial c lane address
    show f.store.word lane address = _
    rw [hstore, Store.word_follow hwell (admits_writes hwell hw),
      Layout.lastWrite_writes hl, hzero]
    rfl

/-- Two sessions that are both answered, but carry different words on a lane in a
tick. -/
structure Part (words : List Word) (m : Nat) (t t' : Logged Engine)
    (lane k : Nat) : Prop where
  isAnswer : Step.IsAnswer (Step.outcome (session words m t))
  isAnswer' : Step.IsAnswer (Step.outcome (session words m t'))
  ne : (streams words m t lane).bind (·[k]?) ≠ (streams words m t' lane).bind (·[k]?)

/-- A ragged filter is streamed differently by an engine that is new and by one in
which a filter of one more word was loaded before. They part in the place behind its
last word, within one round of the rows. -/
theorem part_of_not_dvd {e₀ : Engine} (h : new c = .ok e₀) (ht : c.traced = true)
    (hc : c.banks * c.depth < Checked.limit) (hpos : 0 < words.length)
    (hw : words.length ≤ c.banks * c.depth) (hd : ¬ c.banks ∣ words.length)
    (log : Array Event) :
    ∃ earlier : List Word, earlier.length = words.length + 1 ∧
      earlier.length ≤ c.banks * c.depth ∧
      AtRest c.layout (Step.after perform (refilling earlier) ⟨e₀, log⟩) ∧
      ∃ lane < c.banks, ∃ k < c.layout.rows words.length, ∀ m, k ≤ m →
        2 * (words.length + 1) + m < Checked.limit →
        Part words m ⟨e₀, log⟩ (Step.after perform (refilling earlier) ⟨e₀, log⟩) lane
          k := by
  obtain ⟨hbuildable, he₀⟩ := new_eq_ok_iff.1 h
  have hne : words.length ≠ c.banks * c.depth := fun heq => hd ⟨c.depth, heq⟩
  have hlength : (List.replicate (words.length + 1) (1 : Word)).length =
      words.length + 1 :=
    List.length_replicate
  have hfits : (List.replicate (words.length + 1) (1 : Word)).length ≤
      c.banks * c.depth := by
    omega
  obtain ⟨t, htrefill, hrest', hcycles, hcount, hword⟩ := refilled_new h ht hc hfits log
  obtain ⟨lane, hl, row, hplace, hr⟩ := exists_place_of_not_dvd hbuildable.banks_pos hd
  have hrows : 0 < c.layout.rows words.length :=
    Layout.rows_pos hbuildable.banks_pos hpos
  have hrest := atRest_new h ht log
  refine ⟨_, hlength, hfits, htrefill ▸ hrest', lane, hl,
    (row + lane) % c.layout.rows words.length,
    Nat.mod_lt _ hrows, fun m hm hcycle => ?_⟩
  have hcount₀ : e₀.store.CountedBy 0 := he₀ ▸ Store.CountedBy.initial c
  have hcycles₀ : e₀.cycles = 0 := he₀ ▸ rfl
  have hanswer : Step.IsAnswer (Step.outcome (session words m ⟨e₀, log⟩)) :=
    hrest.isAnswer_session hc hw hcount₀ (by omega) (by simp only [hcycles₀]; omega)
  have hanswer' : Step.IsAnswer (Step.outcome (session words m t)) :=
    hrest'.isAnswer_session hc hw hcount (by omega) (by omega)
  have hstreams :=
    (hrest.session_of_isAnswer hc hpos hw hanswer).2.streams_rest hl hplace hr
    (Nat.lt_succ_of_le hm)
  have hstreams' :=
    (hrest'.session_of_isAnswer hc hpos hw hanswer').2.streams_rest hl hplace hr
    (Nat.lt_succ_of_le hm)
  have hzero : e₀.store.word lane row = 0 := by
    rw [he₀]
    exact Store.word_initial c lane row
  have hone : t.state.store.word lane row = 1 := by
    rw [hword lane hl, hplace, List.getElem?_replicate, if_pos (Nat.lt_succ_self _)]
    rfl
  rw [← htrefill]
  refine ⟨hanswer, hanswer', ?_⟩
  rw [streams, streams, hstreams, hstreams', hzero, hone]
  decide

/-- What was in the banks when a filter is loaded shows in its stream exactly if the
filter does not fill its rows.

A session on an engine at rest, whatever that has done before, streams the filter
and, where that has no word, what the banks held; and it is answered as long as its
cycles can be counted. So a filter of full rows is streamed the same by all engines
at rest. One whose last row is ragged is not: an engine that is new and one that was
loaded before part within the first round of the rows. A list of words lies in one
block of memory, so there always are cycles enough for both to get there. -/
theorem reload_hygiene {e₀ : Engine} (h : new c = .ok e₀) (ht : c.traced = true)
    (hc : c.banks * c.depth < Checked.limit) (hpos : 0 < words.length)
    (hw : words.length ≤ c.banks * c.depth) (log : Array Event) :
    (∀ t, AtRest c.layout t → ∀ m,
      (Step.IsAnswer (Step.outcome (session words m t)) →
        Step.outcome (session words m t) = .ok (c.layout.rows words.length) ∧
          (Step.final (session words m t)).state.Carries c words t.state.store.word
            (m + 1)) ∧
      ∀ ticks, t.state.store.CountedBy ticks →
        ticks + (words.length + 1 + m) < Checked.limit →
        t.state.cycles + (words.length + 1 + m) < Checked.limit →
        Step.IsAnswer (Step.outcome (session words m t))) ∧
    (c.banks ∣ words.length → StreamsAlike c.layout words) ∧
    (words.length * 4 < Checked.half →
      (StreamsAlike c.layout words ↔ c.banks ∣ words.length)) ∧
    (¬ c.banks ∣ words.length →
      AtRest c.layout ⟨e₀, log⟩ ∧
      ∃ earlier : List Word,
        earlier.length = words.length + 1 ∧ earlier.length ≤ c.banks * c.depth ∧
        AtRest c.layout (Step.after perform (refilling earlier) ⟨e₀, log⟩) ∧
        ∃ lane < c.banks, ∃ k < c.layout.rows words.length, ∀ m, k ≤ m →
          2 * (words.length + 1) + m < Checked.limit →
          Part words m ⟨e₀, log⟩ (Step.after perform (refilling earlier) ⟨e₀, log⟩) lane
            k) := by
  have hb : 0 < c.layout.banks := (new_eq_ok_iff.1 h).1.banks_pos
  have halike : c.banks ∣ words.length → StreamsAlike c.layout words := by
    intro hd t t' hrest hrest' m ha ha' lane
    exact (hrest.session_of_isAnswer hc hpos hw ha).2.streamed_eq_of_dvd
      (hrest'.session_of_isAnswer hc hpos hw ha').2 hd hpos lane
  have hpart := part_of_not_dvd h ht hc hpos hw
  refine ⟨fun t hrest m =>
    ⟨hrest.session_of_isAnswer hc hpos hw, fun ticks hcount hticks hcycles =>
    hrest.isAnswer_session hc hw hcount hticks hcycles⟩, halike,
    fun hblock => ⟨fun hsame => ?_, halike⟩,
    fun hd => ⟨atRest_new h ht log, hpart hd log⟩⟩
  -- Streams that part are not alike, and a block of memory has no list so long that
  -- they could not part.
  by_contra hd
  obtain ⟨earlier, -, -, hrest', lane, -, k, hk, hparts⟩ := hpart hd log
  have hrows : c.layout.rows words.length ≤ words.length :=
    (Layout.rows_le_iff hb).2 (Nat.le_mul_of_pos_left _ hb)
  have hcycle : 2 * (words.length + 1) + k < Checked.limit := by
    have hlimit := Checked.half_add_half
    omega
  obtain ⟨ha, ha', hne⟩ := hparts k (Nat.le_refl k) hcycle
  exact hne (congrArg (·.bind (·[k]?))
    (hsame _ _ (atRest_new h ht log) hrest' k ha ha' lane))

/-- Three words over two banks leave one place to the filter before them, four leave
none. -/
theorem stale_word_behind_ragged_filter :
    ¬ StreamsAlike ⟨2, 4⟩ [10, 11, 12] ∧ StreamsAlike ⟨2, 4⟩ [10, 11, 12, 13] ∧
      streams [10, 11, 12] 3 ⟨ofStore (Store.initial ⟨2, 4, .sequential, true⟩), #[]⟩
        1 =
        some [0, 11, 0, 11] ∧
      streams [10, 11, 12] 3 (Step.after perform (refilling [6, 7, 8, 9])
        ⟨ofStore (Store.initial ⟨2, 4, .sequential, true⟩), #[]⟩) 1 =
          some [9, 11, 9, 11] := by
  have hnew : new ⟨2, 4, .sequential, true⟩ =
      .ok (ofStore (Store.initial ⟨2, 4, .sequential, true⟩)) := rfl
  have hpos : 0 < ([10, 11, 12] : List Word).length := by decide
  have hpos' : 0 < ([10, 11, 12, 13] : List Word).length := by decide
  obtain ⟨-, -, hragged, -⟩ := reload_hygiene hnew rfl (by decide) hpos (by decide) #[]
  obtain ⟨-, hfull, -, -⟩ := reload_hygiene hnew rfl (by decide) hpos' (by decide) #[]
  exact ⟨fun hsame => absurd ((hragged (by decide)).1 hsame) (by decide),
    hfull (by decide), by decide +kernel, by decide +kernel⟩

end Engine

end Wavefront
