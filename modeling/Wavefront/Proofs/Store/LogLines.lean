import Wavefront.Proofs.Lines
import Wavefront.Proofs.Store.Accounts

/-!
# The log is a faithful account of the run

Three parts of a tick report to the log: first its pulses are looked at, then the
router takes its command, and at last the sequencer moves. Each has conditions of
its own on when there is something to say. Those of the pulses are the phase of the
tick in other words, so what a tick reports can be told from its move, `Move.report`
(`report_move`).

Over a run, `Recounts` compares the log with the moves that the run has made. It is
kept by every tick, which reports itself, and by changes of the size, which report
nothing else; requests that are refused report nothing at all. So the log of every
run that is answered recounts the run, and `log_is_faithful` reads this off its
lines.
-/

namespace Wavefront

def Logged.lines {σ : Type} (s : Logged σ) : List String := s.log.toList.map Event.line

namespace Store

open Event (Kind)

variable {c : Config} {s : Store}

namespace Move

def phase (m : Move) : Phase := .ofTick m.before.running m.tick.inputs

/-- What a tick reports of its pulses: that it begins a stream, if it does, and
otherwise a reset. -/
def control (lanes : Nat) (m : Move) : Option Event :=
  match m.phase with
  | .priming =>
      some (if m.tick.size = 0 then .startedEmpty else .started m.tick.size lanes)
  | _ => if m.tick.inputs.reset then some (.reset m.before) else none

/-- What a tick reports, in this order: its pulses, its command, and its move. -/
def report (lanes : Nat) (m : Move) : List Event :=
  (m.control lanes).toList ++ m.tick.inputs.write.toList.map Event.routed ++
    [.moved m.before m.after]

/-- The moves lead from one state of the sequencer to another, each of them going on
from where the one before has led. -/
def IsPath : Sequencer → List Move → Sequencer → Prop
  | p, [], q => p = q
  | p, m :: ms, q => m.before = p ∧ IsPath m.after ms q

theorem isPath_nil (p : Sequencer) : IsPath p [] p := rfl

theorem IsPath.append_singleton {p q : Sequencer} {ms : List Move} (h : IsPath p ms q)
    {m : Move} (hm : m.before = q) : IsPath p (ms ++ [m]) m.after := by
  induction ms generalizing p with
  | nil => exact ⟨hm.trans h.symm, rfl⟩
  | cons m' ms ih => exact ⟨h.1, ih h.2⟩

variable (lanes : Nat) (m : Move)

/-! ## The kinds of the events in a report -/

theorem kind_control_ne {e : Event} (h : e ∈ (m.control lanes).toList) :
    e.kind ≠ .resized ∧ e.kind ≠ .routed ∧ e.kind ≠ .moved := by
  rw [Option.mem_toList] at h
  unfold control at h
  split at h <;> split at h <;> cases h <;> simp [Event.kind]

theorem filter_report_resized :
    (m.report lanes).filter (fun e => e.kind ≠ .resized) = m.report lanes := by
  refine List.filter_eq_self.2 fun e he => ?_
  rw [report, List.mem_append, List.mem_append, List.mem_map, List.mem_singleton] at he
  rcases he with (he | ⟨w, -, rfl⟩) | rfl
  · exact decide_eq_true (m.kind_control_ne lanes he).1
  · rfl
  · rfl

theorem filter_report_moved :
    (m.report lanes).filter (fun e => e.kind = .moved) = [.moved m.before m.after] := by
  have hcontrol : (m.control lanes).toList.filter (fun e => e.kind = .moved) = [] :=
    List.filter_eq_nil_iff.2 fun e he => by simpa using (m.kind_control_ne lanes he).2.2
  rw [report, List.filter_append, List.filter_append, hcontrol]
  cases m.tick.inputs.write <;> rfl

theorem countP_report_routed :
    (m.report lanes).countP (fun e => e.kind = .routed) =
      if m.tick.inputs.write.isSome then 1 else 0 := by
  have hcontrol : (m.control lanes).toList.countP (fun e => e.kind = .routed) = 0 :=
    List.countP_eq_zero.2 fun e he => by simpa using (m.kind_control_ne lanes he).2.1
  rw [report, List.countP_append, List.countP_append, hcontrol]
  cases m.tick.inputs.write <;> rfl

theorem countP_report {k : Kind} (hr : k ≠ .routed) (hm : k ≠ .moved) :
    (m.report lanes).countP (fun e => e.kind = k) =
      (m.control lanes).toList.countP fun e => e.kind = k := by
  rw [report, List.countP_append, List.countP_append]
  cases m.tick.inputs.write <;> simp [Event.kind, hr.symm, hm.symm]

theorem countP_report_reset :
    (m.report lanes).countP (fun e => e.kind = .reset) =
      if m.tick.inputs.reset then 1 else 0 := by
  rw [countP_report lanes m (by decide) (by decide), control]
  cases hphase : m.phase with
  | priming =>
      have hreset : m.tick.inputs.reset = false :=
        ((Phase.ofTick_eq_priming_iff _ _).1 hphase).2.2
      rw [hreset]
      cases m.tick.size <;> rfl
  | _ => cases m.tick.inputs.reset <;> rfl

theorem countP_report_started :
    (m.report lanes).countP (fun e => e.kind = .started) =
      if m.phase = .priming ∧ 0 < m.tick.size then 1 else 0 := by
  rw [countP_report lanes m (by decide) (by decide), control]
  cases m.phase with
  | priming => cases m.tick.size <;> rfl
  | _ => cases m.tick.inputs.reset <;> rfl

theorem countP_report_startedEmpty :
    (m.report lanes).countP (fun e => e.kind = .startedEmpty) =
      if m.phase = .priming ∧ m.tick.size = 0 then 1 else 0 := by
  rw [countP_report lanes m (by decide) (by decide), control]
  cases m.phase with
  | priming => cases m.tick.size <;> rfl
  | _ => cases m.tick.inputs.reset <;> rfl

end Move

theorem report_move (i : Inputs) (s : Store) :
    (s.move i).report s.width = s.events i := by
  have hcontrol : (s.move i).control s.width = s.pulses i := by
    unfold Move.control Move.phase pulses move Phase.ofTick
    cases s.sequencer.running <;> cases i.start <;> cases i.reset <;> simp
    split <;> rfl
  rw [Move.report, hcontrol]
  rfl

/-- The log recounts the moves. -/
structure Recounts (lanes : Nat) (ms : List Move) (t : Logged Store) : Prop where
  path : Move.IsPath .stopped ms t.state.sequencer
  /-- Between the changes of the size stand the reports of the moves, one after the
  other. -/
  log_eq : (t.log.toList.filter fun e => e.kind ≠ .resized) =
    ms.flatMap (Move.report lanes)

namespace Recounts

variable {lanes : Nat} {ms : List Move} {log : Array Event}

theorem initial (c : Config) : Recounts lanes [] ⟨Store.initial c, #[]⟩ :=
  ⟨Move.isPath_nil _, rfl⟩

theorem resize (h : Recounts lanes ms ⟨s, log⟩) (size : Nat) :
    Recounts lanes ms ⟨{ s with size := size }, log.push (.resized s.size size)⟩ := by
  refine ⟨h.path, ?_⟩
  rw [Array.toList_push, List.filter_append, h.log_eq]
  exact List.append_nil _

theorem next (h : Recounts s.width ms ⟨s, log⟩) (i : Inputs) :
    Recounts s.width (ms ++ [s.move i]) ⟨s.next i, log ++ (s.events i).toArray⟩ := by
  refine ⟨h.path.append_singleton rfl, ?_⟩
  rw [Array.toList_append, List.filter_append, h.log_eq, ← report_move,
    Move.filter_report_resized, List.flatMap_append, List.flatMap_singleton]

variable {t : Logged Store}

theorem lines_eq (h : Recounts lanes ms t) :
    (t.lines.filter fun line => !Kind.resized.opens line) =
      ms.flatMap fun m => (m.report lanes).map Event.line := by
  have hkind : (fun line => !Kind.resized.opens line) ∘ Event.line =
      fun e => decide (e.kind ≠ .resized) := by
    funext e
    rw [Function.comp_apply, Event.opens_line, decide_not]
  rw [Logged.lines, List.filter_map, hkind, h.log_eq, List.map_flatMap]

theorem filter_kind (h : Recounts lanes ms t) {k : Kind} (hk : k ≠ .resized) :
    (t.log.toList.filter fun e => e.kind = k) =
      ms.flatMap fun m => (m.report lanes).filter fun e => e.kind = k := by
  rw [← List.filter_flatMap, ← h.log_eq, List.filter_filter]
  refine List.filter_congr fun e _ => ?_
  by_cases he : e.kind = k
  · simp [he, hk]
  · simp [he]

theorem moved_eq (h : Recounts lanes ms t) :
    t.lines.filter Kind.moved.opens = ms.map
      fun m => (Event.moved m.before m.after).line := by
  rw [Logged.lines, Event.filter_opens, h.filter_kind (by decide)]
  simp only [Move.filter_report_moved]
  rw [List.map_flatMap]
  exact List.flatMap_pure_eq_map _ ms

/-- There are as many lines of a kind as moves that report it, if none of them
reports it twice. -/
theorem countP_opens_eq (h : Recounts lanes ms t) (k : Kind) (hk : k ≠ .resized)
    {p : Move → Bool}
    (hp : ∀ m : Move,
      (m.report lanes).countP (fun e => e.kind = k) = if p m then 1 else 0) :
    t.lines.countP k.opens = ms.countP p := by
  rw [Logged.lines, Event.countP_opens, List.countP_eq_length_filter, h.filter_kind hk]
  clear h
  induction ms with
  | nil => rfl
  | cons m ms ih =>
      rw [List.flatMap_cons, List.length_append, ih, ← List.countP_eq_length_filter, hp,
        List.countP_cons, Nat.add_comm]

end Recounts

theorem recounts_after {s₀ : Store} (h : new c = .ok s₀) {rs : List Request}
    (ha : Step.Answered perform rs ⟨s₀, #[]⟩) :
    Recounts c.banks (moves rs ⟨s₀, #[]⟩) (Step.after perform rs ⟨s₀, #[]⟩) := by
  obtain ⟨hc, rfl⟩ := new_eq_ok_iff.1 h
  refine moves_induction (I := Recounts c.banks) [] (wellFormed_initial hc) (.initial c)
    (fun _ _ _ size h => h.resize size) (fun ms s log i hs _ h => ?_) ha
  rw [← hs.width_eq] at h ⊢
  exact h.next i

/-! ## What one request adds to the log -/

theorem final_of_rejected (h : s.WellFormed c) {r : Request} {log : Array Event}
    {cause : Rejection}
    (hr : Step.outcome (perform r ⟨s, log⟩) = .error (.rejected cause)) :
    Step.final (perform r ⟨s, log⟩) = ⟨s, log⟩ := by
  have ha : Step.IsAnswer (Step.outcome (perform r ⟨s, log⟩)) := hr ▸ trivial
  rcases perform_of_isAnswer h ha with
    ⟨⟨cause', hperform⟩, -⟩ | ⟨size, -, -, -, hperform, -⟩ |
    ⟨i, -, -, hperform, -⟩
  · rw [hperform]
    rfl
  · rw [hperform] at hr
    cases hr
  · rw [hperform] at hr
    cases hr

theorem lines_of_resize {size : Nat} {log : Array Event}
    (hr : Step.outcome (perform (.resize size) ⟨s, log⟩) = .ok ()) :
    (Step.final (perform (.resize size) ⟨s, log⟩)).lines =
      Logged.lines ⟨s, log⟩ ++ [(Event.resized s.size size).line] := by
  rcases resize_outcome size s log with ⟨-, hok⟩ | ⟨-, cause, herr⟩
  · rw [perform, performBy, hok]
    simp [Logged.lines]
  · rw [perform, performBy, herr] at hr
    cases hr

theorem lines_of_tick (h : s.WellFormed c) {r : Request} {i : Inputs}
    (hi : r.inputs = some i) {log : Array Event}
    (hr : Step.outcome (perform r ⟨s, log⟩) = .ok ()) :
    let t' := Step.final (perform r ⟨s, log⟩)
    t'.lines = Logged.lines ⟨s, log⟩ ++
      (Move.report c.banks ⟨s.sequencer, t'.state.sequencer, ⟨i, s.size⟩⟩).map
        Event.line := by
  intro t'
  rw [perform_of_inputs hi] at hr
  obtain ⟨-, htick⟩ := tick_of_isOk h (by rw [hr]; rfl)
  have ht' : t' = ⟨s.next i, log ++ (s.events i).toArray⟩ := by
    rw [← Step.final_ok () ⟨s.next i, _⟩, ← htick, ← perform_of_inputs hi]
  rw [ht', ← h.width_eq]
  show _ = _ ++ ((s.move i).report s.width).map Event.line
  rw [report_move]
  simp [Logged.lines]

/-- The log of a new block is a faithful account of whatever is asked of it,
requests that are refused among it. No request is left without an answer in fewer
ticks than a counter can count, and as long as none is:

* every tick that was carried out has one summary, with the sequencer before and
  after it. The first begins with the stop, each goes on from where the one before
  has led, and the last leads to where the sequencer is;
* there is one line of the router for each command that it counts, one of a reset
  for each tick carried out that sampled it, and one of a start for each tick in
  which a stream begins: as a warning if there is nothing to stream, and otherwise
  for information;
* apart from changes of the size, the log is made up of the reports of these ticks.

Whatever comes next adds nothing to the log if it is refused. Otherwise a change of
the size adds one line, and a tick adds those on its pulses and its command, if
there is something to say of them, and then its summary. -/
theorem log_is_faithful {s₀ : Store} (h : new c = .ok s₀) (rs : List Request) :
    let t := Step.after perform rs ⟨s₀, #[]⟩
    let ms := moves rs ⟨s₀, #[]⟩
    let pulses := fun m : Move =>
      if m.phase = .priming then
        if m.tick.size = 0 then
          ["WARN filter store: start with size 0, read ports stay idle and lanes hold"]
        else [s!"INFO filter store: start, streaming {m.tick.size} words across {c.banks} banks"]
      else if m.tick.inputs.reset then
        [s!"INFO filter store: reset at position {m.before.position} (running: {m.before.running})"]
      else []
    let command := fun w : Write =>
      s!"TRACE write demux: bank {w.bank} addr {w.address} <- 0x{Event.digits w.data}"
    let summary := fun (p q : Nat) (r u : Bool) =>
      s!"DEBUG filter store: position {p} -> {q}, running {r} -> {u}"
    let moved := fun m : Move =>
      summary m.before.position m.after.position m.before.running m.after.running
    let report := fun m : Move =>
      pulses m ++ m.tick.inputs.write.toList.map command ++ [moved m]
    (ticksIn rs < Checked.limit → Step.Answered perform rs ⟨s₀, #[]⟩) ∧
    (Step.Answered perform rs ⟨s₀, #[]⟩ →
      t.lines.filter (fun line => line.startsWith "DEBUG filter store: position ") =
        ms.map moved ∧
      Move.IsPath .stopped ms t.state.sequencer ∧
      t.lines.countP (fun line => line.startsWith "TRACE write demux: bank ") =
        t.state.accepted ∧
      t.lines.countP (fun line =>
        line.startsWith "INFO filter store: reset at position ") =
        ms.countP (fun m => m.tick.inputs.reset) ∧
      t.lines.countP (fun line =>
        line.startsWith "INFO filter store: start, streaming ") =
        ms.countP (fun m => m.phase = .priming ∧ 0 < m.tick.size) ∧
      t.lines.countP (fun line =>
        line.startsWith "WARN filter store: start with size 0") =
        ms.countP (fun m => m.phase = .priming ∧ m.tick.size = 0) ∧
      t.lines.filter (fun line => !line.startsWith "DEBUG filter store: size ") =
        ms.flatMap report) ∧
    ∀ r : Request,
      let t' := Step.final (perform r t)
      (∀ cause, Step.outcome (perform r t) = .error (.rejected cause) → t' = t) ∧
      (Step.outcome (perform r t) = .ok () →
        (∀ size, r = .resize size →
          t'.lines = t.lines ++
            [s!"DEBUG filter store: size {t.state.size} -> {size}"]) ∧
        ∀ i, r.inputs = some i →
          t'.lines = t.lines ++
            report ⟨t.state.sequencer, t'.state.sequencer, ⟨i, t.state.size⟩⟩) := by
  intro t ms pulses command summary moved report
  obtain ⟨hc, hs₀⟩ := new_eq_ok_iff.1 h
  have hinitial : s₀.WellFormed c := hs₀ ▸ wellFormed_initial hc
  have hwell : t.state.WellFormed c := wellFormed_after hinitial rs #[]
  have hpulses : ∀ m : Move, (m.control c.banks).toList.map Event.line = pulses m := by
    intro m
    simp only [pulses, Move.control]
    cases m.phase with
    | priming => by_cases hsize : m.tick.size = 0 <;> simp [hsize, Event.line_eq]
    | _ => cases m.tick.inputs.reset <;> simp [Event.line_eq]
  have hmoved : ∀ m : Move, (Event.moved m.before m.after).line = moved m :=
    fun m => Event.line_eq (.moved m.before m.after)
  have hreport : ∀ m : Move, (m.report c.banks).map Event.line = report m := by
    intro m
    rw [Move.report, List.map_append, List.map_append, hpulses, List.map_map,
      List.map_singleton, hmoved]
    congr 2
    exact List.map_congr_left fun w _ => Event.line_eq (.routed w)
  refine ⟨fun hticks => ?_, fun ha => ?_,
    fun r => ⟨fun cause hrejected => ?_, fun hok => ⟨?_, ?_⟩⟩⟩
  · subst hs₀
    exact (answered_of_ticks_lt hinitial (.initial c) rs (by omega) #[]).2
  · have hrecounts : Recounts c.banks ms t := recounts_after h ha
    refine ⟨hrecounts.moved_eq.trans ?_, hrecounts.path, ?_, ?_, ?_, ?_,
      hrecounts.lines_eq.trans ?_⟩
    · simp only [hmoved]
    · have haccepted : t.state.accepted = ms.countP
          fun m => m.tick.inputs.write.isSome := by
        rw [(accounts_after h ha).accepted_eq, ← map_tick_moves, commands,
          List.length_filterMap_eq_countP, List.countP_map]
        rfl
      rw [haccepted]
      exact hrecounts.countP_opens_eq .routed (by decide)
        (Move.countP_report_routed c.banks)
    · exact hrecounts.countP_opens_eq .reset (by decide)
        (Move.countP_report_reset c.banks)
    · refine hrecounts.countP_opens_eq .started (by decide) fun m => ?_
      rw [Move.countP_report_started]
      simp
    · refine hrecounts.countP_opens_eq .startedEmpty (by decide) fun m => ?_
      rw [Move.countP_report_startedEmpty]
      simp
    · simp only [hreport]
  · exact final_of_rejected hwell hrejected
  · rintro size rfl
    rw [lines_of_resize hok, Event.line_eq]
  · intro i hi
    rw [lines_of_tick hwell hi hok, hreport]

/-- Two streams, one of them of no words, with a reset between them, and requests
that were refused: a command for a bank that is not there, and a change of the size
in the stream. The size has been set before, and a command and a reset come
after. -/
theorem log_around_refusals :
    let rs : List Request :=
      [.resize 2, .write ⟨1, 0, 7⟩, .write ⟨2, 0, 8⟩, .tick ⟨none, true, false⟩,
        .resize 0, .tick ⟨some ⟨0, 1, 9⟩, true, false⟩, .tick ⟨none, true, true⟩,
        .resize 0, .tick ⟨none, true, false⟩]
    let t := Step.after perform rs ⟨initial ⟨2, 4, .parallel, false⟩, #[]⟩
    (t.lines.countP (fun line => line.startsWith "TRACE write demux: bank ") = 2 ∧
      t.lines.countP (fun line =>
        line.startsWith "INFO filter store: reset at position ") = 1 ∧
      t.lines.countP (fun line =>
        line.startsWith "INFO filter store: start, streaming ") = 1 ∧
      t.lines.countP (fun line =>
        line.startsWith "WARN filter store: start with size 0") = 1 ∧
      t.lines.filter (fun line => line.startsWith "DEBUG filter store: position ") =
        ["DEBUG filter store: position 0 -> 0, running false -> false",
          "DEBUG filter store: position 0 -> 1, running false -> true",
          "DEBUG filter store: position 1 -> 0, running true -> true",
          "DEBUG filter store: position 0 -> 0, running true -> false",
          "DEBUG filter store: position 0 -> 0, running false -> true"] ∧
      t.lines.filter (fun line => !line.startsWith "DEBUG filter store: size ") =
        ["TRACE write demux: bank 1 addr 0 <- 0x00000007",
          "DEBUG filter store: position 0 -> 0, running false -> false",
          "INFO filter store: start, streaming 2 words across 2 banks",
          "DEBUG filter store: position 0 -> 1, running false -> true",
          "TRACE write demux: bank 0 addr 1 <- 0x00000009",
          "DEBUG filter store: position 1 -> 0, running true -> true",
          "INFO filter store: reset at position 0 (running: true)",
          "DEBUG filter store: position 0 -> 0, running true -> false",
          "WARN filter store: start with size 0, read ports stay idle and lanes hold",
          "DEBUG filter store: position 0 -> 0, running false -> true"]) ∧
    (Step.final (perform (.resize 2) ⟨initial ⟨2, 4, .parallel, false⟩, #[]⟩)).lines =
      ["DEBUG filter store: size 0 -> 2"] ∧
    (Step.final (perform (.tick ⟨some ⟨0, 3, 0xdeadbeef⟩, false, true⟩) t)).lines =
      t.lines ++
      ["INFO filter store: reset at position 0 (running: true)",
        "TRACE write demux: bank 0 addr 3 <- 0xdeadbeef",
        "DEBUG filter store: position 0 -> 0, running true -> false"] := by
  intro rs t
  have hnew : new ⟨2, 4, .parallel, false⟩ = .ok (initial ⟨2, 4, .parallel, false⟩) :=
    rfl
  obtain ⟨-, -, hfirst⟩ := log_is_faithful hnew []
  obtain ⟨hanswered, hfaithful, hnext⟩ := log_is_faithful hnew rs
  have hticks : ticksIn rs < Checked.limit := by decide
  obtain ⟨hmoved, -, hrouted, hreset, hstarted, hempty, hreports⟩ :=
    hfaithful (hanswered hticks)
  obtain ⟨-, hresized⟩ := hfirst (.resize 2)
  obtain ⟨-, hticked⟩ := hnext (.tick ⟨some ⟨0, 3, 0xdeadbeef⟩, false, true⟩)
  have hmoves : moves rs ⟨initial ⟨2, 4, .parallel, false⟩, #[]⟩ =
      [⟨⟨0, false⟩, ⟨0, false⟩, ⟨.ofWrite ⟨1, 0, 7⟩, 2⟩⟩,
        ⟨⟨0, false⟩, ⟨1, true⟩, ⟨⟨none, true, false⟩, 2⟩⟩,
        ⟨⟨1, true⟩, ⟨0, true⟩, ⟨⟨some ⟨0, 1, 9⟩, true, false⟩, 2⟩⟩,
        ⟨⟨0, true⟩, ⟨0, false⟩, ⟨⟨none, true, true⟩, 2⟩⟩,
        ⟨⟨0, false⟩, ⟨0, true⟩, ⟨⟨none, true, false⟩, 0⟩⟩] := by
    decide +kernel
  rw [hmoves] at hmoved hreset hstarted hempty hreports
  refine ⟨⟨hrouted.trans (by decide +kernel), hreset, hstarted, hempty,
    hmoved.trans (by decide +kernel), hreports.trans (by decide +kernel)⟩, ?_, ?_⟩
  · obtain ⟨hsize, -⟩ := hresized rfl
    exact (hsize 2 rfl).trans (by decide +kernel)
  · obtain ⟨-, hlines⟩ := hticked (by decide +kernel)
    exact (hlines _ rfl).trans (congrArg (t.lines ++ ·) (by decide +kernel))

end Store

end Wavefront
