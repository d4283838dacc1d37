import Wavefront.Proofs.Store.History
import Wavefront.Proofs.Store.Refusals

/-!
# A reset forgets the past

What a block does next depends on its geometry, its size, its words and its
sequencer, and neither on its statistics nor on what its lanes carry. Two blocks
that agree on the former, `Store.SamePlace`, answer every request alike and agree
afterwards (`SamePlace.perform`). Their lanes agree as soon as there has been a tick
with something to stream, for then each of them takes up a word. A reset brings the
sequencer back to where every stream begins, so all that is left of the past are the
size and the words (`reset_forgets`).
-/

namespace Wavefront

namespace Store

variable {c c' : Config} {s s' : Store}

/-- The two blocks have the same geometry and hold the same words, with the same
size to stream. -/
structure SameMemory (s s' : Store) : Prop where
  width_eq : s.width = s'.width
  depth_eq : s.depth = s'.depth
  size_eq : s.size = s'.size
  word_eq : ∀ {lane address : Nat}, lane < s.width → address < s.depth →
    s.word lane address = s'.word lane address

namespace SameMemory

theorem refusal?_eq (h : s.SameMemory s') (i : Inputs) :
    s.refusal? i = s'.refusal? i := by
  rw [refusal?, refusal?, h.width_eq, h.depth_eq]

theorem admits_iff (h : s.SameMemory s') (i : Inputs) : s.Admits i ↔ s'.Admits i := by
  rw [← refusal?_eq_none_iff, ← refusal?_eq_none_iff, h.refusal?_eq]

theorem next (h : s.SameMemory s') (hs : s.WellFormed c) (hs' : s'.WellFormed c')
    {i i' : Inputs} (hw : i.write = i'.write) (hi : s.Admits i) :
    (s.next i).SameMemory (s'.next i') := by
  have hi' : s'.Admits i' := by
    rw [Admits, ← hw]
    exact (h.admits_iff i).1 hi
  refine ⟨?_, h.depth_eq, h.size_eq, fun {lane address} hl ha => ?_⟩
  · rw [width_next, width_next, h.width_eq]
  · rw [width_next] at hl
    rw [word_next hs hi, word_next hs' hi', h.word_eq hl ha, hw]

end SameMemory

/-- The two blocks stand at the same place of a stream over the same words. -/
structure SamePlace (s s' : Store) : Prop extends SameMemory s s' where
  sequencer_eq : s.sequencer = s'.sequencer

theorem SameMemory.next_of_reset (h : s.SameMemory s') (hs : s.WellFormed c)
    (hs' : s'.WellFormed c') {i i' : Inputs} (hw : i.write = i'.write) (hi : s.Admits i)
    (hreset : i.reset = true) (hreset' : i'.reset = true) :
    (s.next i).SamePlace (s'.next i') := by
  refine ⟨h.next hs hs' hw hi, ?_⟩
  rw [sequencer_next, sequencer_next, Sequencer.advance_of_reset hreset,
    Sequencer.advance_of_reset hreset']

theorem outputs_next_of_size_eq (h : s.WellFormed c) (hz : s.size = 0) (i : Inputs) :
    (s.next i).outputs = s.outputs := by
  have houtput : (s.next i).output = s.output := by
    funext lane
    rw [output_next, readAddress_of_size_eq hz]
    rfl
  rw [outputs_eq (h.next i), outputs_eq h, houtput]

namespace SamePlace

theorem readAddress_eq (h : s.SamePlace s') : s.readAddress = s'.readAddress := by
  funext lane
  rw [readAddress, readAddress, h.sequencer_eq, h.size_eq]

theorem addresses_eq (h : s.SamePlace s') (hs : s.WellFormed c)
    (hs' : s'.WellFormed c') :
    s.addresses = s'.addresses := by
  rw [hs.addresses_eq, hs'.addresses_eq, h.readAddress_eq, ← hs.width_eq,
    ← hs'.width_eq, h.width_eq]

theorem next (h : s.SamePlace s') (hs : s.WellFormed c) (hs' : s'.WellFormed c')
    {i : Inputs} (hi : s.Admits i) : (s.next i).SamePlace (s'.next i) := by
  refine ⟨h.toSameMemory.next hs hs' rfl hi, ?_⟩
  rw [sequencer_next, sequencer_next, h.sequencer_eq, h.size_eq]

theorem outputs_next (h : s.SamePlace s') (hs : s.WellFormed c) (hs' : s'.WellFormed c')
    (hlanes : s.outputs = s'.outputs ∨ 0 < s.size) (i : Inputs) :
    (s.next i).outputs = (s'.next i).outputs := by
  rcases Nat.eq_zero_or_pos s.size with hz | hz
  · have hz' : s'.size = 0 := h.size_eq ▸ hz
    rw [outputs_next_of_size_eq hs hz, outputs_next_of_size_eq hs' hz']
    exact hlanes.resolve_right (by omega)
  · have hbanks : c.banks = c'.banks := by
      rw [← hs.width_eq, ← hs'.width_eq, h.width_eq]
    rw [Store.outputs_eq (hs.next i), Store.outputs_eq (hs'.next i), ← hbanks]
    refine List.map_congr_left fun lane hlane => ?_
    have hread := readAddress_of_size_pos hz lane
    have hlt : _ < s.depth :=
      Nat.lt_of_lt_of_le (readAddress_lt hread) (hs.storeDepth_eq ▸ hs.size_le)
    rw [output_next, output_next, ← h.readAddress_eq, hread]
    exact h.word_eq (hs.width_eq ▸ List.mem_range.1 hlane) hlt

theorem resize (h : s.SamePlace s') (size : Nat) (log log' : Array Event) :
    Step.outcome (Store.resize size ⟨s, log⟩) =
      Step.outcome (Store.resize size ⟨s', log'⟩) ∧
      (Step.final (Store.resize size ⟨s, log⟩)).state.SamePlace
        (Step.final (Store.resize size ⟨s', log'⟩)).state ∧
      (s.outputs = s'.outputs →
        (Step.final (Store.resize size ⟨s, log⟩)).state.outputs =
          (Step.final (Store.resize size ⟨s', log'⟩)).state.outputs) := by
  rcases Nat.lt_or_ge s.depth size with hd | hd
  · rw [resize_of_lt hd, resize_of_lt (h.depth_eq ▸ hd), h.depth_eq]
    exact ⟨rfl, h, id⟩
  · cases hr : s.sequencer.running with
    | true =>
        rw [resize_of_running hd hr,
          resize_of_running (h.depth_eq ▸ hd) (h.sequencer_eq ▸ hr)]
        exact ⟨rfl, h, id⟩
    | false =>
        rw [resize_of_stopped hd hr,
          resize_of_stopped (h.depth_eq ▸ hd) (h.sequencer_eq ▸ hr)]
        exact ⟨rfl, ⟨⟨h.width_eq, h.depth_eq, rfl, h.word_eq⟩, h.sequencer_eq⟩, id⟩

/-- Both blocks answer a request alike, and stand at the same place afterwards. Once
there was something to stream in a tick, their lanes agree. -/
theorem perform (h : s.SamePlace s') (hs : s.WellFormed c) (hs' : s'.WellFormed c')
    {r : Request} {log log' : Array Event}
    (ha : Step.IsAnswer (Step.outcome (Store.perform r ⟨s, log⟩)))
    (ha' : Step.IsAnswer (Step.outcome (Store.perform r ⟨s', log'⟩))) :
    Step.outcome (Store.perform r ⟨s, log⟩) =
      Step.outcome (Store.perform r ⟨s', log'⟩) ∧
      (Step.final (Store.perform r ⟨s, log⟩)).state.SamePlace
        (Step.final (Store.perform r ⟨s', log'⟩)).state ∧
      (s.outputs = s'.outputs ∨ (∃ x ∈ r.ticked ⟨s, log⟩, 0 < x.size) →
        (Step.final (Store.perform r ⟨s, log⟩)).state.outputs =
          (Step.final (Store.perform r ⟨s', log'⟩)).state.outputs) := by
  cases hr : r.inputs with
  | none =>
      cases r with
      | tick i => exact absurd hr (by simp [Request.inputs])
      | write w => exact absurd hr (by simp [Request.inputs])
      | resize size =>
          obtain ⟨houtcome, hplace, houtputs⟩ := h.resize size log log'
          have hticked : Request.ticked (.resize size) ⟨s, log⟩ = [] := rfl
          rw [hticked]
          exact ⟨houtcome, hplace,
            fun hlanes => houtputs (hlanes.resolve_right (by simp))⟩
  | some i =>
      rw [perform_of_inputs hr] at ha ha' ⊢
      cases hi : s.refusal? i with
      | some cause =>
          have hi' : s'.refusal? i = some cause := (h.refusal?_eq i).symm.trans hi
          have hticked : r.ticked ⟨s, log⟩ = [] := by
            simp only [Request.ticked, hr, tick_of_refusal? hi]
          rw [tick_of_refusal? hi, tick_of_refusal? hi', hticked]
          exact ⟨rfl, h, fun hlanes => hlanes.resolve_right (by simp)⟩
      | none =>
          have hadmits := (refusal?_eq_none_iff i).1 hi
          have htick := tick_of_isAnswer hs hadmits ha
          have hticked : r.ticked ⟨s, log⟩ = [⟨i, s.size⟩] := by
            simp only [Request.ticked, hr, htick]
          rw [htick, tick_of_isAnswer hs' ((h.admits_iff i).1 hadmits) ha', hticked]
          refine ⟨rfl, h.next hs hs' hadmits, fun hlanes => h.outputs_next hs hs' ?_ i⟩
          simpa using hlanes

theorem after (h : s.SamePlace s') (hs : s.WellFormed c) (hs' : s'.WellFormed c')
    {rs : List Request} {log log' : Array Event}
    (ha : Step.Answered Store.perform rs ⟨s, log⟩)
    (ha' : Step.Answered Store.perform rs ⟨s', log'⟩) :
    Step.outcomes Store.perform rs ⟨s, log⟩ =
      Step.outcomes Store.perform rs ⟨s', log'⟩ ∧
      (Step.after Store.perform rs ⟨s, log⟩).state.SamePlace
        (Step.after Store.perform rs ⟨s', log'⟩).state ∧
      (s.outputs = s'.outputs ∨ (∃ x ∈ history rs ⟨s, log⟩, 0 < x.size) →
        (Step.after Store.perform rs ⟨s, log⟩).state.outputs =
          (Step.after Store.perform rs ⟨s', log'⟩).state.outputs) := by
  induction rs generalizing s s' log log' with
  | nil => exact ⟨rfl, h, fun hlanes => hlanes.resolve_right (by simp)⟩
  | cons r rs ih =>
      rw [Step.answered_cons] at ha ha'
      obtain ⟨houtcome, hplace, hhead⟩ := h.perform hs hs' ha.1 ha'.1
      obtain ⟨houtcomes, hend, htail⟩ :=
        ih hplace (hs.final_perform r log) (hs'.final_perform r log') ha.2 ha'.2
      rw [Step.outcomes_cons, Step.outcomes_cons, houtcome]
      refine ⟨congrArg _ houtcomes, hend, fun hlanes => htail ?_⟩
      -- The tick that puts words on the lanes was the request at hand, or it is yet
      -- to come.
      rw [history_cons] at hlanes
      rcases hlanes with hlanes | ⟨x, hx, hsize⟩
      · exact .inl (hhead (.inl hlanes))
      · rcases List.mem_append.1 hx with hx | hx
        · exact .inl (hhead (.inr ⟨x, hx, hsize⟩))
        · exact .inr ⟨x, hx, hsize⟩

end SamePlace

/-- Past the ports, the same words are read in both blocks. -/
def SameWords (c : Config) (s s' : Store) : Prop :=
  ∀ lane < c.banks, ∀ address < c.depth, s.peek lane address = s'.peek lane address

theorem sameMemory_of_sameWords (hs : s.WellFormed c) (hs' : s'.WellFormed c')
    (hbanks : c.banks = c'.banks) (hdepth : c.depth = c'.depth)
    (hsize : s.size = s'.size) (h : SameWords c s s') : s.SameMemory s' := by
  refine ⟨?_, ?_, hsize, fun {lane address} hl ha => ?_⟩
  · rw [hs.width_eq, hs'.width_eq, hbanks]
  · rw [hs.storeDepth_eq, hs'.storeDepth_eq, hdepth]
  · rw [hs.width_eq] at hl
    rw [hs.storeDepth_eq] at ha
    have hpeek := h lane hl address ha
    rw [peek_eq hs hl ha, peek_eq hs' (hbanks ▸ hl) (hdepth ▸ ha)] at hpeek
    exact Except.ok.inj hpeek

theorem SameMemory.sameWords (h : s.SameMemory s') (hs : s.WellFormed c)
    (hs' : s'.WellFormed c') :
    SameWords c s s' := by
  intro lane hl address ha
  have hbanks : c.banks = c'.banks := by
    rw [← hs.width_eq, ← hs'.width_eq, h.width_eq]
  have hdepth : c.depth = c'.depth := by
    rw [← hs.storeDepth_eq, ← hs'.storeDepth_eq, h.depth_eq]
  rw [peek_eq hs hl ha, peek_eq hs' (hbanks ▸ hl) (hdepth ▸ ha),
    h.word_eq (hs.width_eq.symm ▸ hl) (hs.storeDepth_eq.symm ▸ ha)]

/-- Whatever is asked of both blocks, as far as it is answered, they answer alike;
and then read addresses, position, running flag, size and words are the same, and so
are the lanes once a tick had something to stream. -/
def Replays (c : Config) (t t' : Logged Store) : Prop :=
  ∀ rs, Step.Answered perform rs t → Step.Answered perform rs t' →
    let s := (Step.after perform rs t).state
    let s' := (Step.after perform rs t').state
    Step.outcomes perform rs t = Step.outcomes perform rs t' ∧
      s.addresses = s'.addresses ∧ s.sequencer.position = s'.sequencer.position ∧
      s.sequencer.running = s'.sequencer.running ∧ s.size = s'.size ∧ SameWords c s s' ∧
      ((∃ x ∈ history rs t, 0 < x.size) → s.outputs = s'.outputs)

theorem SamePlace.replays {t t' : Logged Store} (h : t.state.SamePlace t'.state)
    (ht : t.state.WellFormed c) (ht' : t'.state.WellFormed c') : Replays c t t' := by
  intro rs ha ha' s s'
  have hs : s.WellFormed c := wellFormed_after ht rs t.log
  have hs' : s'.WellFormed c' := wellFormed_after ht' rs t'.log
  obtain ⟨houtcomes, hplace, houtputs⟩ := h.after ht ht' ha ha'
  exact ⟨houtcomes, hplace.addresses_eq hs hs',
    congrArg Sequencer.position hplace.sequencer_eq,
    congrArg Sequencer.running hplace.sequencer_eq, hplace.size_eq,
    hplace.sameWords hs hs', fun hx => houtputs (.inr hx)⟩

/-- A reset forgets the past. When two blocks of the same geometry, with the same
size and the same words but whatever history, are ticked with a reset and the same
command, they replay each other from there on: requests, resized or refused ones
among them, are answered alike and leave the same state, and from the first tick
that has something to stream the same words are on the lanes. The runs may be cut
short after any request, so this holds after each of them. In particular a block
that was reset replays one that has not been started, and overflows are as far away
as ever. Whether there is something to stream at the reset itself does not
matter. -/
theorem reset_forgets {t t' : Logged Store} (ht : Reachable c t) (ht' : Reachable c' t')
    (hbanks : c.banks = c'.banks) (hdepth : c.depth = c'.depth)
    (hsize : t.state.size = t'.state.size) (hwords : SameWords c t.state t'.state)
    {i i' : Inputs} (hreset : i.reset = true) (hreset' : i'.reset = true)
    (hw : i.write = i'.write) (hok : (Step.outcome (tick i t)).isOk = true)
    (hok' : (Step.outcome (tick i' t')).isOk = true) :
    let u := Step.final (tick i t)
    let u' := Step.final (tick i' t')
    Replays c u u' ∧
      (∀ v, Reachable c' v → v.state.sequencer.running = false →
        u.state.size = v.state.size →
        SameWords c u.state v.state → Replays c u v) ∧
      ∀ n rs, t.state.CountedBy n → t'.state.CountedBy n →
        n + 1 + ticksIn rs < Checked.limit →
        Step.Answered perform rs u ∧ Step.Answered perform rs u' := by
  have hs := ht.wellFormed
  have hs' := ht'.wellFormed
  obtain ⟨hi, htick⟩ := tick_of_isOk (s := t.state) hs hok
  obtain ⟨hi', htick'⟩ := tick_of_isOk (s := t'.state) hs' hok'
  have hmemory := sameMemory_of_sameWords hs hs' hbanks hdepth hsize hwords
  intro u u'
  have hu : u = ⟨t.state.next i, _⟩ := congrArg Step.final htick
  have hu' : u' = ⟨t'.state.next i', _⟩ := congrArg Step.final htick'
  have hplace : u.state.SamePlace u'.state := by
    rw [hu, hu']
    exact hmemory.next_of_reset hs hs' hw hi hreset hreset'
  have hwell : u.state.WellFormed c := hs.final_tick i t.log
  have hwell' : u'.state.WellFormed c' := hs'.final_tick i' t'.log
  refine ⟨hplace.replays hwell hwell', fun v hv hstopped hsize hwords => ?_,
    fun n rs hcount hcount' hlt => ?_⟩
  · have hv' := hv.wellFormed
    have hsequencer : u.state.sequencer = v.state.sequencer := by
      rw [hv'.within.eq_stopped hstopped, hu, sequencer_next,
        Sequencer.advance_of_reset hreset]
    have hmemory' := sameMemory_of_sameWords hwell hv' hbanks hdepth hsize hwords
    exact SamePlace.replays ⟨hmemory', hsequencer⟩ hwell hv'
  · rw [hu, hu']
    exact ⟨(answered_of_ticks_lt (hs.next i) (hcount.next i) rs hlt _).2,
      (answered_of_ticks_lt (hs'.next i') (hcount'.next i') rs hlt _).2⟩

/-- One block is reset in its second cycle, with other things on its lanes than the
other, which is reset before it was ever started. In both streams that follow, a
command and a size are refused. -/
theorem replay_after_reset_in_stream :
    let t := Step.after perform
      [.resize 3, .write ⟨0, 0, 5⟩, .write ⟨1, 2, 6⟩, .tick ⟨none, true, false⟩,
        .tick .idle, .tick .idle, .tick .idle]
      ⟨initial ⟨2, 4, .sequential, false⟩, #[]⟩
    let t' := Step.after perform [.write ⟨1, 2, 6⟩, .write ⟨0, 0, 5⟩, .resize 3]
      ⟨initial ⟨2, 4, .parallel, true⟩, #[]⟩
    let u := Step.final (tick ⟨some ⟨1, 0, 7⟩, false, true⟩ t)
    let u' := Step.final (tick ⟨some ⟨1, 0, 7⟩, true, true⟩ t')
    let rs : List Request :=
      [.write ⟨2, 0, 1⟩, .tick ⟨none, true, false⟩, .resize 2, .tick .idle]
    t.state.outputs ≠ t'.state.outputs ∧ t.state.sequencer ≠ t'.state.sequencer ∧
      Step.outcomes perform rs u = Step.outcomes perform rs u' ∧
      (Step.after perform rs u).state.outputs =
        (Step.after perform rs u').state.outputs ∧
      (Step.after perform rs u).state.outputs = [0, 7] := by
  intro t t' u u' rs
  have ht : Reachable ⟨2, 4, .sequential, false⟩ t := ⟨_, _, _, rfl, rfl⟩
  have ht' : Reachable ⟨2, 4, .parallel, true⟩ t' := ⟨_, _, _, rfl, rfl⟩
  have hwords : SameWords ⟨2, 4, .sequential, false⟩ t.state t'.state := by
    have hsame : ∀ lane < 2, ∀ address < 4,
        t.state.word lane address = t'.state.word lane address := by decide +kernel
    intro lane hl address ha
    rw [peek_eq ht.wellFormed hl ha, peek_eq ht'.wellFormed hl ha,
      hsame lane hl address ha]
  have hok : (Step.outcome (tick ⟨some ⟨1, 0, 7⟩, false, true⟩ t)).isOk = true := by
    decide +kernel
  have hok' : (Step.outcome (tick ⟨some ⟨1, 0, 7⟩, true, true⟩ t')).isOk = true := by
    decide +kernel
  obtain ⟨hreplays, -⟩ :=
    reset_forgets ht ht' rfl rfl (by decide +kernel) hwords rfl rfl rfl hok hok'
  obtain ⟨houtcomes, -, -, -, -, -, houtputs⟩ :=
    hreplays rs (by decide +kernel) (by decide +kernel)
  exact ⟨by decide +kernel, by decide +kernel, houtcomes, houtputs (by decide +kernel),
    by decide +kernel⟩

end Store

end Wavefront
