import Wavefront.Proofs.Store.Contents
import Wavefront.Proofs.Store.Counters

/-!
# The block and its shadow

A `Shadow` is the block as its user thinks of it: a word for every bank and address,
a word on every lane, and three registers. Its steps say in a line each what a
request does, without banks, drives, routers or evaluation orders. `lockstep` proves
that the block and its shadow stay together over every run: they accept and refuse
the same requests and show the same words.
-/

namespace Wavefront

/-- The block as its user thinks of it. -/
structure Shadow where
  mem : Nat → Nat → Word
  out : Nat → Word
  size : Nat
  position : Nat
  running : Bool

namespace Shadow

def blank : Shadow := ⟨fun _ _ => 0, fun _ => 0, 0, 0, false⟩

def address (m : Shadow) (lane : Nat) : Option Nat :=
  if m.size = 0 then none else some (((m.position : Int) - lane) % m.size).toNat

/-- Every lane takes up the word at its address, or holds when there is none. -/
def read (m : Shadow) : Shadow :=
  { m with
    out := fun lane =>
      match m.address lane with
      | some a => m.mem lane a
      | none => m.out lane }

def store (w : Write) (m : Shadow) : Shadow :=
  { m with mem := fun bank a =>
    if w.bank = bank ∧ w.address = a then w.data else m.mem bank a }

/-- The position and the running flag move on. -/
def move (start reset : Bool) (m : Shadow) : Shadow :=
  if reset then { m with position := 0, running := false }
  else if start || m.running then
    { m with
      position := if m.size = 0 then 0 else (m.position + 1) % m.size
      running := true }
  else m

/-- A tick: first the lanes are read, then the command is stored, then the position
moves. -/
def tick (i : Inputs) (m : Shadow) : Shadow :=
  (i.write.elim m.read fun w => m.read.store w).move i.start i.reset

/-- Whether a tick is accepted in a block of the given geometry. -/
def Accepts (c : Config) (i : Inputs) : Prop :=
  ∀ w ∈ i.write, w.bank < c.banks ∧ w.address < c.depth

instance (c : Config) (i : Inputs) : Decidable (Accepts c i) :=
  inferInstanceAs (Decidable (∀ w ∈ i.write, w.bank < c.banks ∧ w.address < c.depth))

/-- What an accepted request leads to; a request that is refused leads nowhere. -/
def step (c : Config) : Store.Request → Shadow → Option Shadow
  | .resize n, m =>
      if n ≤ c.depth ∧ m.running = false then some { m with size := n } else none
  | .tick i, m => if Accepts c i then some (m.tick i) else none
  | .write w, m => if Accepts c (.ofWrite w) then some (m.tick (.ofWrite w)) else none

/-- A run: a refused request changes nothing. -/
def after (c : Config) : List Store.Request → Shadow → Shadow
  | [], m => m
  | r :: rs, m => after c rs ((m.step c r).getD m)

/-- Which requests of a run are accepted. -/
def accepted (c : Config) : List Store.Request → Shadow → List Bool
  | [], _ => []
  | r :: rs, m => (m.step c r).isSome :: accepted c rs ((m.step c r).getD m)

theorem accepted_cons (c : Config) (r : Store.Request) (rs : List Store.Request)
    (m : Shadow) :
    accepted c (r :: rs) m =
      (m.step c r).isSome :: accepted c rs ((m.step c r).getD m) := rfl

/-! ## What a tick does to each part of the shadow -/

theorem move_frame (start reset : Bool) (m : Shadow) :
    (m.move start reset).mem = m.mem ∧ (m.move start reset).out = m.out ∧
      (m.move start reset).size = m.size := by
  unfold move
  split
  · exact ⟨rfl, rfl, rfl⟩
  · split <;> exact ⟨rfl, rfl, rfl⟩

theorem mem_tick (i : Inputs) (m : Shadow) (bank a : Nat) :
    (m.tick i).mem bank a =
      i.write.elim (m.mem bank a) fun w =>
        if w.bank = bank ∧ w.address = a then w.data else m.mem bank a := by
  rw [tick, (move_frame i.start i.reset _).1]
  cases i.write <;> rfl

theorem out_tick (i : Inputs) (m : Shadow) (lane : Nat) :
    (m.tick i).out lane = (m.address lane).elim (m.out lane) (m.mem lane) := by
  rw [tick, (move_frame i.start i.reset _).2.1]
  cases i.write <;> cases h : m.address lane <;> simp [store, read, h]

theorem size_tick (i : Inputs) (m : Shadow) : (m.tick i).size = m.size := by
  rw [tick, (move_frame i.start i.reset _).2.2]
  cases i.write <;> rfl

theorem registers_tick (i : Inputs) (m : Shadow) :
    (m.tick i).position = (m.move i.start i.reset).position ∧
      (m.tick i).running = (m.move i.start i.reset).running := by
  have hmove : ∀ m' : Shadow, m'.size = m.size → m'.position = m.position →
      m'.running = m.running →
        (m'.move i.start i.reset).position = (m.move i.start i.reset).position ∧
        (m'.move i.start i.reset).running = (m.move i.start i.reset).running := by
    intro m' hsize hposition hrunning
    simp only [move, hsize, hposition, hrunning]
    split
    · exact ⟨rfl, rfl⟩
    · split
      · exact ⟨rfl, rfl⟩
      · exact ⟨hposition, hrunning⟩
  unfold tick
  cases i.write with
  | none => exact hmove m.read rfl rfl rfl
  | some w => exact hmove (m.read.store w) rfl rfl rfl

end Shadow

namespace Store

/-- The block shows what its shadow has. -/
structure Shows (c : Config) (s : Store) (m : Shadow) : Prop where
  word_eq : ∀ {lane address : Nat}, lane < c.banks → address < c.depth →
    s.word lane address = m.mem lane address
  output_eq : ∀ {lane : Nat}, lane < c.banks → s.output lane = m.out lane
  size_eq : s.size = m.size
  position_eq : s.sequencer.position = m.position
  running_eq : s.sequencer.running = m.running

namespace Shows

variable {c : Config} {s : Store} {m : Shadow}

theorem initial (c : Config) : (initial c).Shows c .blank :=
  ⟨fun {lane address} _ _ => word_initial c lane address,
    fun {lane} _ => output_initial c lane, rfl, rfl, rfl⟩

theorem readAddress_eq (h : s.Shows c m) (lane : Nat) :
    s.readAddress lane = m.address lane := by
  rw [readAddress, Shadow.address, h.size_eq, h.position_eq]

theorem admits_iff_accepts (hs : s.WellFormed c) (i : Inputs) :
    s.Admits i ↔ Shadow.Accepts c i :=
  admits_iff hs i

theorem registers_next (hs : s.WellFormed c) (h : s.Shows c m) (i : Inputs) :
    (s.next i).sequencer.position = (m.tick i).position ∧
      (s.next i).sequencer.running = (m.tick i).running := by
  obtain ⟨hposition, hrunning⟩ := m.registers_tick i
  rw [hposition, hrunning, sequencer_next]
  cases hr : i.reset with
  | true =>
      rw [Sequencer.advance_of_reset rfl]
      exact ⟨rfl, rfl⟩
  | false =>
      cases hm : i.start || s.sequencer.running with
      | true =>
          have hm' : (i.start || m.running) = true := h.running_eq ▸ hm
          rw [Sequencer.advance_of_moving rfl hm]
          simp only [Shadow.move, hm', Bool.false_eq_true, if_false, if_true]
          refine ⟨?_, trivial⟩
          rw [hs.within.successor_eq, h.size_eq, h.position_eq]
      | false =>
          have hm' : (i.start || m.running) = false := h.running_eq ▸ hm
          rw [Bool.or_eq_false_iff] at hm
          rw [Sequencer.advance_of_idle rfl hm.1 hm.2]
          simp only [Shadow.move, hm', Bool.false_eq_true, if_false]
          exact ⟨h.position_eq, h.running_eq⟩

theorem next (hs : s.WellFormed c) (h : s.Shows c m) {i : Inputs} (hi : s.Admits i) :
    (s.next i).Shows c (m.tick i) := by
  obtain ⟨hposition, hrunning⟩ := h.registers_next hs i
  refine ⟨?_, ?_, ?_, hposition, hrunning⟩
  · intro lane address hl ha
    rw [word_next hs hi, Shadow.mem_tick, h.word_eq hl ha]
  · intro lane hl
    rw [output_next, Shadow.out_tick, h.readAddress_eq, h.output_eq hl]
    cases hread : m.address lane with
    | none => rfl
    | some a =>
        -- A lane reads below the size, and so within its bank, where block and
        -- shadow agree.
        have ha : a < c.depth := by
          rw [← h.readAddress_eq] at hread
          exact Nat.lt_of_lt_of_le (readAddress_lt hread) hs.size_le
        exact h.word_eq hl ha
  · rw [size_next, Shadow.size_tick, h.size_eq]

theorem tick (hs : s.WellFormed c) (h : s.Shows c m) (i : Inputs) (log : Array Event)
    (ha : Step.IsAnswer (Step.outcome (Store.tick i ⟨s, log⟩))) :
    (Step.outcome (Store.tick i ⟨s, log⟩)).isOk = (m.step c (.tick i)).isSome ∧
      (Step.final (Store.tick i ⟨s, log⟩)).state.Shows c
        ((m.step c (.tick i)).getD m) := by
  by_cases hi : s.Admits i
  · have hstep : m.step c (.tick i) = some (m.tick i) :=
      if_pos ((admits_iff_accepts hs i).1 hi)
    rw [tick_of_isAnswer hs hi ha, hstep]
    exact ⟨rfl, h.next hs hi⟩
  · have hstep : m.step c (.tick i) = none :=
      if_neg fun hc => hi ((admits_iff_accepts hs i).2 hc)
    obtain ⟨cause, herr⟩ := tick_of_not_admits hi log
    rw [herr, hstep]
    exact ⟨rfl, h⟩

theorem resize (hs : s.WellFormed c) (h : s.Shows c m) (size : Nat)
    (log : Array Event) :
    (Step.outcome (Store.resize size ⟨s, log⟩)).isOk =
      (m.step c (.resize size)).isSome ∧
      (Step.final (Store.resize size ⟨s, log⟩)).state.Shows c
        ((m.step c (.resize size)).getD m) := by
  have hresize := resize_outcome size s log
  rw [hs.storeDepth_eq, h.running_eq] at hresize
  rcases hresize with ⟨haccepted, hok⟩ | ⟨hrefused, cause, herr⟩
  · have hstep : m.step c (.resize size) = some { m with size := size } :=
      if_pos haccepted
    rw [hok, hstep]
    exact ⟨rfl, h.word_eq, h.output_eq, rfl, h.position_eq, h.running_eq⟩
  · have hstep : m.step c (.resize size) = none := if_neg hrefused
    rw [herr, hstep]
    exact ⟨rfl, h⟩

theorem perform (hs : s.WellFormed c) (h : s.Shows c m) (r : Request)
    (log : Array Event) (ha : Step.IsAnswer (Step.outcome (Store.perform r ⟨s, log⟩))) :
    (Step.outcome (Store.perform r ⟨s, log⟩)).isOk = (m.step c r).isSome ∧
      (Step.final (Store.perform r ⟨s, log⟩)).state.Shows c ((m.step c r).getD m) := by
  cases r with
  | resize size => exact h.resize hs size log
  | tick i => exact h.tick hs i log ha
  | write w => exact h.tick hs (.ofWrite w) log ha

theorem after (hs : s.WellFormed c) (h : s.Shows c m) (rs : List Request)
    (log : Array Event) (ha : Step.Answered Store.perform rs ⟨s, log⟩) :
    (Step.outcomes Store.perform rs ⟨s, log⟩).map Except.isOk = m.accepted c rs ∧
      (Step.after Store.perform rs ⟨s, log⟩).state.Shows c (m.after c rs) := by
  induction rs generalizing s m log with
  | nil => exact ⟨rfl, h⟩
  | cons r rs ih =>
      obtain ⟨hr, hrs⟩ := (Step.answered_cons Store.perform r rs ⟨s, log⟩).1 ha
      obtain ⟨hok, hshows⟩ := h.perform hs r log hr
      obtain ⟨hoks, hafter⟩ := ih (hs.final_perform r log) hshows
        (Step.final (Store.perform r ⟨s, log⟩)).log hrs
      refine ⟨?_, hafter⟩
      rw [Step.outcomes_cons, List.map_cons, hok, Shadow.accepted_cons]
      exact congrArg _ hoks

end Shows

/-- The block and its shadow stay in lock step over every run: the same requests are
accepted, and after the run, hence after each of its steps, the banks hold the
words, the lanes carry the words, and the registers have the values that the shadow
has. A run stops short of an answer only when a counter overflows, and with fewer
ticks than a counter can count that does not happen. -/
theorem lockstep {c : Config} {s₀ : Store} (h : new c = .ok s₀) (rs : List Request)
    (log : Array Event) :
    (ticksIn rs < Checked.limit → Step.Answered perform rs ⟨s₀, log⟩) ∧
      (Step.Answered perform rs ⟨s₀, log⟩ →
        let s := (Step.after perform rs ⟨s₀, log⟩).state
        let m := Shadow.blank.after c rs
        (Step.outcomes perform rs ⟨s₀, log⟩).map Except.isOk =
          Shadow.blank.accepted c rs ∧
          (∀ i < c.banks, ∀ a < c.depth, s.peek i a = .ok (m.mem i a)) ∧
          s.outputs = (List.range c.banks).map m.out ∧
          s.size = m.size ∧ s.sequencer.position = m.position ∧
            s.sequencer.running = m.running ∧
          s.addresses = .ok ((List.range c.banks).map m.address)) := by
  obtain ⟨hc, rfl⟩ := new_eq_ok_iff.1 h
  have hs := wellFormed_initial hc
  constructor
  · intro hticks
    exact (answered_of_ticks_lt hs (.initial c) rs (by omega) log).2
  · intro ha s m
    obtain ⟨hoks, hm⟩ := (Shows.initial c).after hs rs log ha
    have hs : s.WellFormed c := wellFormed_after hs rs log
    refine ⟨hoks, ?_, ?_, hm.size_eq, hm.position_eq, hm.running_eq, ?_⟩
    · intro i hi a ha
      rw [peek_eq hs hi ha, hm.word_eq hi ha]
    · rw [outputs_eq hs]
      apply List.map_congr_left
      intro lane hlane
      exact hm.output_eq (List.mem_range.1 hlane)
    · rw [hs.addresses_eq]
      congr 1
      apply List.map_congr_left
      intro lane _
      exact hm.readAddress_eq lane

/-- A run with three refusals, between which two words are streamed. -/
theorem lockstep_around_refusals :
    let rs : List Request :=
      [.resize 5, .resize 2, .write ⟨1, 1, 7⟩, .write ⟨2, 0, 9⟩,
        .tick ⟨none, true, false⟩, .resize 1]
    let t := Step.after perform rs ⟨initial ⟨2, 4, .sequential, false⟩, #[]⟩
    (Step.outcomes perform rs ⟨initial ⟨2, 4, .sequential, false⟩, #[]⟩).map
      Except.isOk =
        [false, true, true, false, true, false] ∧
      t.state.outputs = [0, 7] := by
  intro rs t
  have hnew : new ⟨2, 4, .sequential, false⟩ =
      .ok (initial ⟨2, 4, .sequential, false⟩) := rfl
  obtain ⟨hanswered, hlockstep⟩ := lockstep hnew rs #[]
  obtain ⟨hoks, -, houtputs, -⟩ := hlockstep (hanswered (by decide))
  exact ⟨hoks.trans (by decide), houtputs.trans (by decide)⟩

end Store

end Wavefront
