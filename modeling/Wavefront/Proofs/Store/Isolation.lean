import Wavefront.Proofs.Store.Counters

/-!
# Lanes are isolated from each other

A lane sees its own bank, the sequencer and the size, `Store.SameFor`. Of the inputs
of a tick it sees the pulses, and the command if its bank is named there,
`Inputs.seenBy`. What the lane sees after a tick is made of what it saw before and
of what it sees of the inputs (`SameFor.next`). So two runs of a block that look the
same to a lane leave it the same, whatever is written to the other banks:
`lane_isolation`.
-/

namespace Wavefront

/-- What a lane sees of the inputs of a tick: the pulses, and the command if it is
for the bank of that lane. -/
def Inputs.seenBy (lane : Nat) (i : Inputs) : Inputs :=
  { i with write := i.write.filter fun w => w.bank = lane }

namespace Store

def Request.seenBy (lane : Nat) (r : Request) : Request :=
  match r.inputs with
  | none => r
  | some i => .tick (i.seenBy lane)

/-- The request names a word of a bank if it writes at all. -/
def Request.InRange (c : Config) (r : Request) : Prop :=
  ∀ i ∈ r.inputs, ∀ w ∈ i.write, w.bank < c.banks ∧ w.address < c.depth

instance (c : Config) (r : Request) : Decidable (r.InRange c) :=
  inferInstanceAs (Decidable
    (∀ i ∈ r.inputs, ∀ w ∈ i.write, w.bank < c.banks ∧ w.address < c.depth))

theorem Request.seenBy_cases {lane : Nat} {r r' : Request}
    (h : r.seenBy lane = r'.seenBy lane) :
    (∃ size, r = .resize size ∧ r' = .resize size) ∨
      ∃ i j, r.inputs = some i ∧ r'.inputs = some j ∧
        i.seenBy lane = j.seenBy lane := by
  cases r <;> cases r' <;> simp_all [seenBy, inputs]

theorem drive_seenBy (i : Inputs) (s : Store) (lane : Nat) :
    s.drive (i.seenBy lane) lane = s.drive i lane := by
  cases hw : i.write with
  | none => simp [drive, Inputs.routed, Inputs.seenBy, hw]
  | some w =>
      by_cases hlane : w.bank = lane
      · simp [drive, Inputs.routed, Inputs.seenBy, Option.filter, hw, hlane]
      · simp [drive, Inputs.routed, Inputs.seenBy, Option.filter, hw, hlane]

/-- The lane sees the same in both blocks. -/
structure SameFor (lane : Nat) (s s' : Store) : Prop where
  bank_eq : s.banks[lane]? = s'.banks[lane]?
  sequencer_eq : s.sequencer = s'.sequencer
  size_eq : s.size = s'.size

namespace SameFor

variable {c : Config} {lane : Nat} {s s' : Store}

theorem readAddress_eq (h : s.SameFor lane s') (other : Nat) :
    s.readAddress other = s'.readAddress other := by
  rw [readAddress, readAddress, h.sequencer_eq, h.size_eq]

theorem drive_eq (h : s.SameFor lane s') {i j : Inputs}
    (hij : i.seenBy lane = j.seenBy lane) :
    s.drive i lane = s'.drive j lane := by
  rw [← drive_seenBy i, ← drive_seenBy j, hij, drive, drive, h.readAddress_eq]

theorem next (h : s.SameFor lane s') {i j : Inputs}
    (hij : i.seenBy lane = j.seenBy lane) :
    (s.next i).SameFor lane (s'.next j) := by
  refine ⟨?_, ?_, h.size_eq⟩
  · rw [getElem?_banks_next, getElem?_banks_next, h.bank_eq, h.drive_eq hij]
  · obtain ⟨-, hstart, hreset⟩ := Inputs.mk.inj hij
    rw [sequencer_next, sequencer_next, h.sequencer_eq, h.size_eq, hstart, hreset]

theorem resize (hs : s.WellFormed c) (hs' : s'.WellFormed c) (h : s.SameFor lane s')
    (size : Nat) (log log' : Array Event) :
    (Step.final (Store.resize size ⟨s, log⟩)).state.SameFor lane
      (Step.final (Store.resize size ⟨s', log'⟩)).state := by
  have hdepth : s.depth = s'.depth := hs.storeDepth_eq.trans hs'.storeDepth_eq.symm
  rcases resize_outcome size s log with ⟨hfits, hok⟩ | ⟨hrefused, cause, herr⟩
  · rw [hdepth, h.sequencer_eq] at hfits
    rw [hok, resize_of_stopped hfits.1 hfits.2]
    exact ⟨h.bank_eq, h.sequencer_eq, rfl⟩
  · rw [hdepth, h.sequencer_eq] at hrefused
    rcases resize_outcome size s' log' with ⟨hfits, -⟩ | ⟨-, cause', herr'⟩
    · exact absurd hfits hrefused
    · rw [herr, herr']
      exact h

theorem perform (hs : s.WellFormed c) (hs' : s'.WellFormed c) (h : s.SameFor lane s')
    {r r' : Request} (hsame : r.seenBy lane = r'.seenBy lane) (hr : r.InRange c)
    (hr' : r'.InRange c) {log log' : Array Event}
    (ha : Step.IsAnswer (Step.outcome (Store.perform r ⟨s, log⟩)))
    (ha' : Step.IsAnswer (Step.outcome (Store.perform r' ⟨s', log'⟩))) :
    (Step.final (Store.perform r ⟨s, log⟩)).state.SameFor lane
      (Step.final (Store.perform r' ⟨s', log'⟩)).state := by
  obtain ⟨size, rfl, rfl⟩ | ⟨i, j, hi, hj, hij⟩ := Request.seenBy_cases hsame
  · exact h.resize hs hs' size log log'
  · have hadmits : s.Admits i := (admits_iff hs i).2 (hr i hi)
    have hadmits' : s'.Admits j := (admits_iff hs' j).2 (hr' j hj)
    rw [perform_of_inputs hi] at ha ⊢
    rw [perform_of_inputs hj] at ha' ⊢
    rw [tick_of_isAnswer hs hadmits ha, tick_of_isAnswer hs' hadmits' ha']
    exact h.next hij

theorem after (hs : s.WellFormed c) (hs' : s'.WellFormed c) (h : s.SameFor lane s')
    {rs rs' : List Request}
    (hsame : rs.map (Request.seenBy lane) = rs'.map (Request.seenBy lane))
    (hrs : ∀ r ∈ rs, r.InRange c) (hrs' : ∀ r ∈ rs', r.InRange c)
    {log log' : Array Event} (ha : Step.Answered Store.perform rs ⟨s, log⟩)
    (ha' : Step.Answered Store.perform rs' ⟨s', log'⟩) :
    (Step.after Store.perform rs ⟨s, log⟩).state.SameFor lane
      (Step.after Store.perform rs' ⟨s', log'⟩).state := by
  induction rs generalizing rs' s s' log log' with
  | nil =>
      obtain rfl := List.map_eq_nil_iff.1 hsame.symm
      exact h
  | cons r rs ih =>
      obtain ⟨r', rs', rfl, hr, hsame⟩ := List.map_eq_cons_iff.1 hsame.symm
      obtain ⟨hhead, htail⟩ := List.forall_mem_cons.1 hrs
      obtain ⟨hhead', htail'⟩ := List.forall_mem_cons.1 hrs'
      rw [Step.answered_cons] at ha ha'
      rw [Step.after_cons, Step.after_cons]
      exact ih (hs.final_perform r log) (hs'.final_perform r' log')
        (h.perform hs hs' hr.symm hhead hhead' ha.1 ha'.1) hsame.symm htail htail' ha.2
          ha'.2

/-! ### What can be read off the lane -/

theorem outputs_eq (h : s.SameFor lane s') : s.outputs[lane]? = s'.outputs[lane]? := by
  simp only [outputs, List.getElem?_map, Array.getElem?_toList, h.bank_eq]

theorem bank_ok_eq (hs : s.WellFormed c) (hs' : s'.WellFormed c)
    (h : s.SameFor lane s') :
    s.bank lane = s'.bank lane := by
  rw [bank, bank, h.bank_eq, hs.width_eq, hs'.width_eq]

theorem addresses_eq (hs : s.WellFormed c) (hs' : s'.WellFormed c)
    (h : s.SameFor lane s') :
    s.addresses = s'.addresses := by
  rw [hs.addresses_eq, hs'.addresses_eq, funext h.readAddress_eq]

end SameFor

theorem ticksIn_of_seenBy {lane : Nat} {rs rs' : List Request}
    (h : rs.map (Request.seenBy lane) = rs'.map (Request.seenBy lane)) :
    ticksIn rs = ticksIn rs' := by
  have hticks : ∀ r : Request, (r.seenBy lane).ticks = r.ticks := by
    intro r
    cases r <;> rfl
  induction rs generalizing rs' with
  | nil => rw [List.map_eq_nil_iff.1 h.symm]
  | cons r rs ih =>
      obtain ⟨r', rs', rfl, hr, h⟩ := List.map_eq_cons_iff.1 h.symm
      rw [ticksIn_cons, ticksIn_cons, ih h.symm, ← hticks r, ← hr, hticks]

/-- What is written to other banks does not reach a lane. Two runs of a block whose
requests look the same to a lane, and whose commands are in range, leave the lane
with the same word on it, and its bank with the same words and the same counters;
position, running flag, size and read addresses are the same. The runs may be cut
short after any of their requests, so this holds after each of them. A run stops
short of an answer only when a counter overflows, and with fewer ticks than a
counter can count that does not happen. -/
theorem lane_isolation {c : Config} {s₀ : Store} (h : new c = .ok s₀) {lane : Nat}
    (hl : lane < c.banks) {rs rs' : List Request}
    (hsame : rs.map (Request.seenBy lane) = rs'.map (Request.seenBy lane))
    (hrs : ∀ r ∈ rs, r.InRange c) (hrs' : ∀ r ∈ rs', r.InRange c)
    (log log' : Array Event) :
    (ticksIn rs < Checked.limit →
      Step.Answered perform rs ⟨s₀, log⟩ ∧ Step.Answered perform rs' ⟨s₀, log'⟩) ∧
      (Step.Answered perform rs ⟨s₀, log⟩ → Step.Answered perform rs' ⟨s₀, log'⟩ →
        let s := (Step.after perform rs ⟨s₀, log⟩).state
        let s' := (Step.after perform rs' ⟨s₀, log'⟩).state
        (∃ v, s.outputs[lane]? = some v ∧ s'.outputs[lane]? = some v) ∧
          (∀ address, s.peek lane address = s'.peek lane address) ∧
          s.usage lane = s'.usage lane ∧
          s.sequencer.position = s'.sequencer.position ∧
          s.sequencer.running = s'.sequencer.running ∧
          s.size = s'.size ∧
          s.addresses = s'.addresses) := by
  obtain ⟨hc, rfl⟩ := new_eq_ok_iff.1 h
  have hinitial := wellFormed_initial hc
  constructor
  · intro hticks
    have hticks' : ticksIn rs' < Checked.limit := ticksIn_of_seenBy hsame ▸ hticks
    exact ⟨(answered_of_ticks_lt hinitial (.initial c) rs (by omega) log).2,
      (answered_of_ticks_lt hinitial (.initial c) rs' (by omega) log').2⟩
  · intro ha ha' s s'
    have hs : s.WellFormed c := wellFormed_after hinitial rs log
    have hs' : s'.WellFormed c := wellFormed_after hinitial rs' log'
    have hlane : s.SameFor lane s' :=
      SameFor.after hinitial hinitial ⟨rfl, rfl, rfl⟩ hsame hrs hrs' ha ha'
    have hbank : s.bank lane = s'.bank lane := hlane.bank_ok_eq hs hs'
    refine ⟨?_, ?_, ?_, congrArg Sequencer.position hlane.sequencer_eq,
      congrArg Sequencer.running hlane.sequencer_eq, hlane.size_eq,
      hlane.addresses_eq hs hs'⟩
    · have hlt : lane < s.outputs.length := by
        rwa [length_outputs, hs.width_eq]
      exact ⟨s.outputs[lane], List.getElem?_eq_getElem hlt,
        hlane.outputs_eq ▸ List.getElem?_eq_getElem hlt⟩
    · intro address
      rw [peek, peek, hbank]
    · rw [usage, usage, hbank]

/-- Lane 1 streams the word that was written to its bank, whatever is done to the
banks beside it. -/
theorem same_lane_beside_other_writes :
    let rs : List Request :=
      [.resize 2, .write ⟨1, 1, 7⟩, .write ⟨0, 1, 5⟩, .tick ⟨none, true, false⟩]
    let rs' : List Request :=
      [.resize 2, .write ⟨1, 1, 7⟩, .tick .idle, .tick ⟨some ⟨2, 0, 9⟩, true, false⟩]
    let s₀ := initial ⟨3, 4, .sequential, false⟩
    (Step.after perform rs ⟨s₀, #[]⟩).state.outputs[1]? = some 7 ∧
      (Step.after perform rs' ⟨s₀, #[]⟩).state.outputs[1]? = some 7 := by
  intro rs rs' s₀
  have hnew : new ⟨3, 4, .sequential, false⟩ = .ok s₀ := rfl
  have hsame : rs.map (Request.seenBy 1) = rs'.map (Request.seenBy 1) := by decide
  obtain ⟨hanswered, hisolated⟩ :=
    lane_isolation hnew (show 1 < 3 by decide) hsame (by decide) (by decide) #[] #[]
  obtain ⟨ha, ha'⟩ := hanswered (by decide)
  obtain ⟨⟨v, hv, hv'⟩, -⟩ := hisolated ha ha'
  have hseven : (Step.after perform rs ⟨s₀, #[]⟩).state.outputs[1]? = some 7 := by
    decide +kernel
  exact ⟨hseven, hv'.trans (hv.symm.trans hseven)⟩

end Store

end Wavefront
