import Wavefront.Proofs.Store.Transition

/-!
# What every run of a block keeps

A block is driven by requests, `Store.perform`, accepted or refused, in any order.
Each of them keeps the block well-formed, even one that overflows
(`WellFormed.final_perform`), so every block that is ever reached is well-formed
(`wellFormed_after`, `Reachable.wellFormed`). `representation_invariant` spells out
what that says about its registers, its banks and its read addresses.
-/

namespace Wavefront

namespace Store

variable {c : Config} {s : Store}

/-- What a request presents to the block in a tick, if it is one. -/
def Request.inputs : Request → Option Inputs
  | .resize _ => none
  | .tick i => some i
  | .write w => some (.ofWrite w)

theorem perform_of_inputs {r : Request} {i : Inputs} (h : r.inputs = some i) :
    perform r = tick i := by
  cases r with
  | resize size => exact absurd h (by simp [Request.inputs])
  | tick j => exact congrArg tick (Option.some.inj h)
  | write w => exact congrArg tick (Option.some.inj h)

/-! ## Changing the streaming size -/

theorem resize_of_lt {size : Nat} (h : s.depth < size) (log : Array Event) :
    resize size ⟨s, log⟩ =
      .error (.rejected (.sizeExceedsDepth size s.depth)) ⟨s, log⟩ := by
  simp [resize, Step.bind_apply, Step.observe_apply, Step.reject_apply, h]

theorem resize_of_running {size : Nat} (h : size ≤ s.depth)
    (hr : s.sequencer.running = true) (log : Array Event) :
    resize size ⟨s, log⟩ = .error (.rejected .sizeChangeWhileRunning) ⟨s, log⟩ := by
  simp [resize, Step.bind_apply, Step.observe_apply, Step.reject_apply, hr,
    Nat.not_lt.2 h]

theorem resize_of_stopped {size : Nat} (h : size ≤ s.depth)
    (hr : s.sequencer.running = false) (log : Array Event) :
    resize size ⟨s, log⟩ =
      .ok () ⟨{ s with size := size }, log.push (.resized s.size size)⟩ := by
  simp [resize, Step.bind_apply, Step.observe_apply, Step.update_apply, Step.emit_apply,
    hr, Nat.not_lt.2 h]

theorem resize_outcome (size : Nat) (s : Store) (log : Array Event) :
    (size ≤ s.depth ∧ s.sequencer.running = false) ∧
        resize size ⟨s, log⟩ =
          .ok () ⟨{ s with size := size }, log.push (.resized s.size size)⟩ ∨
      ¬ (size ≤ s.depth ∧ s.sequencer.running = false) ∧
        ∃ cause, resize size ⟨s, log⟩ = .error (.rejected cause) ⟨s, log⟩ := by
  rcases Nat.lt_or_ge s.depth size with hs | hs
  · exact .inr ⟨fun h => Nat.not_lt.2 h.1 hs, _, resize_of_lt hs log⟩
  · cases hr : s.sequencer.running with
    | true => exact .inr ⟨fun h => absurd h.2 (by simp), _, resize_of_running hs hr log⟩
    | false => exact .inl ⟨⟨hs, rfl⟩, resize_of_stopped hs hr log⟩

/-! ## Refused ticks -/

theorem admits_iff (h : s.WellFormed c) (i : Inputs) :
    s.Admits i ↔ ∀ w, i.write = some w → w.bank < c.banks ∧ w.address < c.depth := by
  simp only [Admits, Accepts, h.width_eq, h.storeDepth_eq]

theorem check_of_not_admits {i : Inputs} (h : ¬ s.Admits i) :
    ∃ w cause, i.write = some w ∧ s.check w = .error (.rejected cause) := by
  simp only [Admits, Classical.not_forall] at h
  obtain ⟨w, hw, hrefused⟩ := h
  rcases Nat.lt_or_ge w.bank s.width with hb | hb
  · have ha : s.depth ≤ w.address := Nat.not_lt.1 fun ha => hrefused ⟨hb, ha⟩
    exact ⟨w, _, hw, check_of_address hb ha⟩
  · exact ⟨w, _, hw, check_of_bank hb⟩

theorem tick_of_not_admits {i : Inputs} (h : ¬ s.Admits i) (log : Array Event) :
    ∃ cause, tick i ⟨s, log⟩ = .error (.rejected cause) ⟨s, log⟩ := by
  obtain ⟨w, cause, hw, hcheck⟩ := check_of_not_admits h
  exact ⟨cause, tick_of_check hw hcheck log⟩

theorem tick_of_isAnswer (h : s.WellFormed c) {i : Inputs} (hi : s.Admits i)
    {log : Array Event} (ha : Step.IsAnswer (Step.outcome (tick i ⟨s, log⟩))) :
    tick i ⟨s, log⟩ = .ok () ⟨s.next i, log ++ (s.events i).toArray⟩ := by
  rcases tick_outcome h hi log with hok | ⟨-, banks, router, log', herr, -⟩
  · exact hok
  · rw [herr] at ha
    exact ha.elim

theorem tick_of_isOk (h : s.WellFormed c) {i : Inputs} {log : Array Event}
    (hok : (Step.outcome (tick i ⟨s, log⟩)).isOk = true) :
    s.Admits i ∧ tick i ⟨s, log⟩ = .ok () ⟨s.next i, log ++ (s.events i).toArray⟩ := by
  by_cases hi : s.Admits i
  · exact ⟨hi, tick_of_isAnswer h hi (Step.isAnswer_of_isOk hok)⟩
  · obtain ⟨cause, herr⟩ := tick_of_not_admits hi log
    rw [herr] at hok
    exact absurd hok (by simp)

/-! ## Well-formed blocks stay well-formed -/

namespace WellFormed

theorem next (h : s.WellFormed c) (i : Inputs) : (s.next i).WellFormed c := by
  refine ⟨h.buildable, h.config_eq, ?_, ?_, ?_, h.places_eq, h.size_le, ?_⟩
  · rw [width_next, h.width_eq]
  · intro lane b' hb'
    obtain ⟨b, hb, rfl⟩ := bank_of_next hb'
    rw [Bank.index_next, h.index_eq hb]
  · intro lane b' hb'
    obtain ⟨b, hb, rfl⟩ := bank_of_next hb'
    rw [Bank.depth_next, h.depth_eq hb]
  · exact h.within.advance i.start i.reset

theorem sequencer_next_of_moving (h : s.WellFormed c) {i : Inputs}
    (hreset : i.reset = false) (hmoving : (i.start || s.sequencer.running) = true) :
    (s.next i).sequencer =
      ⟨if s.size = 0 then 0 else (s.sequencer.position + 1) % s.size, true⟩ := by
  rw [Store.sequencer_next, Sequencer.advance_of_moving hreset hmoving]
  exact congrArg (Sequencer.mk · true) h.within.successor_eq

/-- A tick that overflows has changed some banks and perhaps the router. -/
theorem of_alike (h : s.WellFormed c) {banks : Array Bank}
    (hb : BanksAlike s.banks banks) (router : Router) :
    WellFormed c { s with banks := banks, router := router } := by
  refine ⟨h.buildable, h.config_eq, hb.size_eq.trans h.width_eq, ?_, ?_, h.places_eq,
    h.size_le, h.within⟩
  · intro lane b' hb'
    obtain ⟨b, hb, halike⟩ := hb.alike hb'
    exact halike.index_eq.trans (h.index_eq hb)
  · intro lane b' hb'
    obtain ⟨b, hb, halike⟩ := hb.alike hb'
    exact halike.depth_eq.trans (h.depth_eq hb)

theorem resize (h : s.WellFormed c) {size : Nat} (hs : size ≤ c.depth)
    (hr : s.sequencer.running = false) : WellFormed c { s with size := size } :=
  ⟨h.buildable, h.config_eq, h.width_eq, h.index_eq, h.depth_eq, h.places_eq, hs,
    h.within.resize hr⟩

theorem final_resize (h : s.WellFormed c) (size : Nat) (log : Array Event) :
    (Step.final (Store.resize size ⟨s, log⟩)).state.WellFormed c := by
  rcases resize_outcome size s log with ⟨⟨hs, hr⟩, hok⟩ | ⟨-, cause, herr⟩
  · rw [hok]
    exact h.resize (h.storeDepth_eq ▸ hs) hr
  · rw [herr]
    exact h

theorem final_tick (h : s.WellFormed c) (i : Inputs) (log : Array Event) :
    (Step.final (tick i ⟨s, log⟩)).state.WellFormed c := by
  by_cases hi : s.Admits i
  · rcases tick_outcome h hi log with hok | ⟨-, banks, router, log', herr, halike⟩
    · rw [hok]
      exact h.next i
    · rw [herr]
      exact h.of_alike halike router
  · obtain ⟨cause, herr⟩ := tick_of_not_admits hi log
    rw [herr]
    exact h

theorem final_perform (h : s.WellFormed c) (r : Request) (log : Array Event) :
    (Step.final (perform r ⟨s, log⟩)).state.WellFormed c := by
  cases r with
  | resize size => exact h.final_resize size log
  | tick i => exact h.final_tick i log
  | write w => exact h.final_tick (.ofWrite w) log

end WellFormed

theorem wellFormed_after (h : s.WellFormed c) (rs : List Request) (log : Array Event) :
    (Step.after perform rs ⟨s, log⟩).state.WellFormed c :=
  Step.after_induction (I := fun t : Logged Store => t.state.WellFormed c) h
    (fun r t ht => ht.final_perform r t.log) rs

/-- A run of a new block of the configuration `c` leads there. -/
def Reachable (c : Config) (t : Logged Store) : Prop :=
  ∃ s₀ rs log, new c = .ok s₀ ∧ t = Step.after perform rs ⟨s₀, log⟩

theorem Reachable.wellFormed {t : Logged Store} (h : Reachable c t) :
    t.state.WellFormed c := by
  obtain ⟨s₀, rs, log, hnew, rfl⟩ := h
  obtain ⟨hc, rfl⟩ := new_eq_ok_iff.1 hnew
  exact wellFormed_after (wellFormed_initial hc) rs log

/-- The representation of a block, after every run of it: the size fits the banks,
the position lies in the cycle of that size and at its beginning when the sequencer
is stopped, banks and places are those the block was built with, and the read
addresses lie below the size. -/
theorem representation_invariant {s₀ : Store} (h : new c = .ok s₀) (rs : List Request)
    (log : Array Event) :
    let s := (Step.after perform rs ⟨s₀, log⟩).state
    s.size ≤ c.depth ∧
      (0 < s.size → s.sequencer.position < s.size) ∧
      (s.size = 0 → s.sequencer.position = 0) ∧
      (s.sequencer.running = false → s.sequencer.position = 0) ∧
      s.banks.size = c.banks ∧ s.places.length = c.banks ∧
      (∀ i < c.banks, s.places[i]? = some ⟨i⟩ ∧
        ∃ b, s.banks[i]? = some b ∧ b.index = i ∧ b.cells.size = c.depth) ∧
      (∃ addresses, s.addresses = .ok addresses ∧ addresses.length = c.banks ∧
        (s.size = 0 → ∀ a ∈ addresses, a = none) ∧
        (0 < s.size → ∀ a ∈ addresses, ∃ n, a = some n ∧ n < s.size)) ∧
      s.config = c := by
  obtain ⟨hc, rfl⟩ := new_eq_ok_iff.1 h
  intro s
  have hs : s.WellFormed c := wellFormed_after (wellFormed_initial hc) rs log
  refine ⟨hs.size_le, hs.within.position_lt, hs.within.position_eq, hs.within.stopped,
    hs.width_eq, ?_, ?_, ?_, hs.config_eq⟩
  · rw [hs.places_eq, List.length_map, List.length_range]
  · intro i hi
    obtain ⟨b, hb⟩ := hs.bank_of_lane hi
    refine ⟨?_, b, hb, hs.index_eq hb, hs.depth_eq hb⟩
    simp [hs.places_eq, hi]
  · refine ⟨_, hs.addresses_eq, by simp, ?_, ?_⟩
    · intro hz a ha
      obtain ⟨lane, -, rfl⟩ := List.mem_map.1 ha
      exact readAddress_of_size_eq hz lane
    · intro hz a ha
      obtain ⟨lane, -, rfl⟩ := List.mem_map.1 ha
      refine ⟨_, readAddress_of_size_pos hz lane, ?_⟩
      exact readAddress_lt (readAddress_of_size_pos hz lane)

/-- A stream of three words in its third place, whose size could not be cut to
one. -/
theorem position_lt_after_refused_resize :
    let s := (Step.after perform
      [.resize 3, .tick ⟨none, true, false⟩, .tick .idle, .resize 1]
      ⟨initial ⟨3, 4, .parallel, false⟩, #[]⟩).state
    s.size = 3 ∧ s.sequencer.position = 2 ∧ s.sequencer.position < s.size := by
  have hnew : new ⟨3, 4, .parallel, false⟩ = .ok (initial ⟨3, 4, .parallel, false⟩) :=
    rfl
  obtain ⟨-, hlt, -⟩ := representation_invariant hnew
    [.resize 3, .tick ⟨none, true, false⟩, .tick .idle, .resize 1] #[]
  exact ⟨by decide +kernel, by decide +kernel, hlt (by decide +kernel)⟩

end Store

end Wavefront
