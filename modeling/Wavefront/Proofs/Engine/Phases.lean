import Mathlib.Data.List.Chain
import Wavefront.Proofs.Engine.History

/-!
# The phases of a recorded run

A cycle is recorded with the registers it began with, so the phases of a run follow
from how one cycle begins where the one before it has ended. `Cycle.Sound` is what
every record says for itself, and `Cycle.Follows` how a cycle comes after another,
as long as nobody but the engine ticks the block: the running flag is what the
pulses have made of it, and a sequencer that is running has moved on by one in a
cycle of the same length (`follows_cycle`). The phases read this off,
`Cycle.Follows.streaming_iff`, and along a stretch of streaming cycles the positions
go round (`position_of_isChain`). `phase_protocol` puts these together.
-/

namespace Wavefront

theorem Sequencer.running_advance (c : Control) (s : Sequencer) :
    (s.advance c).running = (!c.reset && (c.start || s.running)) := by
  cases hreset : c.reset with
  | true => simp [advance_of_reset hreset, stopped]
  | false =>
      cases hmoving : c.start || s.running with
      | true => simp [advance_of_moving hreset hmoving]
      | false =>
          obtain ⟨hstart, hrunning⟩ := Bool.or_eq_false_iff.1 hmoving
          simp [advance_of_idle hreset hstart hrunning, hrunning]

namespace Engine

variable {c : Config} {e f g : Engine} {cs : List Cycle} {x y : Cycle}

/-- What the record of a cycle says for itself: the phase names the tick, a stopped
sequencer is recorded at zero, and every lane with its address. -/
structure Cycle.Sound (c : Config) (x : Cycle) : Prop where
  phase_eq : x.record.phase = .ofTick x.record.running x.inputs
  position_eq : x.record.running = false → x.record.position = 0
  addresses_eq : x.record.addresses = (List.range c.banks).map fun lane : Nat =>
    if x.size = 0 then none
      else some (((x.record.position : Int) - lane) % x.size).toNat

/-- The second cycle began where the first one ended. While the sequencer stands
still the size can be another one. -/
structure Cycle.Follows (x y : Cycle) : Prop where
  running_eq : y.record.running =
    (!x.inputs.reset && (x.inputs.start || x.record.running))
  size_eq : y.record.running = true → y.size = x.size
  position_eq : y.record.running = true →
    y.record.position = if x.size = 0 then 0 else (x.record.position + 1) % x.size

/-! ## What is recorded -/

theorem sound_cycle (h : e.store.WellFormed c) (i : Inputs) : (e.cycle i).Sound c := by
  refine ⟨rfl, h.within.stopped, ?_⟩
  show (List.range e.store.width).map e.store.readAddress = _
  rw [h.width_eq]
  rfl

theorem follows_cycle (h : e.store.WellFormed c) {i : Inputs}
    (hstill : (e.next i).store.Still f.store) (j : Inputs) :
    (e.cycle i).Follows (f.cycle j) := by
  have hrunning : f.store.sequencer.running =
      (!i.reset && (i.start || e.store.sequencer.running)) := by
    rw [hstill.sequencer_eq, store_next, Store.sequencer_next,
      Sequencer.running_advance]
  refine ⟨hrunning, ?_, ?_⟩
  · intro hr
    refine hstill.size_eq ?_
    rwa [← hstill.sequencer_eq]
  · intro hr
    have hr : f.store.sequencer.running = true := hr
    rw [hrunning, Bool.and_eq_true, Bool.not_eq_true'] at hr
    show f.store.sequencer.position = _
    rw [hstill.sequencer_eq, store_next, h.sequencer_next_of_moving hr.1 hr.2]
    rfl

namespace Leads

theorem sound (h : Leads c e cs g) : ∀ x ∈ cs, x.Sound c := by
  induction cs generalizing e with
  | nil => simp
  | cons x cs ih =>
      obtain ⟨f, i, -, hf, rfl, hcs⟩ := h
      exact List.forall_mem_cons.2 ⟨sound_cycle hf i, ih hcs⟩

theorem head (h : Leads c e cs g) :
    ∀ x ∈ cs.head?, ∃ (f : Engine) (i : Inputs), e.store.Still f.store ∧
      x = f.cycle i := by
  cases cs with
  | nil => simp
  | cons x cs =>
      obtain ⟨f, i, hstill, -, rfl, -⟩ := h
      intro x hx
      exact ⟨f, i, hstill, (Option.some.inj hx).symm⟩

theorem isChain (h : Leads c e cs g) : cs.IsChain Cycle.Follows := by
  induction cs generalizing e with
  | nil => exact .nil
  | cons x cs ih =>
      obtain ⟨f, i, -, hf, rfl, hcs⟩ := h
      refine (ih hcs).cons fun y hy => ?_
      obtain ⟨f', j, hstill, rfl⟩ := hcs.head y hy
      exact follows_cycle hf hstill j

end Leads

/-! ## The phases -/

theorem Cycle.Sound.streaming_iff (h : x.Sound c) :
    x.record.phase = .streaming ↔ x.record.running = true := by
  rw [h.phase_eq, Phase.ofTick_eq_streaming_iff]

theorem Cycle.Sound.priming_iff (h : x.Sound c) :
    x.record.phase = .priming ↔
      x.record.running = false ∧ x.inputs.start = true ∧ x.inputs.reset = false := by
  rw [h.phase_eq, Phase.ofTick_eq_priming_iff]

/-- A cycle streams when the one before it was not idle, unless that one was reset
while it streamed. -/
theorem Cycle.Follows.streaming_iff (hx : x.Sound c) (hy : y.Sound c)
    (h : x.Follows y) :
    y.record.phase = .streaming ↔
      x.record.phase = .priming ∨
        x.record.phase = .streaming ∧ x.inputs.reset = false := by
  rw [hy.streaming_iff, hx.priming_iff, hx.streaming_iff, h.running_eq,
    Bool.and_eq_true, Bool.not_eq_true', Bool.or_eq_true]
  cases x.record.running with
  | true => simp
  | false => simp [and_comm]

/-- As long as the sequencer is running the size is the same, and the positions go
round modulo it. -/
theorem position_of_isChain {ys : List Cycle} (h : (x :: ys).IsChain Cycle.Follows)
    (hys : ∀ y ∈ ys, y.record.running = true) {n : Nat}
    (hx : x.record.position = if x.size = 0 then 0 else n % x.size) {j : Nat}
    (hy : (x :: ys)[j]? = some y) :
    y.size = x.size ∧
      y.record.position = if x.size = 0 then 0 else (n + j) % x.size := by
  induction j generalizing x ys n with
  | zero =>
      obtain rfl : x = y := Option.some.inj hy
      exact ⟨rfl, hx⟩
  | succ j ih =>
      cases ys with
      | nil => exact absurd hy (by simp)
      | cons z zs =>
          obtain ⟨hfollows, htail⟩ := List.isChain_cons_cons.1 h
          obtain ⟨hz, hzs⟩ := List.forall_mem_cons.1 hys
          have hsize : z.size = x.size := hfollows.size_eq hz
          have hposition : z.record.position =
              if z.size = 0 then 0 else (n + 1) % z.size := by
            rw [hfollows.position_eq hz, hx, hsize]
            split
            next => rfl
            next => rw [Nat.mod_add_mod]
          obtain ⟨hysize, hyposition⟩ := ih htail hzs hposition hy
          rw [hsize] at hysize hyposition
          rw [Nat.add_right_comm, Nat.add_assoc] at hyposition
          exact ⟨hysize, hyposition⟩

theorem Cycle.Sound.addresses_of_position {n size : Nat} (h : y.Sound c)
    (hsize : y.size = size)
    (hposition : y.record.position = if size = 0 then 0 else n % size) :
    y.record.addresses = (List.range c.banks).map fun lane : Nat =>
      if size = 0 then none else some (((n : Int) - lane) % size).toNat := by
  rw [h.addresses_eq, hsize, hposition]
  by_cases hz : size = 0
  · simp only [hz, if_true]
  · simp only [hz, if_false, Int.natCast_emod, Int.emod_sub_emod]

/-- The phases of the cycles of an engine whose block stood still and is ticked by
nobody else, whatever is asked, refused or carried out. It streams in the cycles
that begin with a running sequencer; in the others the position is zero. A priming
cycle samples a start and no reset, and a streaming one comes next. An idle cycle is
never followed by a streaming one, and the stream ends after the cycle that samples
the reset and after no other. From a priming cycle on, and as long as it streams,
the size stays what it is and the lanes read along the diagonal. -/
theorem phase_protocol {t : Logged Engine} (ht : Reachable c t)
    (hstopped : t.state.store.sequencer.running = false) {rs : List Request}
    (hrs : ∀ r ∈ rs, ¬ r.TicksBlock) :
    let cs := history rs t
    (∀ x ∈ cs.head?, x.record.phase ≠ .streaming) ∧
      (∀ x ∈ cs,
        (x.record.phase = .streaming ↔ x.record.running = true) ∧
        (x.record.phase ≠ .streaming → x.record.position = 0) ∧
        (x.record.phase = .priming → x.inputs.start = true ∧ x.inputs.reset = false)) ∧
      (∀ x y, [x, y] <:+: cs →
        (x.record.phase = .idle → y.record.phase ≠ .streaming) ∧
        (x.record.phase = .priming → y.record.phase = .streaming) ∧
        (x.record.phase = .streaming →
          (y.record.phase ≠ .streaming ↔ x.inputs.reset = true))) ∧
      ∀ x ys, x :: ys <:+: cs → x.record.phase = .priming →
        (∀ y ∈ ys, y.record.phase = .streaming) →
        ∀ k y, (x :: ys)[k]? = some y →
          y.size = x.size ∧
          (y.record.position = if x.size = 0 then 0 else k % x.size) ∧
          y.record.addresses = (List.range c.banks).map fun lane : Nat =>
            if x.size = 0 then none else some (((k : Int) - lane) % x.size).toNat := by
  intro cs
  have hleads : Leads c t.state cs _ := leads_after ht.wellFormed hrs t.log
  have hsound := hleads.sound
  have hchain := hleads.isChain
  refine ⟨?_, ?_, ?_, ?_⟩
  · intro x hx hstreaming
    obtain ⟨f, i, hstill, rfl⟩ := hleads.head x hx
    rw [(hsound _ (List.mem_of_mem_head? hx)).streaming_iff] at hstreaming
    have hrunning : f.store.sequencer.running = true := hstreaming
    rw [hstill.sequencer_eq, hstopped] at hrunning
    exact absurd hrunning (by simp)
  · intro x hx
    have h := hsound x hx
    refine ⟨h.streaming_iff, ?_, fun hpriming => (h.priming_iff.1 hpriming).2⟩
    intro hstreaming
    rw [ne_eq, h.streaming_iff, Bool.not_eq_true] at hstreaming
    exact h.position_eq hstreaming
  · intro x y hxy
    have hx : x.Sound c := hsound x (hxy.subset (by simp))
    have hy : y.Sound c := hsound y (hxy.subset (by simp))
    have hpair : [x, y].IsChain Cycle.Follows := List.IsChain.infix hchain hxy
    have hfollows : x.Follows y := List.isChain_pair.1 hpair
    have hnext := hfollows.streaming_iff hx hy
    refine ⟨?_, fun hpriming => hnext.2 (.inl hpriming), ?_⟩
    · intro hidle
      simp [hnext, hidle]
    · intro hstreaming
      simp [hnext, hstreaming]
  · intro x ys hsegment hpriming hstreaming k y hy
    have hx : x.Sound c := hsound x (hsegment.subset List.mem_cons_self)
    have hysound : y.Sound c := hsound y (hsegment.subset (List.mem_of_getElem? hy))
    have hrunning : ∀ z ∈ ys, z.record.running = true := by
      intro z hz
      exact (hsound z (hsegment.subset (List.mem_cons_of_mem x hz))).streaming_iff.1
        (hstreaming z hz)
    have hstart : x.record.position = if x.size = 0 then 0 else 0 % x.size := by
      rw [hx.position_eq (hx.priming_iff.1 hpriming).1, Nat.zero_mod, ite_self]
    have hstretch : (x :: ys).IsChain Cycle.Follows :=
      List.IsChain.infix hchain hsegment
    obtain ⟨hsize, hposition⟩ := position_of_isChain hstretch hrunning hstart hy
    rw [Nat.zero_add] at hposition
    exact ⟨hsize, hposition, hysound.addresses_of_position hsize hposition⟩

/-- A stream over three words, in which the size is refused, and after a reset one
over two words. Between them a command that names no bank is refused and leaves no
record. -/
theorem phase_protocol_restart :
    let rs : List Request :=
      [.ofStore (.resize 3), .clock ⟨none, true, false⟩, .run 2, .ofStore (.resize 2),
        .clock ⟨none, true, true⟩, .ofStore (.resize 2), .clock (.ofWrite ⟨7, 0, 9⟩),
        .clock ⟨none, true, false⟩, .run 2]
    let cs := history rs ⟨ofStore (Store.initial ⟨2, 4, .parallel, false⟩), #[]⟩
    cs.map (fun x => x.record.phase) =
        [.priming, .streaming, .streaming, .streaming, .priming, .streaming,
          .streaming] ∧
      ∀ y ∈ cs[6]?, y.size = 2 ∧ y.record.position = 0 ∧
        y.record.addresses = [some 0, some 1] := by
  intro rs cs
  have ht : Reachable ⟨2, 4, .parallel, false⟩
      ⟨ofStore (Store.initial ⟨2, 4, .parallel, false⟩), #[]⟩ :=
    ⟨_, [], #[], ⟨_, [], #[], rfl, rfl⟩, rfl⟩
  have hrs : ∀ r ∈ rs, ¬ r.TicksBlock := by decide
  obtain ⟨-, -, -, hsegments⟩ := phase_protocol ht rfl hrs
  have hlength : 4 < cs.length := by decide +kernel
  have hsegment : cs[4] :: cs.drop 5 <:+: cs := by
    rw [← List.drop_eq_getElem_cons hlength]
    exact (List.drop_suffix 4 cs).isInfix
  refine ⟨by decide +kernel, fun y hy => ?_⟩
  have hthird : (cs[4] :: cs.drop 5)[2]? = some y := by
    rw [← List.drop_eq_getElem_cons hlength, List.getElem?_drop]
    exact hy
  have hfirst : ∀ x ∈ cs[4]?, x.record.phase = .priming ∧ x.size = 2 := by
    decide +kernel
  obtain ⟨hpriming, htwo⟩ := hfirst _ (List.getElem?_eq_getElem hlength)
  obtain ⟨hsize, hposition, haddresses⟩ :=
    hsegments _ _ hsegment hpriming (by decide +kernel) 2 y hthird
  rw [htwo] at hsize hposition haddresses
  exact ⟨hsize, hposition, haddresses⟩

end Engine

end Wavefront
