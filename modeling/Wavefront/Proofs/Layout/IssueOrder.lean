import Wavefront.Proofs.Engine.Load
import Wavefront.Proofs.Layout.Columns
import Wavefront.Proofs.Store.Holdings

/-!
# The order in which a load is issued

The commands of a load have places of their own (`Layout.nodup_layOut`). So it makes
no difference to what they leave behind in which order they are issued, with how
many ticks between them, or what the sequencer does meanwhile. `load_in_any_order`
compares such a run with the one that issues them in the order of the words, tick by
tick.
-/

namespace Wavefront

namespace Store

variable {c : Config} {s : Store} {words : List Word} {load : Load} {is : List Inputs}

theorem inRange_of_issued (hload : c.layout.load words = .ok load)
    (his : (is.filterMap Inputs.write).Perm load.commands) :
    ∀ i ∈ is, ∀ w, i.write = some w → w.bank < c.banks ∧ w.address < c.depth := by
  have hlays := Layout.laysOut_of_load hload
  intro i hi w hw
  have hmem : w ∈ load.commands := his.mem_iff.1 (List.mem_filterMap.2 ⟨i, hi, hw⟩)
  exact ⟨hlays.bank_lt w hmem,
    Nat.lt_of_lt_of_le (hlays.address_lt w hmem) hlays.size_le⟩

theorem holdings_of_issued (hload : c.layout.load words = .ok load)
    (his : (is.filterMap Inputs.write).Perm load.commands) (s : Store) :
    (s.follow is).holdings =
      (s.follow (load.commands.map Inputs.ofWrite)).holdings := by
  have hnodup : ((is.filterMap Inputs.write).map place).Nodup :=
    (his.map place).nodup_iff.2 (Layout.laysOut_of_load hload).nodup
  refine holdings_follow_perm ?_ hnodup s
  rwa [Inputs.filterMap_ofWrite]

/-- The commands of a load can be issued in any order, one a tick, with any other
ticks between them that have no command, and with any pulses, whether the block is
running or not. None of these ticks is rejected, and they are all carried out as
long as the counters can count them. Past the ports every word is read afterwards,
and the commands, the writes and the addresses in use of every bank are counted, as
if the commands had been issued in the order of the words in one tick after the
other. -/
theorem load_in_any_order {t : Logged Store} (ht : Reachable c t)
    (hload : c.layout.load words = .ok load)
    (his : (is.filterMap Inputs.write).Perm load.commands) :
    let js := load.commands.map Inputs.ofWrite
    let s := (Step.after tick is t).state
    let s' := (Step.after tick js t).state
    (∀ cause, ∀ o ∈ Step.outcomes tick is t, o ≠ .error (.rejected cause)) ∧
      (∀ ticks, t.state.CountedBy ticks → ticks + is.length < Checked.limit →
        Step.Accepted tick is t ∧ Step.Accepted tick js t) ∧
      (Step.Answered tick is t → Step.Answered tick js t →
        Step.Accepted tick is t ∧ Step.Accepted tick js t ∧
        (∀ bank address, s.peek bank address = s'.peek bank address) ∧
        s.accepted = s'.accepted ∧
        ∀ bank, (s.usage bank).map (fun u => (u.writes, u.active)) =
          (s'.usage bank).map fun u => (u.writes, u.active)) := by
  intro js s s'
  have hwell := ht.wellFormed
  have hjs : (js.filterMap Inputs.write).Perm load.commands :=
    .of_eq (Inputs.filterMap_ofWrite _)
  have hrange := inRange_of_issued hload his
  have hrange' := inRange_of_issued hload hjs
  have hne := outcomes_tick_ne_rejected hwell hrange t.log
  have hne' := outcomes_tick_ne_rejected hwell hrange' t.log
  refine ⟨hne, fun ticks hcount hticks => ?_, fun ha ha' => ?_⟩
  · have hlength : js.length ≤ is.length := by
      rw [List.length_map, ← his.length_eq]
      exact List.length_filterMap_le _ _
    have hadmits : ∀ i ∈ is, t.state.Admits i :=
      fun i hi => (admits_iff hwell i).2 (hrange i hi)
    have hadmits' : ∀ j ∈ js, t.state.Admits j :=
      fun j hj => (admits_iff hwell j).2 (hrange' j hj)
    exact ⟨accepted_tick_of_lt hwell hadmits hcount hticks t.log,
      accepted_tick_of_lt hwell hadmits' hcount (by omega) t.log⟩
  · have haccepted := ha.accepted hne
    have haccepted' := ha'.accepted hne'
    have hs : s = t.state.follow is := (after_tick_of_accepted hwell haccepted).2
    have hs' : s' = t.state.follow js := (after_tick_of_accepted hwell haccepted').2
    have hholdings : s.holdings = s'.holdings := by
      rw [hs, hs']
      exact holdings_of_issued hload his t.state
    have hwidth : s.width = s'.width := by
      rw [hs, hs', (hwell.follow is).width_eq, (hwell.follow js).width_eq]
    exact ⟨haccepted, haccepted', peek_eq_of_holdings_eq hholdings hwidth,
      congrArg Holdings.accepted hholdings, usage_eq_of_holdings_eq hholdings hwidth⟩

/-- Three words are issued last word first while a stream over other words is
running, is reset, and is started again. -/
theorem issued_backwards_in_stream :
    let c : Config := ⟨2, 4, .parallel, false⟩
    let t :=
      Step.after perform [.resize 3, .write ⟨1, 1, 9⟩, .tick ⟨none, true, false⟩]
        ⟨initial c, #[]⟩
    let is : List Inputs := [⟨some ⟨0, 1, 12⟩, false, false⟩, ⟨none, false, true⟩,
      ⟨some ⟨1, 0, 11⟩, true, false⟩, .idle, ⟨some ⟨0, 0, 10⟩, true, true⟩]
    let s := (Step.after tick is t).state
    Step.Accepted tick is t ∧ s.peek 0 0 = .ok 10 ∧ s.peek 1 0 = .ok 11 ∧
      s.peek 0 1 = .ok 12 ∧ s.peek 1 1 = .ok 9 ∧ s.accepted = 4 ∧
      (s.usage 1).map (fun u => (u.writes, u.active)) = .ok (2, 2) := by
  intro c t is s
  have ht : Reachable c t := ⟨_, _, _, rfl, rfl⟩
  have hload : c.layout.load [10, 11, 12] = .ok (c.layout.layOut [10, 11, 12]) := rfl
  have his : (is.filterMap Inputs.write).Perm (c.layout.layOut [10, 11, 12]).commands :=
    by decide
  obtain ⟨-, -, hsame⟩ := load_in_any_order ht hload his
  obtain ⟨haccepted, -, hpeek, hcommands, husage⟩ :=
    hsame (by decide +kernel) (by decide +kernel)
  refine ⟨haccepted, (hpeek 0 0).trans ?_, (hpeek 1 0).trans ?_, (hpeek 0 1).trans ?_,
    (hpeek 1 1).trans ?_, hcommands.trans ?_, (husage 1).trans ?_⟩
  all_goals decide +kernel

end Store

end Wavefront
