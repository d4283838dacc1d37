import Wavefront.Proofs.Store.Invariant

/-!
# How long it takes to overflow

The counters of a block count ticks, those of the router and those of every bank.
`CountedBy n` bounds them for a block that has ticked at most `n` times. As long as
a counter can count the ticks of a run, all its requests are answered
(`answered_of_ticks_lt`).
-/

namespace Wavefront

namespace Store

variable {c : Config} {s : Store}

def Request.ticks : Request → Nat
  | .resize _ => 0
  | .tick _ => 1
  | .write _ => 1

def ticksIn : List Request → Nat
  | [] => 0
  | r :: rs => r.ticks + ticksIn rs

theorem ticksIn_cons (r : Request) (rs : List Request) :
    ticksIn (r :: rs) = r.ticks + ticksIn rs := rfl

/-- The counters of a block that has ticked at most `n` times. -/
structure CountedBy (n : Nat) (s : Store) : Prop where
  router_le : s.router.accepted ≤ n
  banks : ∀ {i : Nat} {b : Bank}, s.banks[i]? = some b → b.CountedBy n

namespace CountedBy

theorem mono {m n : Nat} (h : s.CountedBy m) (hmn : m ≤ n) : s.CountedBy n :=
  ⟨Nat.le_trans h.router_le hmn, fun hb => (h.banks hb).mono hmn⟩

theorem hasRoom {n : Nat} (h : s.CountedBy n) (hn : n + 1 < Checked.limit) :
    s.HasRoom :=
  ⟨Nat.lt_of_le_of_lt (Nat.succ_le_succ h.router_le) hn,
    fun hb => (h.banks hb).hasRoom hn⟩

theorem next {n : Nat} (h : s.CountedBy n) (i : Inputs) :
    (s.next i).CountedBy (n + 1) := by
  constructor
  · have hr := h.router_le
    show s.router.accepted + i.write.toList.length ≤ n + 1
    cases i.write <;> simp only [Option.toList, List.length] <;> omega
  · intro lane b' hb'
    obtain ⟨b, hb, rfl⟩ := bank_of_next hb'
    exact (h.banks hb).next (s.drive i lane)

theorem resize {n : Nat} (h : s.CountedBy n) (size : Nat) :
    CountedBy n { s with size := size } :=
  ⟨h.router_le, h.banks⟩

theorem initial (c : Config) : (Store.initial c).CountedBy 0 := by
  refine ⟨Nat.le_refl 0, ?_⟩
  intro i b hb
  rw [getElem?_banks_initial c hb]
  exact .blank i c.depth

end CountedBy

theorem tick_of_hasRoom (h : s.WellFormed c) {i : Inputs} (hi : s.Admits i)
    (hroom : s.HasRoom) (log : Array Event) :
    tick i ⟨s, log⟩ = .ok () ⟨s.next i, log ++ (s.events i).toArray⟩ := by
  rcases tick_outcome h hi log with hok | ⟨hfull, -⟩
  · exact hok
  · exact absurd hroom hfull

theorem countedBy_final {n : Nat} (h : s.WellFormed c) (hn : s.CountedBy n)
    (r : Request) (hlt : n + r.ticks < Checked.limit) (log : Array Event) :
    (Step.final (perform r ⟨s, log⟩)).state.CountedBy (n + r.ticks) ∧
      Step.IsAnswer (Step.outcome (perform r ⟨s, log⟩)) := by
  have htick : ∀ i : Inputs, n + 1 < Checked.limit →
      (Step.final (tick i ⟨s, log⟩)).state.CountedBy (n + 1) ∧
        Step.IsAnswer (Step.outcome (tick i ⟨s, log⟩)) := by
    intro i hlt
    by_cases hi : s.Admits i
    · rw [tick_of_hasRoom h hi (hn.hasRoom hlt)]
      exact ⟨hn.next i, trivial⟩
    · obtain ⟨cause, herr⟩ := tick_of_not_admits hi log
      rw [herr]
      exact ⟨hn.mono (Nat.le_succ n), trivial⟩
  cases r with
  | resize size =>
      show (Step.final (resize size ⟨s, log⟩)).state.CountedBy n ∧
        Step.IsAnswer (Step.outcome (resize size ⟨s, log⟩))
      rcases resize_outcome size s log with ⟨-, hok⟩ | ⟨-, cause, herr⟩
      · rw [hok]
        exact ⟨hn.resize size, trivial⟩
      · rw [herr]
        exact ⟨hn, trivial⟩
  | tick i => exact htick i hlt
  | write w => exact htick (.ofWrite w) hlt

theorem answered_of_ticks_lt {n : Nat} (h : s.WellFormed c) (hn : s.CountedBy n)
    (rs : List Request) (hlt : n + ticksIn rs < Checked.limit) (log : Array Event) :
    (Step.after perform rs ⟨s, log⟩).state.CountedBy (n + ticksIn rs) ∧
      Step.Answered perform rs ⟨s, log⟩ := by
  induction rs generalizing s n log with
  | nil => exact ⟨hn, Step.answered_nil perform ⟨s, log⟩⟩
  | cons r rs ih =>
      rw [ticksIn_cons, ← Nat.add_assoc] at *
      obtain ⟨hcount, hanswer⟩ := countedBy_final h hn r (by omega) log
      obtain ⟨hcount', hanswer'⟩ := ih (h.final_perform r log) hcount hlt
        (Step.final (perform r ⟨s, log⟩)).log
      rw [Step.answered_cons, Step.after_cons]
      exact ⟨hcount', hanswer, hanswer'⟩

theorem hasRoom_after (hc : c.IsBuildable) {rs : List Request}
    (h : ticksIn rs + 1 < Checked.limit) (log : Array Event) :
    (Step.after perform rs ⟨initial c, log⟩).state.HasRoom := by
  have hcount :=
    (answered_of_ticks_lt (wellFormed_initial hc) (.initial c) rs (by omega) log).1
  rw [Nat.zero_add] at hcount
  exact hcount.hasRoom h

end Store

end Wavefront
