import Wavefront.Proofs.Store.Counters

/-!
# A tick is carried out whole or not at all

In every block that a run can reach, a tick is rejected exactly when its command
names no bank or no word of its bank, and then nothing has changed. The rejection is
found before the first lane ticks: from there on no bank rejects what its lane is
driven with. What a tick that is not rejected can still meet is a counter at the end
of its range, which takes as many ticks as a counter can count.
-/

namespace Wavefront

namespace Store

variable {c : Config} {s : Store}

theorem rejected_iff_not_admits (h : s.WellFormed c) (i : Inputs) (log : Array Event) :
    (∃ cause t, tick i ⟨s, log⟩ = .error (.rejected cause) t) ↔ ¬ s.Admits i := by
  constructor
  · rintro ⟨cause, t, htick⟩ hi
    rcases tick_outcome h hi log with hok | ⟨-, banks, router, log', herr, -⟩
    · rw [hok] at htick
      exact absurd htick (by simp)
    · rw [herr] at htick
      exact absurd htick (by simp)
  · intro hi
    obtain ⟨cause, herr⟩ := tick_of_not_admits hi log
    exact ⟨cause, _, herr⟩

theorem not_admits_iff (h : s.WellFormed c) (i : Inputs) :
    ¬ s.Admits i ↔
      ∃ w, i.write = some w ∧ (c.banks ≤ w.bank ∨ c.depth ≤ w.address) := by
  rw [admits_iff h]
  cases i.write with
  | none => simp
  | some w =>
      simp only [Option.some.injEq, forall_eq', exists_eq_left']
      omega

/-- After every run a tick is rejected exactly for a command outside the banks, the
bank being checked before the address, and a rejected tick changes nothing. A tick
that is not rejected is carried out unless a counter has reached the end of its
range, which does not happen before as many ticks as a counter can count; and none
of its lanes is rejected by its bank. -/
theorem tick_rejected_iff {s₀ : Store} (h : new c = .ok s₀) (rs : List Request)
    (log : Array Event) (i : Inputs) :
    let t := Step.after perform rs ⟨s₀, log⟩
    ((∃ cause u, tick i t = .error (.rejected cause) u) ↔
        ∃ w, i.write = some w ∧ (c.banks ≤ w.bank ∨ c.depth ≤ w.address)) ∧
      (∀ w, i.write = some w → c.banks ≤ w.bank →
        tick i t = .error (.rejected (.bankOutOfRange w.bank c.banks)) t) ∧
      (∀ w, i.write = some w → w.bank < c.banks → c.depth ≤ w.address →
        tick i t = .error (.rejected (.addressOutOfRange w.address c.depth)) t) ∧
      (∀ cause u, tick i t = .error (.rejected cause) u → u = t) ∧
      ((∀ w, i.write = some w → w.bank < c.banks ∧ w.address < c.depth) →
        ((∃ u, tick i t = .ok () u) ∨
          Checked.limit ≤ ticksIn rs + 1 ∧ ∃ u, tick i t = .error (.overflow .add) u) ∧
        ∃ drives, t.state.drives i.routed = .ok drives ∧ drives.size = c.banks ∧
          ∀ (lane : Nat) (b : Bank) (d : Drive), t.state.banks[lane]? = some b →
            drives[lane]? = some d →
              ∀ log' cause u, Bank.tick d ⟨b, log'⟩ ≠ .error (.rejected cause) u) := by
  obtain ⟨hc, rfl⟩ := new_eq_ok_iff.1 h
  intro t
  have hs : t.state.WellFormed c := wellFormed_after (wellFormed_initial hc) rs log
  have hw : t.state.width = c.banks := hs.width_eq
  have hd : t.state.depth = c.depth := hs.storeDepth_eq
  refine ⟨(rejected_iff_not_admits hs i t.log).trans (not_admits_iff hs i), ?_, ?_, ?_,
    ?_⟩
  · intro w hwrite hb
    rw [← hw] at hb ⊢
    exact tick_of_check hwrite (check_of_bank hb) t.log
  · intro w hwrite hb ha
    rw [← hw] at hb
    rw [← hd] at ha ⊢
    exact tick_of_check hwrite (check_of_address hb ha) t.log
  · intro cause u htick
    have hi : ¬ t.state.Admits i :=
      (rejected_iff_not_admits hs i t.log).1 ⟨cause, u, htick⟩
    obtain ⟨cause', herr⟩ := tick_of_not_admits hi t.log
    rw [herr] at htick
    exact (EStateM.Result.error.inj htick).2.symm
  · intro hin
    have hi : t.state.Admits i := (admits_iff hs i).2 hin
    constructor
    · rcases tick_outcome hs hi t.log with hok | ⟨hfull, banks, router, log', herr, -⟩
      · exact .inl ⟨_, hok⟩
      · refine .inr ⟨?_, _, herr⟩
        rcases Nat.lt_or_ge (ticksIn rs + 1) Checked.limit with hlt | hle
        · have hcount := (answered_of_ticks_lt (wellFormed_initial hc) (.initial c) rs
            (by omega) log).1
          rw [Nat.zero_add] at hcount
          exact absurd (hcount.hasRoom hlt) hfull
        · exact hle
    · refine ⟨_, hs.drives_eq i, by simp, ?_⟩
      intro lane b d hb hdrive log' cause u
      -- Until its own lane ticks a bank is as it was when the tick began.
      have hlane : lane < c.banks := hs.lane_lt hb
      simp only [List.getElem?_toArray, List.getElem?_map, List.getElem?_range hlane,
        Option.map_some, Option.some.injEq] at hdrive
      subst hdrive
      exact Bank.tick_ne_rejected (hs.takes_drive hi hb) log' cause u

/-- In the middle of a stream, a command that names neither a bank nor a word of one
is rejected for the bank. -/
theorem rejected_for_bank :
    let t := Step.after perform [.resize 3, .tick ⟨none, true, false⟩]
      ⟨initial ⟨3, 4, .sequential, false⟩, #[]⟩
    tick (.ofWrite ⟨7, 9, 1⟩) t = .error (.rejected (.bankOutOfRange 7 3)) t := by
  have hnew : new ⟨3, 4, .sequential, false⟩ =
      .ok (initial ⟨3, 4, .sequential, false⟩) := rfl
  exact (tick_rejected_iff hnew _ #[] (.ofWrite ⟨7, 9, 1⟩)).2.1 ⟨7, 9, 1⟩ rfl
    (by decide)

end Store

end Wavefront
