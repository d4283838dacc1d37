import Wavefront.Proofs.Bank.Occupancy
import Wavefront.Proofs.Store.Counters
import Wavefront.Proofs.Store.History

/-!
# No quantity leaves its range

A tick counts the position up, takes the distance of the position and every lane
between signed readings, divides by the size, and goes by addresses into the banks.
`Bounded` lists the bounds under which all of this stays within 64 bits and within
the banks. They hold of every well-formed block whose statistics are right and whose
counters have not run out (`WellFormed.bounded`). The statistics are right after
every answered run (`tallies_after`), and a counter takes as many ticks to run out
as it can count. So in fewer ticks nothing overflows, `no_overflow`.
-/

namespace Wavefront

namespace Store

variable {c : Config} {s : Store}

/-- Every quantity of the block, and of whatever tick comes next, is within its
range. -/
structure Bounded (c : Config) (s : Store) : Prop where
  addresses : ∃ addresses, s.addresses = .ok addresses
  /-- The position can be counted up. -/
  position_lt : s.sequencer.position + 1 < Checked.limit
  /-- Position, lane and size are their own signed readings, and a distance is a
  signed number. -/
  signed_position : Checked.signed s.sequencer.position = s.sequencer.position
  signed_lane : ∀ p ∈ s.places, Checked.signed p.lane = p.lane
  signed_size : Checked.signed s.size = s.size
  distance : ∀ p ∈ s.places, Checked.IsSigned ((s.sequencer.position : Int) - p.lane)
  /-- A divisor is neither zero nor negative. -/
  divisor : 0 < s.size → 0 < Checked.signed s.size
  /-- The drives of an admitted tick name cells of their banks. -/
  drives : ∀ i, s.Admits i → ∃ drives, s.drives i.routed = .ok drives ∧
    ∀ lane < c.banks, ∃ d b, drives[lane]? = some d ∧ s.banks[lane]? = some b ∧
      (∀ address, d.read = some address → address < b.cells.size) ∧
      ∀ w, d.write = some w → w.address < b.cells.size
  /-- No more addresses are in use than there are. -/
  active_le : ∀ {lane : Nat} {b : Bank}, s.banks[lane]? = some b →
    b.usage.active ≤ c.depth
  accesses_lt : ∀ {lane : Nat} {b : Bank}, s.banks[lane]? = some b →
    b.usage.reads < Checked.limit ∧ b.usage.writes < Checked.limit
  accepted_lt : s.accepted < Checked.limit

def Tallies (s : Store) : Prop :=
  ∀ (lane : Nat) (b : Bank), s.banks[lane]? = some b → b.Tallies

theorem Tallies.initial (c : Config) : (Store.initial c).Tallies := by
  intro lane b hb
  rw [getElem?_banks_initial c hb]
  show 0 = (Array.replicate c.depth none).countP Option.isSome
  rw [Array.countP_replicate]
  rfl

theorem Tallies.next (hs : s.Tallies) (h : s.WellFormed c) {i : Inputs}
    (hi : s.Admits i) :
    (s.next i).Tallies := by
  intro lane b' hb'
  obtain ⟨b, hb, rfl⟩ := bank_of_next hb'
  exact (hs lane b hb).next (h.takes_drive hi hb)

theorem tallies_after (h : s.WellFormed c) (hs : s.Tallies) {rs : List Request}
    {log : Array Event} (ha : Step.Answered perform rs ⟨s, log⟩) :
    (Step.after perform rs ⟨s, log⟩).state.Tallies :=
  history_induction (I := fun _ => Tallies) [] h hs (fun _ _ _ hs => hs)
    (fun _ _ _ h hi hs => hs.next h hi) ha

theorem WellFormed.bounded (h : s.WellFormed c) {n : Nat} (hcount : s.CountedBy n)
    (hn : n < Checked.limit)
    (htallies : s.Tallies) : s.Bounded c := by
  have hlane : ∀ p ∈ s.places, p.lane < Checked.half := by
    intro p hp
    rw [h.places_eq] at hp
    obtain ⟨lane, hlane, rfl⟩ := List.mem_map.1 hp
    exact Nat.lt_trans (List.mem_range.1 hlane) h.buildable.banks_lt_half
  have hsize : Checked.signed s.size = s.size := Checked.signed_of_lt h.size_lt_half
  refine ⟨⟨_, h.addresses_eq⟩, h.succ_position_lt,
    Checked.signed_of_lt h.position_lt_half,
    fun p hp => Checked.signed_of_lt (hlane p hp), hsize,
    fun p hp => Checked.isSigned_sub_of_lt h.position_lt_half (hlane p hp), ?_, ?_, ?_,
    ?_, ?_⟩
  · intro hpos
    rw [hsize]
    exact Int.natCast_pos.2 hpos
  · intro i hi
    refine ⟨_, h.drives_eq i, fun lane hlane => ?_⟩
    obtain ⟨b, hb⟩ := h.bank_of_lane hlane
    obtain ⟨hread, hwrite⟩ := h.takes_drive hi hb
    exact ⟨s.drive i lane, b, by simp [hlane], hb, hread, hwrite⟩
  · intro lane b hb
    rw [← h.depth_eq hb]
    exact (htallies lane b hb).active_le_depth
  · intro lane b hb
    have hbank := hcount.banks hb
    exact ⟨Nat.lt_of_le_of_lt hbank.reads_le hn, Nat.lt_of_le_of_lt hbank.writes_le hn⟩
  · exact Nat.lt_of_le_of_lt hcount.router_le hn

/-- Whatever is asked of a block that could be built, in fewer ticks than a counter
can count nothing overflows: every request is answered, and afterwards, and so
before each of them, every quantity is within its range. -/
theorem no_overflow {s₀ : Store} (h : new c = .ok s₀) {rs : List Request}
    (hticks : ticksIn rs < Checked.limit) (log : Array Event) :
    Step.Answered perform rs ⟨s₀, log⟩ ∧
      (Step.after perform rs ⟨s₀, log⟩).state.Bounded c := by
  obtain ⟨hc, rfl⟩ := new_eq_ok_iff.1 h
  have hwell := wellFormed_initial hc
  obtain ⟨hcount, hanswered⟩ :=
    answered_of_ticks_lt hwell (.initial c) rs (by omega) log
  refine ⟨hanswered, ?_⟩
  exact (wellFormed_after hwell rs log).bounded hcount (by omega)
    (tallies_after hwell (.initial c) hanswered)

/-- A word written twice, and a stream over three words on which a command and a
size are refused. -/
theorem no_overflow_around_refusals :
    let rs : List Request :=
      [.resize 3, .write ⟨1, 2, 7⟩, .write ⟨1, 2, 8⟩, .tick ⟨none, true, false⟩,
        .write ⟨2, 0, 9⟩, .resize 1, .tick .idle]
    let s := (Step.after perform rs ⟨initial ⟨2, 4, .parallel, false⟩, #[]⟩).state
    s.Bounded ⟨2, 4, .parallel, false⟩ ∧ s.size = 3 ∧ s.sequencer.position = 2 ∧
      ∀ b ∈ s.banks[1]?, b.usage.active = 1 ∧ b.usage.writes = 2 := by
  intro rs s
  have hnew : new ⟨2, 4, .parallel, false⟩ = .ok (initial ⟨2, 4, .parallel, false⟩) :=
    rfl
  have hticks : ticksIn rs < Checked.limit := by decide
  obtain ⟨-, hbounded⟩ := no_overflow hnew hticks #[]
  exact ⟨hbounded, by decide +kernel, by decide +kernel, by decide +kernel⟩

end Store

end Wavefront
