import Wavefront.Proofs.Sequencer
import Wavefront.Proofs.Store.Lanes

/-!
# Well-formed blocks

`Store.WellFormed c` is what every block of the configuration `c` keeps: its banks
are those it was built with, each lane sits at its own place on the diagonal, the
streaming size fits the banks, and the sequencer stays within the cycle of that
size. The bounds on the geometry are those under which the block can be built at all
(`Config.IsBuildable`).

In a well-formed block every lane is driven with an address below the streaming
size, or with none when there is nothing to stream (`addresses_eq`,
`readAddress_lt`).
-/

namespace Wavefront

/-- There are banks, they have words, and there is room in memory for both. -/
structure Config.IsBuildable (c : Config) : Prop where
  banks_pos : 0 < c.banks
  depth_pos : 0 < c.depth
  banks_lt : c.banks * Bank.frame < Checked.half
  depth_lt : c.depth * 4 < Checked.half

namespace Config.IsBuildable

variable {c : Config}

theorem banks_lt_half (h : c.IsBuildable) : c.banks < Checked.half := by
  have hb := h.banks_lt
  simp only [Bank.frame] at hb
  omega

theorem ports_lt (h : c.IsBuildable) : c.banks * Router.portBytes < Checked.half :=
  Nat.lt_of_le_of_lt (Nat.mul_le_mul_left c.banks (by decide)) h.banks_lt

theorem depth_lt_half (h : c.IsBuildable) : c.depth < Checked.half := by
  have hd := h.depth_lt
  omega

end Config.IsBuildable

namespace Store

def readAddress (s : Store) (lane : Nat) : Option Nat :=
  if s.size = 0 then none
  else some (((s.sequencer.position : Int) - lane) % s.size).toNat

theorem readAddress_of_size_eq {s : Store} (h : s.size = 0) (lane : Nat) :
    s.readAddress lane = none := if_pos h

theorem readAddress_of_size_pos {s : Store} (h : 0 < s.size) (lane : Nat) :
    s.readAddress lane = some (((s.sequencer.position : Int) - lane) % s.size).toNat :=
  if_neg (Nat.ne_of_gt h)

theorem readAddress_lt {s : Store} {lane address : Nat}
    (h : s.readAddress lane = some address) :
    address < s.size := by
  rcases Nat.eq_zero_or_pos s.size with hz | hz
  · rw [readAddress_of_size_eq hz] at h
    exact absurd h (by simp)
  · rw [readAddress_of_size_pos hz, Option.some.injEq] at h
    have hlt :=
      Int.emod_lt_of_pos ((s.sequencer.position : Int) - lane) (Int.natCast_pos.2 hz)
    omega

/-- What every block of the configuration `c` keeps. -/
structure WellFormed (c : Config) (s : Store) : Prop where
  buildable : c.IsBuildable
  config_eq : s.config = c
  width_eq : s.width = c.banks
  index_eq : ∀ {i : Nat} {b : Bank}, s.banks[i]? = some b → b.index = i
  depth_eq : ∀ {i : Nat} {b : Bank}, s.banks[i]? = some b → b.depth = c.depth
  places_eq : s.places = (List.range c.banks).map Place.mk
  size_le : s.size ≤ c.depth
  within : s.sequencer.Within s.size

namespace WellFormed

variable {c : Config} {s : Store}

theorem storeDepth_eq (h : s.WellFormed c) :
    s.depth = c.depth :=
  congrArg Config.depth h.config_eq

theorem size_lt_half (h : s.WellFormed c) : s.size < Checked.half :=
  Nat.lt_of_le_of_lt h.size_le h.buildable.depth_lt_half

theorem position_lt_half (h : s.WellFormed c) : s.sequencer.position < Checked.half :=
  Nat.lt_of_le_of_lt h.within.position_le h.size_lt_half

theorem succ_position_lt (h : s.WellFormed c) :
    s.sequencer.position + 1 < Checked.limit :=
  h.within.succ_lt_limit (Nat.lt_trans h.size_lt_half (by decide))

theorem bank_of_lane (h : s.WellFormed c) {i : Nat} (hi : i < c.banks) :
    ∃ b, s.banks[i]? = some b := by
  have hlt : i < s.banks.size := by
    rw [← h.width_eq] at hi
    exact hi
  exact ⟨s.banks[i], Array.getElem?_eq_getElem hlt⟩

theorem lane_lt (h : s.WellFormed c) {i : Nat} {b : Bank} (hb : s.banks[i]? = some b) :
    i < c.banks := by
  have hlt : i < s.width := (Array.getElem?_eq_some_iff.1 hb).1
  rwa [h.width_eq] at hlt

theorem addresses_eq (h : s.WellFormed c) :
    s.addresses = .ok ((List.range c.banks).map s.readAddress) := by
  have hlane : ∀ i ∈ List.range c.banks,
      (Place.mk i).address s.cursor = .ok (s.readAddress i) := by
    intro i hi
    have hhalf : i < Checked.half :=
      Nat.lt_trans (List.mem_range.1 hi) h.buildable.banks_lt_half
    show diagonalAddress s.sequencer.position i s.size = _
    rcases Nat.eq_zero_or_pos s.size with hz | hz
    · rw [readAddress_of_size_eq hz, hz, diagonalAddress_zero]
    · rw [readAddress_of_size_pos hz,
        diagonalAddress_of_lt h.position_lt_half hhalf h.size_lt_half hz]
  rw [addresses, h.places_eq, List.mapM_map]
  exact mapM_eq_ok hlane

end WellFormed

/-- The block of the configuration `c` as it is built: nothing written, stopped,
nothing to stream. -/
def initial (c : Config) : Store :=
  ⟨c, ((List.range c.banks).map fun i =>
      ⟨i, Array.replicate c.depth none, 0, ⟨c.depth, 0, c.depth * 4, 0, 0⟩⟩).toArray,
    (List.range c.banks).map Place.mk, .stopped, .new, 0⟩

theorem getElem?_banks_initial (c : Config) {i : Nat} {b : Bank}
    (h : (initial c).banks[i]? = some b) : b = .blank i c.depth := by
  simp only [initial, List.getElem?_toArray, List.getElem?_map,
    Option.map_eq_some_iff] at h
  obtain ⟨j, hj, rfl⟩ := h
  obtain ⟨-, rfl⟩ := List.getElem?_eq_some_iff.1 hj
  simp [Bank.blank]

theorem new_eq_ok_iff {c : Config} {s : Store} :
    new c = .ok s ↔ c.IsBuildable ∧ s = initial c := by
  constructor
  · intro h
    have hv : c.validate = .ok () := by
      cases hv : c.validate with
      | ok u => rfl
      | error e =>
          rw [new, hv, error_bind] at h
          cases h
    have hb : c.banks * Bank.frame < Checked.half := by
      rcases Nat.lt_or_ge (c.banks * Bank.frame) Checked.half with hb | hb
      · exact hb
      · rw [new, hv, ok_bind, Checked.room_of_le hb, error_bind] at h
        cases h
    have hd : c.depth * 4 < Checked.half := by
      rcases Nat.lt_or_ge (c.depth * 4) Checked.half with hd | hd
      · exact hd
      · rw [new, hv, ok_bind, Checked.room_of_lt hb, ok_bind, Bank.new_of_le hd,
          error_bind] at h
        cases h
    obtain ⟨hbanks, hdepth⟩ := c.validate_eq_ok_iff.1 hv
    rw [new_of_lt hv hb hd, Except.ok.injEq] at h
    exact ⟨⟨hbanks, hdepth, hb, hd⟩, h.symm⟩
  · rintro ⟨⟨hbanks, hdepth, hb, hd⟩, rfl⟩
    exact new_of_lt (c.validate_eq_ok_iff.2 ⟨hbanks, hdepth⟩) hb hd

theorem wellFormed_initial {c : Config} (h : c.IsBuildable) :
    (initial c).WellFormed c := by
  refine ⟨h, rfl, ?_, ?_, ?_, rfl, Nat.zero_le _, .stopped_within 0⟩
  · simp [initial, width]
  · intro i b hb
    rw [getElem?_banks_initial c hb]
    rfl
  · intro i b hb
    rw [getElem?_banks_initial c hb, Bank.depth_blank]

end Store

end Wavefront
