import Mathlib.Data.Int.ModEq
import Wavefront.Proofs.Store.Follow

/-!
# The geometry of the wavefront

While the sequencer moves on in every tick, lane `i` is driven in tick `n` with the
address `(position + n - i) mod size`, `laneAddress`. So the address is a matter of
`n - i` modulo the size, and of nothing else (`laneAddress_eq_iff`): the lanes read
the same addresses one behind the other, and each of them reads every address once
in a cycle. `diagonal_wavefront` says so of every stream of every block.
-/

namespace Wavefront

/-- The address of a lane when the sequencer has moved on `n` times from a
position. -/
def laneAddress (position size lane n : Nat) : Nat :=
  ((((position + n : Nat) : Int) - lane) % size).toNat

section LaneAddress

variable {position size : Nat}

theorem natCast_laneAddress (hpos : 0 < size) (lane n : Nat) :
    (laneAddress position size lane n : Int) = ((position + n : Nat) - lane) % size :=
  Int.toNat_of_nonneg (Int.emod_nonneg _ (Int.natCast_ne_zero.2 (Nat.ne_of_gt hpos)))

theorem laneAddress_lt (hpos : 0 < size) (lane n : Nat) :
    laneAddress position size lane n < size := by
  have hlt :=
    Int.emod_lt_of_pos (((position + n : Nat) : Int) - lane) (Int.natCast_pos.2 hpos)
  rw [← natCast_laneAddress hpos] at hlt
  exact Int.ofNat_lt.1 hlt

theorem laneAddress_modEq (hpos : 0 < size) (lane n : Nat) :
    (laneAddress position size lane n : Int) ≡ (position + n : Nat) - lane
      [ZMOD size] := by
  rw [natCast_laneAddress hpos]
  exact Int.mod_modEq _ _

theorem laneAddress_eq_iff_modEq (hpos : 0 < size) {lane n address : Nat}
    (ha : address < size) :
    laneAddress position size lane n = address ↔
      ((position + n : Nat) : Int) - lane ≡ address [ZMOD size] := by
  rw [← Int.natCast_inj, natCast_laneAddress hpos, Int.ModEq]
  have hmod : (address : Int) % size = address :=
    Int.emod_eq_of_lt (Int.natCast_nonneg address) (Int.ofNat_lt.2 ha)
  rw [hmod]

theorem laneAddress_zero_eq_iff {lane address : Nat} (ha : address < size) (n : Nat) :
    laneAddress 0 size lane n = address ↔ n ≡ address + lane [MOD size] := by
  have hdistance : (address : Int) - ((0 + n : Nat) - lane) =
      (address + lane : Nat) - n := by omega
  rw [laneAddress_eq_iff_modEq (Nat.zero_lt_of_lt ha) ha, Int.modEq_iff_dvd,
    Nat.modEq_iff_dvd, hdistance]

/-- The lanes lie on a diagonal: what matters for an address is how far the tick is
ahead of the lane. -/
theorem laneAddress_eq_iff (hpos : 0 < size) (i j n m : Nat) :
    laneAddress position size i n = laneAddress position size j m ↔
      (n : Int) - i ≡ m - j [ZMOD size] := by
  have hshift : ∀ a b : Nat, ((position + a : Nat) : Int) - b = position + (a - b) := by
    intro a b
    omega
  rw [laneAddress_eq_iff_modEq hpos (laneAddress_lt hpos j m)]
  constructor
  · intro h
    have h := h.trans (laneAddress_modEq hpos j m)
    rw [hshift, hshift] at h
    exact Int.ModEq.add_left_cancel' _ h
  · intro h
    refine Int.ModEq.trans ?_ (laneAddress_modEq hpos j m).symm
    rw [hshift, hshift]
    exact h.add_left _

theorem laneAddress_trail (hpos : 0 < size) {i j : Nat} (hij : i ≤ j) (n : Nat) :
    laneAddress position size j (n + (j - i)) = laneAddress position size i n := by
  have hdistance : ((n + (j - i) : Nat) : Int) - j = n - i := by omega
  rw [laneAddress_eq_iff hpos, hdistance]

theorem laneAddress_neighbour (hpos : 0 < size) (i j n : Nat) :
    (laneAddress position size i n : Int) =
      (laneAddress position size j n - i + j) % size := by
  have hdistance : ((position + n : Nat) : Int) - i =
      (position + n : Nat) - j - i + j := by omega
  rw [natCast_laneAddress hpos i, hdistance]
  exact (((laneAddress_modEq hpos j n).sub_right _).add_right _).symm

theorem laneAddress_existsUnique (lane first : Nat) {address : Nat}
    (ha : address < size) :
    ∃! n, first ≤ n ∧ n < first + size ∧
      laneAddress position size lane n = address := by
  have hpos : 0 < size := Nat.zero_lt_of_lt ha
  obtain ⟨d, hd, hmod⟩ :=
    Int.existsUnique_equiv_nat ((address : Int) + lane - position - first)
    (Int.natCast_pos.2 hpos)
  have hread : laneAddress position size lane (first + d) = address := by
    have hd' : ((position + (first + d) : Nat) : Int) - lane =
        d + (position + first - lane) := by
      omega
    have haddress : (address : Int) =
        (address : Int) + lane - position - first +
          (position + first - lane) := by omega
    rw [laneAddress_eq_iff_modEq hpos ha, hd', haddress]
    exact hmod.add_right _
  refine ⟨first + d, ⟨Nat.le_add_right first d, by omega, hread⟩, ?_⟩
  rintro n ⟨hle, hlt, hn⟩
  -- Two ticks in which the lane reads the same address are a multiple of the size
  -- apart.
  have hsame := hn.trans hread.symm
  rw [laneAddress_eq_iff hpos] at hsame
  have hticks : first + d ≡ n [MOD size] :=
    Int.natCast_modEq_iff.1 (hsame.add_right_cancel' (-(lane : Int))).symm
  refine (hticks.eq_of_abs_lt ?_).symm
  rw [abs_lt]
  omega

end LaneAddress

namespace Store

variable {c : Config} {s : Store}

theorem WellFormed.readAddress_follow (h : s.WellFormed c) (hpos : 0 < s.size)
    {is : List Inputs} (hreset : ∀ i ∈ is, i.reset = false)
    (hmoving : ∀ i ∈ is.head?, (i.start || s.sequencer.running) = true) (lane : Nat) :
    (s.follow is).readAddress lane =
      some (laneAddress s.sequencer.position s.size lane is.length) := by
  have hsize : 0 < (s.follow is).size := by
    rwa [size_follow]
  rw [readAddress_of_size_pos hsize, size_follow, h.position_follow hpos hreset hmoving,
    Int.natCast_emod, Int.emod_sub_emod]
  rfl

theorem WellFormed.addresses_follow (h : s.WellFormed c) (hpos : 0 < s.size)
    {is : List Inputs} (hreset : ∀ i ∈ is, i.reset = false)
    (hmoving : ∀ i ∈ is.head?, (i.start || s.sequencer.running) = true) :
    (s.follow is).addresses = .ok ((List.range c.banks).map fun lane =>
      some (laneAddress s.sequencer.position s.size lane is.length)) := by
  rw [(h.follow is).addresses_eq, funext (h.readAddress_follow hpos hreset hmoving)]

theorem WellFormed.drives_follow (h : s.WellFormed c) (hpos : 0 < s.size)
    {is : List Inputs} (hreset : ∀ i ∈ is, i.reset = false)
    (hmoving : ∀ i ∈ is.head?, (i.start || s.sequencer.running) = true) (i : Inputs) :
    ∃ drives, (s.follow is).drives i.routed = .ok drives ∧
      drives.toList.map Drive.read = (List.range c.banks).map fun lane =>
        some (laneAddress s.sequencer.position s.size lane is.length) := by
  refine ⟨_, (h.follow is).drives_eq i, ?_⟩
  rw [List.map_map]
  exact List.map_congr_left fun lane _ => h.readAddress_follow hpos hreset hmoving lane

/-- The wavefront of a stream. Let a block with something to stream be ticked any
number of times, always running or started and never reset, whatever is written
meanwhile. Then each lane is driven with an address below the size in every tick,
and lane `i` in tick `k` reads where lane `j` reads in tick `l` if and only if
`k - i` and `l - j` are the same modulo the size. So lane `j` reads what lane `i` to
its left read `j - i` ticks before, the addresses of two lanes in one tick differ by
their distance, and in as many ticks as there are addresses every lane reads each of
them once. -/
theorem diagonal_wavefront {t : Logged Store} (ht : Reachable c t)
    (hpos : 0 < t.state.size) {is : List Inputs} (haccepted : Step.Accepted tick is t)
    (hmoving : ∀ k (hk : k < is.length), is[k].reset = false ∧
      (is[k].start = true ∨
        (Step.after tick (is.take k) t).state.sequencer.running = true)) :
    ∃ address : Nat → Nat → Nat,
      (∀ k < is.length, (Step.after tick (is.take k) t).state.addresses =
        .ok ((List.range c.banks).map fun lane => some (address lane k))) ∧
      (∀ k (hk : k < is.length),
        ∃ drives,
          (Step.after tick (is.take k) t).state.drives is[k].routed = .ok drives ∧
          drives.toList.map Drive.read =
            (List.range c.banks).map fun lane => some (address lane k)) ∧
      (∀ lane k, address lane k < t.state.size) ∧
      (∀ i j k l, address i k = address j l ↔
        (k : Int) - i ≡ l - j [ZMOD t.state.size]) ∧
      (∀ i j k, i ≤ j → address j (k + (j - i)) = address i k) ∧
      (∀ i j k, (address i k : Int) = (address j k - i + j) % t.state.size) ∧
      ∀ lane first, ∀ a < t.state.size,
        ∃! k, first ≤ k ∧ k < first + t.state.size ∧ address lane k = a := by
  have hwell : t.state.WellFormed c := ht.wellFormed
  have hreset : ∀ k, ∀ i ∈ is.take k, i.reset = false := by
    intro k i hi
    obtain ⟨l, hl, rfl⟩ := List.getElem_of_mem (List.mem_of_mem_take hi)
    exact (hmoving l hl).1
  have hfirst : ∀ k, ∀ i ∈ (is.take k).head?,
      (i.start || t.state.sequencer.running) = true := by
    intro k i hi
    obtain ⟨hl, rfl⟩ :=
      List.getElem?_eq_some_iff.1 (List.head?_eq_getElem? ▸ mem_head?_of_take hi)
    exact Bool.or_eq_true_iff.2 (hmoving 0 hl).2
  have hafter : ∀ k,
      (Step.after tick (is.take k) t).state = t.state.follow (is.take k) :=
    fun k => (after_tick_of_accepted hwell (haccepted.take k)).2
  have hlength : ∀ k < is.length, (is.take k).length = k :=
    fun k hk => List.length_take_of_le (Nat.le_of_lt hk)
  refine ⟨laneAddress t.state.sequencer.position t.state.size, fun k hk => ?_,
    fun k hk => ?_, laneAddress_lt hpos, laneAddress_eq_iff hpos,
    fun i j k hij => laneAddress_trail hpos hij k, laneAddress_neighbour hpos,
    fun lane first a ha => laneAddress_existsUnique lane first ha⟩
  · rw [hafter, hwell.addresses_follow hpos (hreset k) (hfirst k), hlength k hk]
  · have hdrives := hwell.drives_follow hpos (hreset k) (hfirst k) is[k]
    rwa [← hafter, hlength k hk] at hdrives

/-- Three lanes over two words: the last lane, whose number is as large as the size,
reads where the first one read two ticks before, and so it is driven. -/
theorem last_lane_trails_first :
    let t :=
      Step.after perform [.resize 2, .write ⟨0, 1, 5⟩]
        ⟨initial ⟨3, 4, .parallel, false⟩, #[]⟩
    let is : List Inputs := [⟨none, true, false⟩, ⟨some ⟨1, 1, 7⟩, false, false⟩, .idle]
    ∃ first third drives, (Step.after tick (is.take 0) t).state.addresses = .ok first ∧
      (Step.after tick (is.take 2) t).state.addresses = .ok third ∧
        third[2]? = first[0]? ∧
      (Step.after tick (is.take 2) t).state.drives none = .ok drives ∧
      drives.toList.map Drive.read = third := by
  intro t is
  have ht : Reachable ⟨3, 4, .parallel, false⟩ t := ⟨_, _, _, rfl, rfl⟩
  have haccepted : Step.Accepted tick is t := by decide +kernel
  obtain ⟨address, haddresses, hdrives, -, -, htrail, -⟩ :=
    diagonal_wavefront ht (by decide +kernel) haccepted (by decide +kernel)
  obtain ⟨drives, hok, hreads⟩ := hdrives 2 (by decide)
  refine ⟨_, _, drives, haddresses 0 (by decide), haddresses 2 (by decide), ?_, hok,
    hreads⟩
  exact congrArg (fun a => some (some a)) (htrail 0 2 0 (by decide))

end Store

end Wavefront
