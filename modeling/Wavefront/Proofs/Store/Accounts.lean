import Mathlib.Algebra.BigOperators.Group.Finset.Basic
import Mathlib.Algebra.GroupWithZero.Nat
import Wavefront.Proofs.Bank.Accounts
import Wavefront.Proofs.Store.Bounds
import Wavefront.Proofs.Store.History

/-!
# The statistics account for the run

A bank counts its reads, its writes and its addresses in use, and the router counts
the commands, each on a branch of its own. `Bank.Accounts` and `Store.Accounts` say
what these counts stand for: the ticks that the block has carried out and the
commands among them. Every command goes to one bank, which counts it once
(`Accounts.next`); ticks that are refused and changes of the size are counted
nowhere. So after every run the statistics can be read off the history of the run
(`accounts_after`), and the counts of the banks sum up to that of the router
(`Accounts.sum_writes`). `access_accounting` puts this together.
-/

namespace Wavefront

namespace Store

def commands (ticks : List Ticked) : List Write :=
  ticks.filterMap fun x => x.inputs.write

def commandsTo (lane : Nat) (ticks : List Ticked) : List Write :=
  (commands ticks).filter fun w => w.bank = lane

/-- The ticks in which the lanes were read. -/
def reads (ticks : List Ticked) : List Ticked := ticks.filter fun x => 0 < x.size

/-- The statistics of a block that has carried out these ticks. -/
structure Accounts (ticks : List Ticked) (s : Store) : Prop where
  banks : ∀ {lane : Nat} {b : Bank}, s.banks[lane]? = some b →
    b.Accounts (reads ticks).length ((commandsTo lane ticks).map Write.address)
  accepted_eq : s.accepted = (commands ticks).length
  bank_lt : ∀ w ∈ commands ticks, w.bank < s.width

theorem commands_append_singleton (ticks : List Ticked) (x : Ticked) :
    commands (ticks ++ [x]) = commands ticks ++ x.inputs.write.toList := by
  rw [commands, commands, List.filterMap_append]
  cases hw : x.inputs.write <;> simp [hw]

theorem length_reads_append_singleton (ticks : List Ticked) (x : Ticked) :
    (reads (ticks ++ [x])).length =
      (reads ticks).length + if 0 < x.size then 1 else 0 := by
  rw [reads, reads, List.filter_append, List.length_append]
  by_cases hx : 0 < x.size <;> simp [hx]

variable {c : Config} {s : Store}

theorem address_drive (i : Inputs) (s : Store) (lane : Nat) :
    (s.drive i lane).write.toList.map PortWrite.address =
      (i.write.toList.filter fun w => w.bank = lane).map Write.address := by
  cases hw : i.write with
  | none =>
      rw [write_drive_of_none hw]
      rfl
  | some w =>
      by_cases hlane : w.bank = lane
      · subst hlane
        rw [write_drive_of_eq hw]
        simp
      · rw [write_drive_of_ne hw s hlane]
        simp [hlane]

theorem isSome_readAddress (s : Store) (lane : Nat) :
    (s.readAddress lane).isSome = decide (0 < s.size) := by
  rcases Nat.eq_zero_or_pos s.size with hz | hz
  · simp [readAddress_of_size_eq hz, hz]
  · simp [readAddress_of_size_pos hz, hz]

namespace Accounts

variable {ticks : List Ticked}

theorem initial (c : Config) : (Store.initial c).Accounts [] := by
  refine ⟨fun {lane b} hb => ?_, rfl, by simp [commands]⟩
  rw [getElem?_banks_initial c hb]
  exact .blank lane c.depth

theorem resize (h : s.Accounts ticks) (size : Nat) :
    Accounts ticks { s with size := size } :=
  ⟨h.banks, h.accepted_eq, h.bank_lt⟩

theorem next (h : s.Accounts ticks) (hs : s.WellFormed c) {i : Inputs}
    (hi : s.Admits i) :
    (s.next i).Accounts (ticks ++ [⟨i, s.size⟩]) := by
  refine ⟨fun {lane b'} hb' => ?_, ?_, fun w hw => ?_⟩
  · obtain ⟨b, hb, rfl⟩ := bank_of_next hb'
    have hbank := (h.banks hb).next (hs.takes_drive hi hb)
    rw [address_drive] at hbank
    rw [commandsTo, commands_append_singleton, List.filter_append, List.map_append,
      length_reads_append_singleton]
    have hread : (s.drive i lane).read.isSome = decide (0 < s.size) :=
      isSome_readAddress s lane
    simp only [hread, decide_eq_true_eq] at hbank
    exact hbank
  · rw [commands_append_singleton, List.length_append, ← h.accepted_eq]
    rfl
  · rw [commands_append_singleton, List.mem_append, Option.mem_toList] at hw
    rw [width_next]
    rcases hw with hw | hw
    · exact h.bank_lt w hw
    · exact (hi w hw).1

theorem usage_writes (h : s.Accounts ticks) {lane : Nat} {b : Bank}
    (hb : s.banks[lane]? = some b) :
    b.usage.writes = (commandsTo lane ticks).length := by
  rw [(h.banks hb).writes_eq, List.length_map]

theorem sum_writes (h : s.Accounts ticks) :
    (s.banks.toList.map fun b => b.usage.writes).sum = s.accepted := by
  have hcount : ∀ lane, (commandsTo lane ticks).length =
      Multiset.count lane ((commands ticks).map Write.bank) := by
    intro lane
    rw [Multiset.coe_count, List.count, List.countP_map, commandsTo,
      ← List.countP_eq_length_filter]
    rfl
  have hbanks : (s.banks.toList.map fun b => b.usage.writes) =
      (List.range s.width).map fun lane =>
        Multiset.count lane ((commands ticks).map Write.bank) := by
    apply List.ext_getElem?
    intro lane
    rw [List.getElem?_map, List.getElem?_map, Array.getElem?_toList]
    rcases Nat.lt_or_ge lane s.width with hlane | hlane
    · have hb : s.banks[lane]? = some s.banks[lane] := Array.getElem?_eq_getElem hlane
      rw [hb, List.getElem?_range hlane, Option.map_some, Option.map_some,
        h.usage_writes hb, hcount]
    · rw [Array.getElem?_eq_none hlane, List.getElem?_eq_none (by simpa using hlane)]
      rfl
  have hlanes : ∀ lane ∈ ((commands ticks).map Write.bank : Multiset Nat),
      lane ∈ Finset.range s.width := by
    intro lane hlane
    obtain ⟨w, hw, rfl⟩ := List.mem_map.1 (Multiset.mem_coe.1 hlane)
    exact Finset.mem_range.2 (h.bank_lt w hw)
  calc
    (s.banks.toList.map fun b => b.usage.writes).sum
    _ = ∑ lane ∈ Finset.range s.width,
      Multiset.count lane ((commands ticks).map Write.bank) := by
        rw [hbanks]
        rfl
    _ = ((commands ticks).map Write.bank).length := Multiset.sum_count_eq_card hlanes
    _ = s.accepted := by rw [List.length_map, h.accepted_eq]

end Accounts

theorem accounts_after {s₀ : Store} (h : new c = .ok s₀) {rs : List Request}
    {log : Array Event} (ha : Step.Answered perform rs ⟨s₀, log⟩) :
    (Step.after perform rs ⟨s₀, log⟩).state.Accounts (history rs ⟨s₀, log⟩) := by
  obtain ⟨hc, rfl⟩ := new_eq_ok_iff.1 h
  exact history_induction (I := Accounts) [] (wellFormed_initial hc) (.initial c)
    (fun _ _ size h => h.resize size) (fun _ _ _ hs hi h => h.next hs hi) ha

/-- After every run of fewer ticks than a counter can count, refused requests among
its own, the statistics of every bank are those of the ticks that were carried out.
A bank has counted the commands for it and the addresses among them, each once,
which are the cells that hold a word, and the ticks in which there was something to
stream, as every other bank has. Its size has stayed. The counts of the banks sum up
to that of the router, which is the number of commands. -/
theorem access_accounting {s₀ : Store} (h : new c = .ok s₀) {rs : List Request}
    (hticks : ticksIn rs < Checked.limit) (log : Array Event) :
    let s := (Step.after perform rs ⟨s₀, log⟩).state
    let ticks := history rs ⟨s₀, log⟩
    (∀ lane < c.banks, ∃ b, s.bank lane = .ok b ∧ s.usage lane = .ok b.usage ∧
      b.usage.writes = (commandsTo lane ticks).length ∧
      b.usage.active = ((commandsTo lane ticks).map Write.address).toFinset.card ∧
      b.usage.active ≤ c.depth ∧ b.usage.active = b.cells.countP Option.isSome ∧
      b.usage.reads = (reads ticks).length ∧
      b.usage.total = c.depth ∧ b.usage.bytes = 4 * c.depth) ∧
    (s.banks.toList.map fun b => b.usage.writes).sum = s.accepted ∧
    s.accepted = (commands ticks).length := by
  intro s ticks
  obtain ⟨hc, rfl⟩ := new_eq_ok_iff.1 h
  have hinitial := wellFormed_initial hc
  have ha := (answered_of_ticks_lt hinitial (.initial c) rs (by omega) log).2
  have hwell : s.WellFormed c := wellFormed_after hinitial rs log
  have haccounts : s.Accounts ticks := accounts_after h ha
  have htallies : s.Tallies := tallies_after hinitial (.initial c) ha
  refine ⟨fun lane hlane => ?_, haccounts.sum_writes, haccounts.accepted_eq⟩
  obtain ⟨b, hb⟩ := hwell.bank_of_lane hlane
  have hbank : s.bank lane = .ok b := by
    rw [bank, hb]
  have hdepth : b.depth = c.depth := hwell.depth_eq hb
  have hactive := (htallies lane b hb).active_le_depth
  have hstatistics := haccounts.banks hb
  refine ⟨b, hbank, ?_, haccounts.usage_writes hb, hstatistics.active_eq,
    hdepth ▸ hactive,
    htallies lane b hb, hstatistics.reads_eq, hdepth ▸ hstatistics.total_eq,
    hdepth ▸ hstatistics.bytes_eq⟩
  rw [usage, hbank]
  rfl

/-- A word written twice, another bank written beside it, and two refusals, before
and in a stream. -/
theorem accounts_around_refusals :
    let rs : List Request :=
      [.write ⟨1, 2, 7⟩, .write ⟨1, 2, 8⟩, .resize 3, .write ⟨1, 9, 9⟩,
        .tick ⟨some ⟨0, 1, 5⟩, true, false⟩, .write ⟨2, 0, 9⟩, .resize 1,
        .write ⟨1, 0, 6⟩]
    let s := (Step.after perform rs ⟨initial ⟨2, 4, .parallel, false⟩, #[]⟩).state
    s.accepted = 4 ∧ ∃ b, s.bank 1 = .ok b ∧ b.usage.writes = 3 ∧ b.usage.active = 2 ∧
      b.usage.reads = 2 ∧ b.usage.bytes = 16 := by
  intro rs s
  have hnew : new ⟨2, 4, .parallel, false⟩ = .ok (initial ⟨2, 4, .parallel, false⟩) :=
    rfl
  have hticks : ticksIn rs < Checked.limit := by decide
  obtain ⟨hbanks, -, haccepted⟩ := access_accounting hnew hticks #[]
  obtain ⟨b, hb, -, hwrites, hactive, -, -, hreads, -, hbytes⟩ := hbanks 1 (by decide)
  refine ⟨haccepted.trans ?_, b, hb, hwrites.trans ?_, hactive.trans ?_,
    hreads.trans ?_, hbytes⟩
  all_goals decide +kernel

end Store

end Wavefront
