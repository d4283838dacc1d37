import Mathlib.Data.Finset.Card
import Wavefront.Proofs.Bank.Outcome

/-!
# What the statistics of a bank stand for

The statistics of a bank are counts. `Bank.Accounts` says of what: the reads that
were carried out, the writes, and the different addresses among these. A new bank
accounts for nothing (`Accounts.blank`), and a tick adds what its ports were driven
with (`Accounts.next`).
-/

namespace Wavefront

namespace Bank

/-- The statistics of a bank that has been read so many times and written at these
addresses, in order. -/
structure Accounts (reads : Nat) (addresses : List Nat) (b : Bank) : Prop where
  reads_eq : b.usage.reads = reads
  writes_eq : b.usage.writes = addresses.length
  active_eq : b.usage.active = addresses.toFinset.card
  isWritten_iff : ∀ address, b.isWritten address = true ↔ address ∈ addresses
  total_eq : b.usage.total = b.depth
  bytes_eq : b.usage.bytes = 4 * b.depth

namespace Accounts

variable {reads : Nat} {addresses : List Nat} {b : Bank}

theorem blank (index depth : Nat) : (blank index depth).Accounts 0 [] := by
  refine ⟨rfl, rfl, rfl, fun address => ?_, (depth_blank index depth).symm, ?_⟩
  · rw [isWritten, cells_blank]
    simp
  · rw [depth_blank]
    exact Nat.mul_comm depth 4

theorem afterRead (h : b.Accounts reads addresses) (address : Nat) :
    (b.afterRead address).Accounts (reads + 1) addresses :=
  ⟨congrArg (· + 1) h.reads_eq, h.writes_eq, h.active_eq, h.isWritten_iff, h.total_eq,
    h.bytes_eq⟩

theorem afterWrite (h : b.Accounts reads addresses) {w : PortWrite}
    (hw : w.address < b.depth) :
    (b.afterWrite w).Accounts reads (addresses ++ [w.address]) := by
  refine ⟨h.reads_eq, ?_, ?_, fun address => ?_, ?_, ?_⟩
  · rw [List.length_append, List.length_singleton, ← h.writes_eq]
    rfl
  · have hinsert : (addresses ++ [w.address]).toFinset =
        insert w.address addresses.toFinset := by
      rw [List.toFinset_append, Finset.union_comm]
      rfl
    show (if b.isWritten w.address then b.usage.active else b.usage.active + 1) = _
    rw [hinsert, h.active_eq]
    by_cases hwritten : b.isWritten w.address = true
    · have hmem := List.mem_toFinset.2 ((h.isWritten_iff w.address).1 hwritten)
      rw [if_pos hwritten, Finset.card_insert_of_mem hmem]
    · have hmem := mt List.mem_toFinset.1 (mt (h.isWritten_iff w.address).2 hwritten)
      rw [if_neg hwritten, Finset.card_insert_of_notMem hmem]
  · show (b.put w).isWritten address = true ↔ _
    rw [isWritten_put hw, Bool.or_eq_true, decide_eq_true_iff, h.isWritten_iff,
      List.mem_append, List.mem_singleton, or_comm]
  · rw [depth_afterWrite, ← h.total_eq]
    rfl
  · rw [depth_afterWrite, ← h.bytes_eq]
    rfl

theorem next (h : b.Accounts reads addresses) {d : Drive} (hd : b.Takes d) :
    (b.next d).Accounts (reads + if d.read.isSome then 1 else 0)
      (addresses ++ d.write.toList.map PortWrite.address) := by
  obtain ⟨read, write⟩ := d
  obtain ⟨-, hwrite⟩ := hd
  have hread : (read.elim b fun address => b.afterRead address).Accounts
      (reads + if read.isSome then 1 else 0) addresses := by
    cases read with
    | none => exact h
    | some address => exact h.afterRead address
  cases write with
  | none =>
      show (read.elim b fun address => b.afterRead address).Accounts _ (addresses ++ [])
      rw [List.append_nil]
      exact hread
  | some w =>
      have hdepth : (read.elim b fun address => b.afterRead address).depth =
          b.depth := by
        cases read <;> rfl
      exact hread.afterWrite (hdepth ▸ hwrite w rfl)

theorem active_le_depth (h : b.Accounts reads addresses) :
    b.usage.active ≤ b.depth := by
  have hsubset : addresses.toFinset ⊆ Finset.range b.depth := by
    intro address haddress
    have hwritten := (h.isWritten_iff address).2 (List.mem_toFinset.1 haddress)
    refine Finset.mem_range.2 (Nat.lt_of_not_le fun hle => ?_)
    rw [isWritten, Array.getElem?_eq_none hle] at hwritten
    exact absurd hwritten (by simp)
  calc
    b.usage.active
    _ = addresses.toFinset.card := h.active_eq
    _ ≤ (Finset.range b.depth).card := Finset.card_le_card hsubset
    _ = b.depth := Finset.card_range b.depth

end Accounts

end Bank

end Wavefront
