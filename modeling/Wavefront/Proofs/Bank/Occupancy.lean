import Wavefront.Proofs.Bank.Outcome

/-!
# The addresses in use

A bank counts an address as in use when it is written for the first time. So the
count is that of the cells that hold a word, `Bank.written`. A tick keeps it so
(`Tallies.next`), and there are no more of them than the bank has cells.
-/

namespace Wavefront

namespace Bank

def written (b : Bank) : Nat := b.cells.countP Option.isSome

theorem written_le_depth (b : Bank) : b.written ≤ b.depth := Array.countP_le_size

theorem written_put {w : PortWrite} {b : Bank} (h : w.address < b.depth) :
    (b.put w).written = if b.isWritten w.address then b.written else b.written + 1 := by
  have hsize : w.address < b.cells.size := h
  have hcell : b.cells[w.address]? = some b.cells[w.address] :=
    Array.getElem?_eq_getElem hsize
  have hput : (b.put w).written =
      (b.cells.set w.address (some w.data) hsize).countP Option.isSome := by
    rw [written, put, Array.setIfInBounds, dif_pos hsize]
  rw [hput, Array.countP_set, isWritten, hcell, Option.join_some]
  cases hword : b.cells[w.address] with
  | none => rfl
  | some word =>
      -- A cell that holds a word is one of those that are counted.
      have hpos : 0 < b.written := by
        refine Array.countP_pos_iff.2 ⟨b.cells[w.address], Array.getElem_mem hsize, ?_⟩
        rw [hword]
        rfl
      exact Nat.sub_add_cancel hpos

def Tallies (b : Bank) : Prop := b.usage.active = b.written

namespace Tallies

theorem active_le_depth {b : Bank} (h : b.Tallies) : b.usage.active ≤ b.depth :=
  Nat.le_trans (Nat.le_of_eq h) b.written_le_depth

theorem afterWrite {b : Bank} (h : b.Tallies) {w : PortWrite}
    (hw : w.address < b.depth) :
    (b.afterWrite w).Tallies := by
  show (if b.isWritten w.address then b.usage.active else b.usage.active + 1) =
    (b.put w).written
  rw [written_put hw, h]

theorem next {b : Bank} (h : b.Tallies) {d : Drive} (hd : b.Takes d) :
    (b.next d).Tallies := by
  obtain ⟨read, write⟩ := d
  obtain ⟨-, hwrite⟩ := hd
  have hread : ∀ address, (b.afterRead address).Tallies := fun _ => h
  cases write with
  | none =>
      cases read with
      | none => exact h
      | some address => exact hread address
  | some w =>
      have hw : w.address < b.depth := hwrite w rfl
      cases read with
      | none => exact h.afterWrite hw
      | some address => exact (hread address).afterWrite hw

end Tallies

end Bank

end Wavefront
