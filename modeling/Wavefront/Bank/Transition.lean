import Wavefront.Bank.Basic

/-!
# What a tick does to a bank

`Bank.next` is the bank after a tick, as a function of its drive, and `Bank.Takes`
says that the drive names addresses of the bank only. Each port does its part of the
tick as long as its counters have room (`readPort_apply`, `writePort_apply`). A
drive with an address outside the bank is refused, and the bank stays as it was
(`tick_of_read`, `tick_of_write`).
-/

namespace Wavefront

namespace Bank

def afterRead (address : Nat) (b : Bank) : Bank :=
  { b with
    output := b.word address
    usage := { b.usage with reads := b.usage.reads + 1 } }

def afterWrite (w : PortWrite) (b : Bank) : Bank :=
  { b.put w with
    usage := { b.usage with
      active := if b.isWritten w.address then b.usage.active else b.usage.active + 1
      writes := b.usage.writes + 1 } }

/-- The bank after a tick: first the read, then the write. -/
def next (d : Drive) (b : Bank) : Bank :=
  let read := d.read.elim b fun address => b.afterRead address
  d.write.elim read fun w => read.afterWrite w

def Takes (b : Bank) (d : Drive) : Prop :=
  (∀ address, d.read = some address → address < b.depth) ∧
    ∀ w, d.write = some w → w.address < b.depth

/-- Every counter can be counted up once more. -/
def HasRoom (b : Bank) : Prop :=
  b.usage.reads + 1 < Checked.limit ∧ b.usage.writes + 1 < Checked.limit ∧
    b.usage.active + 1 < Checked.limit

@[simp] theorem depth_afterRead (address : Nat) (b : Bank) :
    (b.afterRead address).depth = b.depth := rfl

@[simp] theorem depth_afterWrite (w : PortWrite) (b : Bank) :
    (b.afterWrite w).depth = b.depth := b.depth_put w

@[simp] theorem depth_next (d : Drive) (b : Bank) : (b.next d).depth = b.depth := by
  obtain ⟨read, write⟩ := d
  cases read <;> cases write <;> simp [next]

@[simp] theorem index_next (d : Drive) (b : Bank) : (b.next d).index = b.index := by
  obtain ⟨read, write⟩ := d
  cases read <;> cases write <;> rfl

theorem readPort_apply {b : Bank} (h : b.usage.reads + 1 < Checked.limit)
    (address : Nat) (log : Array Event) :
    readPort address ⟨b, log⟩ = .ok () ⟨b.afterRead address, log⟩ := by
  simp [readPort, Step.bind_apply, Step.query_apply, Step.update_apply,
    Usage.countRead_of_lt h, afterRead]

theorem writePort_apply {b : Bank} (hw : b.usage.writes + 1 < Checked.limit)
    (ha : b.usage.active + 1 < Checked.limit) (w : PortWrite) (log : Array Event) :
    writePort w ⟨b, log⟩ = .ok () ⟨b.afterWrite w, log⟩ := by
  cases h : b.isWritten w.address with
  | true =>
      simp [writePort, Step.bind_apply, Step.observe_apply, Step.query_apply,
        Step.update_apply, Usage.countWrite_of_lt hw, afterWrite, put, h]
  | false =>
      have hw' : (b.usage.occupy (b.usage.active + 1)).writes + 1 < Checked.limit := hw
      simp [writePort, Step.bind_apply, Step.observe_apply, Step.query_apply,
        Step.update_apply, Checked.add_of_lt ha, Usage.countWrite_of_lt hw', afterWrite,
        put, h]
      simp [Usage.occupy]

theorem tick_of_read {b : Bank} {address : Nat} (h : b.depth ≤ address)
    (write : Option PortWrite) (log : Array Event) :
    tick ⟨some address, write⟩ ⟨b, log⟩ =
      .error (.rejected (.addressOutOfRange address b.depth)) ⟨b, log⟩ := by
  simp [tick, Step.bind_apply, Step.query_apply, check_of_le h]

/-- A write outside the bank is refused and named, unless the read is refused before
it. -/
theorem tick_of_write {b : Bank} {w : PortWrite} {read : Option Nat}
    (h : b.depth ≤ w.address)
    (hread : ∀ address, read = some address → address < b.depth) (log : Array Event) :
    tick ⟨read, some w⟩ ⟨b, log⟩ =
      .error (.rejected (.addressOutOfRange w.address b.depth)) ⟨b, log⟩ := by
  cases read with
  | none => simp [tick, Step.bind_apply, Step.query_apply, check_of_le h]
  | some address =>
      simp [tick, Step.bind_apply, Step.query_apply, check_of_lt (hread address rfl),
        check_of_le h]

end Bank

end Wavefront
