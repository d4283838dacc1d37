import Wavefront.Bank.Usage
import Wavefront.Step

/-!
# A memory bank

A bank holds a fixed number of words behind one write port and one registered read
port. A cell holds no word until it is first written and reads as zero until then
(`Bank.word`).

In one tick a bank carries out what its ports are driven with, `Bank.tick`. Both
addresses are checked before anything else happens, the read address first. The read
comes before the write, so a read of the address being written sees the word from
before; a read port that is not driven holds its output.
-/

namespace Wavefront

/-- A word on its way into an address of one bank. -/
structure PortWrite where
  address : Nat
  data : Word
deriving DecidableEq

/-- What the two ports of a bank are driven with in one tick. -/
structure Drive where
  read : Option Nat
  write : Option PortWrite
deriving DecidableEq

/-- A memory bank: its cells, the registered output of its read port, and its
statistics. -/
structure Bank where
  index : Nat
  cells : Array (Option Word)
  output : Word
  usage : Usage
deriving DecidableEq

namespace Bank

instance : Inhabited Bank := ⟨⟨0, #[], 0, ⟨0, 0, 0, 0, 0⟩⟩⟩

/-- The bytes of a bank beside its words: eight each for its index, its output and
the five counts of its statistics, and twenty-four each to find its words and the
marks of the written ones. -/
def frame : Nat := 104

/-- The bank with this index and `depth` words, never written. The words, of four
bytes each, fill one block of memory. -/
def new (index depth : Nat) : Except Fault Bank := do
  Checked.room depth 4
  let usage ← Usage.new depth
  return ⟨index, Array.replicate depth none, 0, usage⟩

theorem new_of_lt {depth : Nat} (h : depth * 4 < Checked.half) (index : Nat) :
    new index depth =
      .ok ⟨index, Array.replicate depth none, 0, ⟨depth, 0, depth * 4, 0, 0⟩⟩ := by
  have hl : depth * 4 < Checked.limit := Nat.lt_trans h (by decide)
  rw [new, Checked.room_of_lt h, ok_bind, Usage.new_of_lt hl, ok_bind]
  rfl

theorem new_of_le {depth : Nat} (h : Checked.half ≤ depth * 4) (index : Nat) :
    new index depth = .error (.overflow .capacity) := by
  rw [new, Checked.room_of_le h, error_bind]

def depth (b : Bank) : Nat := b.cells.size

/-- The word at an address, zero where nothing has been written. -/
def word (b : Bank) (address : Nat) : Word := b.cells[address]?.join.getD 0

def isWritten (b : Bank) (address : Nat) : Bool := b.cells[address]?.join.isSome

def check (address : Nat) (b : Bank) : Except Fault Unit :=
  if address < b.depth then .ok ()
  else .error (.rejected (.addressOutOfRange address b.depth))

theorem check_of_lt {b : Bank} {address : Nat} (h : address < b.depth) :
    b.check address = .ok () := if_pos h

theorem check_of_le {b : Bank} {address : Nat} (h : b.depth ≤ address) :
    b.check address = .error (.rejected (.addressOutOfRange address b.depth)) :=
  if_neg (Nat.not_lt.2 h)

def peek (address : Nat) (b : Bank) : Except Fault Word := do
  b.check address
  return b.word address

theorem peek_of_lt {b : Bank} {address : Nat} (h : address < b.depth) :
    b.peek address = .ok (b.word address) := by
  rw [peek, check_of_lt h, ok_bind]
  rfl

theorem peek_of_le {b : Bank} {address : Nat} (h : b.depth ≤ address) :
    b.peek address = .error (.rejected (.addressOutOfRange address b.depth)) := by
  rw [peek, check_of_le h, error_bind]

def put (w : PortWrite) (b : Bank) : Bank :=
  { b with cells := b.cells.setIfInBounds w.address (some w.data) }

@[simp] theorem depth_put (w : PortWrite) (b : Bank) : (b.put w).depth = b.depth := by
  simp [depth, put]

theorem word_put {w : PortWrite} {b : Bank} (h : w.address < b.depth) (address : Nat) :
    (b.put w).word address =
      if address = w.address then w.data else b.word address := by
  simp only [word, put, Array.getElem?_setIfInBounds]
  by_cases ha : address = w.address
  · subst ha
    have hs : w.address < b.cells.size := h
    simp [hs]
  · simp [ha, Ne.symm ha]

theorem isWritten_put {w : PortWrite} {b : Bank} (h : w.address < b.depth)
    (address : Nat) :
    (b.put w).isWritten address =
      (decide (address = w.address) || b.isWritten address) := by
  simp only [isWritten, put, Array.getElem?_setIfInBounds]
  by_cases ha : address = w.address
  · subst ha
    have hs : w.address < b.cells.size := h
    simp [hs]
  · simp [ha, Ne.symm ha]

def readPort (address : Nat) : Step Bank Unit := do
  Step.update fun b => { b with output := b.word address }
  let usage ← Step.query fun b => b.usage.countRead
  Step.update fun b => { b with usage := usage }

/-- The write port stores a word; an address written for the first time comes into
use. -/
def writePort (w : PortWrite) : Step Bank Unit := do
  let fresh ← Step.observe fun b => !b.isWritten w.address
  Step.update (put w)
  if fresh then
    let active ← Step.query fun b => Checked.add b.usage.active 1
    Step.update fun b => { b with usage := b.usage.occupy active }
  let usage ← Step.query fun b => b.usage.countWrite
  Step.update fun b => { b with usage := usage }

/-- One tick of the bank; it returns the registered output. -/
def tick (d : Drive) : Step Bank Word := do
  if let some address := d.read then
    Step.query (check address)
  if let some w := d.write then
    Step.query (check w.address)
  if let some address := d.read then
    readPort address
  if let some w := d.write then
    writePort w
  Step.observe output

end Bank

end Wavefront
