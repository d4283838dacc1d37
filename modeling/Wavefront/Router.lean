import Wavefront.Bank.Basic

/-!
# The write router

The router takes the write commands of the block and hands each to the bank it
names. It never makes its producer wait, and it counts what it accepts.
`Routed.spread` spreads a routed command over the banks: the bank that is named is
driven and every other is not (`getElem?_spread`). A router of its own drives any
number of banks for which there is room, `Router.drives`.
-/

namespace Wavefront

/-- A command that has found its bank. -/
structure Routed where
  bank : Nat
  write : PortWrite
deriving DecidableEq

namespace Routed

/-- The write drives of `banks` banks, when at most one command is on its way. -/
def spread (routed : Option Routed) (banks : Nat) : List (Option PortWrite) :=
  (List.range banks).map fun i => (routed.filter fun r => r.bank == i).map write

@[simp] theorem length_spread (routed : Option Routed) (banks : Nat) :
    (spread routed banks).length = banks := by
  simp [spread]

theorem getElem?_spread {routed : Option Routed} {banks i : Nat} (h : i < banks) :
    (spread routed banks)[i]? =
      some ((routed.filter fun r => r.bank == i).map write) := by
  simp [spread, h]

end Routed

/-- The router, with the number of commands it has accepted. -/
structure Router where
  accepted : Nat
deriving DecidableEq

namespace Router

def new : Router := ⟨0⟩

instance : Inhabited Router := ⟨new⟩

def ready (_ : Router) : Bool := true

/-- Accept the command of a tick, if there is one. -/
def route : Option Write → Step Router (Option Routed)
  | none => return none
  | some command => do
      let accepted ← Step.query fun r => Checked.add r.accepted 1
      Step.update fun r => { r with accepted := accepted }
      Step.emit (.routed command)
      return some ⟨command.bank, ⟨command.address, command.data⟩⟩

/-- The bytes that drive the write port of one bank: eight each for whether it is
driven, for the address and for the word. -/
def portBytes : Nat := 24

/-- The write drives of `banks` banks, if there is room for so many. -/
def drives (routed : Option Routed) (banks : Nat) :
    Except Fault (List (Option PortWrite)) := do
  Checked.room banks portBytes
  return Routed.spread routed banks

theorem drives_of_lt {banks : Nat} (h : banks * portBytes < Checked.half)
    (routed : Option Routed) :
    drives routed banks = .ok (Routed.spread routed banks) := by
  rw [drives, Checked.room_of_lt h, ok_bind]
  rfl

end Router

end Wavefront
