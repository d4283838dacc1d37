import Wavefront.Store.Basic

/-!
# Ticks of the block

A tick first checks its write command. A command that names no bank, or no word of
its bank, is refused before anything is touched. Then every combinational value is
taken from the state in which the tick began: the routed command and the drives of
all lanes. Then the banks tick, in an order that the concurrency mode picks, and the
sequencer moves on.

The streaming size can be changed between ticks, within the depth of the banks and
only while the sequencer stands still; that is why no address of a running stream
ever leaves its bank.
-/

namespace Wavefront

namespace Store

/-- Set the streaming size. The size is checked against the depth before the
sequencer is looked at. -/
def resize (size : Nat) : Step Store Unit := do
  let depth ← Step.observe depth
  if depth < size then Step.reject (.sizeExceedsDepth size depth)
  if ← Step.observe fun s => s.sequencer.running then
    Step.reject .sizeChangeWhileRunning
  let before ← Step.observe Store.size
  Step.emit (.resized before size)
  Step.update fun s => { s with size := size }

/-- Succeeds on the commands that name a word of a bank; the bank is checked
first. -/
def check (w : Write) (s : Store) : Except Fault Unit :=
  if s.width ≤ w.bank then .error (.rejected (.bankOutOfRange w.bank s.width))
  else if s.depth ≤ w.address then
    .error (.rejected (.addressOutOfRange w.address s.depth))
  else .ok ()

def Accepts (s : Store) (w : Write) : Prop := w.bank < s.width ∧ w.address < s.depth

instance (s : Store) (w : Write) : Decidable (s.Accepts w) :=
  inferInstanceAs (Decidable (_ ∧ _))

theorem check_eq_ok_iff (s : Store) (w : Write) : s.check w = .ok () ↔ s.Accepts w := by
  simp only [check, Accepts]
  split
  next hb => simp [Nat.not_lt.2 hb]
  next hb =>
    split
    next ha => simp [Nat.not_lt.2 ha]
    next ha => simp [Nat.not_le.1 hb, Nat.not_le.1 ha]

/-- What a tick with these inputs reports about its pulses. A reset is reported in
every case, a start only when it leaves the stop. -/
def pulses (i : Inputs) (s : Store) : Option Event :=
  if i.reset then some (.reset s.sequencer)
  else if i.start && !s.sequencer.running then
    if s.size = 0 then some .startedEmpty else some (.started s.size s.width)
  else none

/-- The drives of all lanes: each lane reads at its own address, and the bank that
the routed command names is written. -/
def drives (routed : Option Routed) (s : Store) : Except Fault (Array Drive) := do
  let writes ← Router.drives routed s.width
  let addresses ← s.addresses
  return (List.zipWith Drive.mk addresses writes).toArray

/-- Take a bank out of its place, which stays vacant until the bank returns. -/
def takeBank (i : Nat) (banks : Array Bank) : Bank × (Bank → Array Bank) :=
  let bank := banks.getD i default
  let vacated := banks.setIfInBounds i default
  (bank, vacated.setIfInBounds i)

theorem takeBank_of_lt {i : Nat} {banks : Array Bank} (h : i < banks.size) :
    takeBank i banks = (banks[i], fun b => banks.set i b h) := by
  simp only [takeBank, Array.getD, h, dif_pos, Prod.mk.injEq]
  refine ⟨rfl, funext fun b => ?_⟩
  simp [Array.setIfInBounds, h]

/-- Tick the lanes in the given order, each with its own drive. -/
def commit (drives : Array Drive) (order : List Nat) : Step (Array Bank) Unit :=
  order.forM fun i =>
    match drives[i]? with
    | some d => discard <| Step.within (takeBank i) (Bank.tick d)
    | none => return

def takeRouter : Store → Router × (Router → Store)
  | ⟨config, banks, places, sequencer, router, size⟩ =>
      (router, fun router => ⟨config, banks, places, sequencer, router, size⟩)

def takeBanks : Store → Array Bank × (Array Bank → Store)
  | ⟨config, banks, places, sequencer, router, size⟩ =>
      (banks, fun banks => ⟨config, banks, places, sequencer, router, size⟩)

/-- One tick, its lanes evaluated in the given order. -/
def tickIn (order : List Nat) (i : Inputs) : Step Store Unit := do
  if let some w := i.write then
    Step.query (check w)
  let before ← Step.observe sequencer
  if let some event ← Step.observe (pulses i) then
    Step.emit event
  let routed ← Step.within takeRouter (Router.route i.write)
  let drives ← Step.query (drives routed)
  Step.within takeBanks (commit drives order)
  let after ← Step.query fun s => s.sequencer.next ⟨i.start, i.reset, s.size⟩
  Step.update fun s => { s with sequencer := after }
  Step.emit (.moved before after)

def tick (i : Inputs) : Step Store Unit := do
  let order ← Step.observe fun s => s.config.concurrency.order s.width
  tickIn order i

def write (w : Write) : Step Store Unit := tick (.ofWrite w)

/-- A request to the block between or in ticks. -/
inductive Request where
  | resize (size : Nat)
  | tick (inputs : Inputs)
  | write (command : Write)
deriving DecidableEq

/-- Carry out a request in a block that is ticked by `tick`. -/
def performBy (tick : Inputs → Step Store Unit) : Request → Step Store Unit
  | .resize size => resize size
  | .tick inputs => tick inputs
  | .write command => tick (.ofWrite command)

def perform : Request → Step Store Unit := performBy tick

end Store

end Wavefront
