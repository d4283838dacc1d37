import Wavefront.Config
import Wavefront.Router
import Wavefront.Diagonal

/-!
# The block

A `Store` is one bank for each lane, with the sequencer that all lanes read behind,
the place of each lane on the diagonal, and the router of the write channel. Its
registers are the outputs of the banks, the sequencer and the streaming size.

This module builds a store and says what can be read off it between ticks. How it
ticks is in `Wavefront.Store.Tick`.
-/

namespace Wavefront

/-- The block: banks, their places on the diagonal, sequencer, router and streaming
size. -/
structure Store where
  config : Config
  banks : Array Bank
  places : List Place
  sequencer : Sequencer
  router : Router
  size : Nat
deriving DecidableEq

namespace Store

/-- The block of a configuration: nothing written, stopped, and nothing to stream.
The banks lie together in one block of memory, and they differ in their index
alone. -/
def new (c : Config) : Except Fault Store := do
  c.validate
  Checked.room c.banks Bank.frame
  let blank ← Bank.new 0 c.depth
  let banks := (List.range c.banks).map fun i => { blank with index := i }
  return ⟨c, banks.toArray, (List.range c.banks).map Place.mk, .stopped, .new, 0⟩

theorem new_of_lt {c : Config} (hc : c.validate = .ok ())
    (hb : c.banks * Bank.frame < Checked.half) (hd : c.depth * 4 < Checked.half) :
    new c = .ok
      ⟨c, ((List.range c.banks).map fun i =>
          ⟨i, Array.replicate c.depth none, 0,
            ⟨c.depth, 0, c.depth * 4, 0, 0⟩⟩).toArray,
        (List.range c.banks).map Place.mk, .stopped, .new, 0⟩ := by
  rw [new, hc, ok_bind, Checked.room_of_lt hb, ok_bind, Bank.new_of_lt hd, ok_bind]
  rfl

/-- The number of banks, which is the number of lanes. -/
def width (s : Store) : Nat := s.banks.size

def depth (s : Store) : Nat := s.config.depth

/-- The phase that the registers show. A tick that leaves the stop is told apart
only by its inputs, so `Phase.priming` never shows here. -/
def phase (s : Store) : Phase := if s.sequencer.running then .streaming else .idle

theorem phase_ne_priming (s : Store) : s.phase ≠ .priming := by
  simp only [phase]
  split <;> simp

def outputs (s : Store) : List Word := s.banks.toList.map Bank.output

@[simp] theorem length_outputs (s : Store) : s.outputs.length = s.width := by
  simp [outputs, width]

def cursor (s : Store) : Cursor := ⟨s.sequencer.position, s.size⟩

def addresses (s : Store) : Except Fault (List (Option Nat)) :=
  s.places.mapM fun p => p.address s.cursor

def bank (index : Nat) (s : Store) : Except Fault Bank :=
  match s.banks[index]? with
  | some b => .ok b
  | none => .error (.rejected (.bankOutOfRange index s.width))

/-- The word at an address of a bank, read past the ports. -/
def peek (index address : Nat) (s : Store) : Except Fault Word := do
  let b ← s.bank index
  b.peek address

def usage (index : Nat) (s : Store) : Except Fault Usage := do
  let b ← s.bank index
  return b.usage

def ready (s : Store) : Bool := s.router.ready

def accepted (s : Store) : Nat := s.router.accepted

end Store

end Wavefront
