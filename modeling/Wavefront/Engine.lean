import Wavefront.Layout.Basic
import Wavefront.Store.Tick
import Wavefront.Trace.Basic

/-!
# The engine

An `Engine` clocks a block. Inputs are queued ahead of time and each cycle consumes
one of them; when the queue has run dry the cycles are idle. A cycle whose tick is
carried out counts, and yields a record that is also added to the trace, if one is
kept. A cycle whose tick is refused counts for nothing, but its inputs have left the
queue.

`Engine.load` queues a filter, `Engine.run` carries out a number of cycles and
`Engine.drain` those that consume the queue. Both stop at the first fault.
-/

namespace Wavefront

/-- A block with its queue of inputs, the number of cycles carried out, and the
trace if one is kept. -/
structure Engine where
  store : Store
  cycles : Nat
  queue : List Inputs
  trace : Option Trace
deriving DecidableEq

namespace Engine

/-- An engine that has not run; it keeps a trace when the configuration of the block
asks for one. -/
def ofStore (s : Store) : Engine :=
  ⟨s, 0, [], if s.config.traced then some .empty else none⟩

def new (c : Config) : Except Fault Engine := do
  let s ← Store.new c
  return ofStore s

def pending (e : Engine) : Nat := e.queue.length

def drained (e : Engine) : Bool := e.queue.isEmpty

theorem drained_iff (e : Engine) : e.drained = true ↔ e.pending = 0 := by
  simp [drained, pending]

def enqueue (inputs : List Inputs) (e : Engine) : Engine :=
  { e with queue := e.queue ++ inputs }

@[simp] theorem pending_enqueue (inputs : List Inputs) (e : Engine) :
    (e.enqueue inputs).pending = e.pending + inputs.length := by
  simp [pending, enqueue]

def takeStore : Engine → Store × (Store → Engine)
  | ⟨store, cycles, queue, trace⟩ => (store, fun store => ⟨store, cycles, queue, trace⟩)

def onStore {α : Type} (x : Step Store α) : Step Engine α := Step.within takeStore x

def layout (e : Engine) : Layout := ⟨e.store.width, e.store.depth⟩

/-- Queue the write commands of a filter and set the block to its size, which is
returned. -/
def load (words : List Word) : Step Engine Nat := do
  let load ← Step.query fun e => e.layout.load words
  onStore (Store.resize load.size)
  Step.emit (.queued load.commands.length load.size)
  Step.update (enqueue (load.commands.map Inputs.ofWrite))
  return load.size

/-!
## Cycles

Nothing in a cycle depends on how the block ticks. So the cycles are given for a
block that is ticked by `tick`, whatever that does, and below for the block as it
is.
-/

section TickedBy

variable (tick : Inputs → Step Store Unit)

/-- Carry out one cycle with the given inputs, past the queue. -/
@[specialize] def clockBy (i : Inputs) : Step Engine Record := do
  let cycle ← Step.query fun e => Checked.add e.cycles 1
  Step.emit (.cycle cycle)
  let before ← Step.observe fun e => e.store.sequencer
  let addresses ← Step.query fun e => e.store.addresses
  onStore (tick i)
  let outputs ← Step.observe fun e => e.store.outputs
  let record : Record :=
    ⟨cycle, .ofTick before.running i, before.position, before.running, addresses,
      outputs⟩
  Step.update fun e =>
    { e with cycles := cycle, trace := e.trace.map (Trace.push record) }
  return record

/-- Carry out one cycle with the next inputs of the queue, or idle when there are
none. -/
@[specialize] def clockNextBy : Step Engine Record := do
  let inputs ← Step.observe fun e => e.queue.headD .idle
  Step.update fun e => { e with queue := e.queue.tail }
  clockBy tick inputs

@[specialize] def runBy : Nat → Step Engine Unit
  | 0 => return
  | n + 1 => do
      discard (clockNextBy tick)
      runBy n

/-- Carry out cycles until the queue is empty, but no more than `bound`. -/
@[specialize] def drainWithinBy : (bound : Nat) → Step Engine Unit
  | 0 => return
  | bound + 1 => do
      if ← Step.observe drained then
        return
      discard (clockNextBy tick)
      drainWithinBy bound

/-- Carry out cycles until the queue is empty. Each of them takes one entry out of
the queue, so there are no more than the queue is long. -/
@[specialize] def drainBy : Step Engine Unit := do
  drainWithinBy tick (← Step.observe pending)

end TickedBy

def clock : Inputs → Step Engine Record := clockBy Store.tick

def clockNext : Step Engine Record := clockNextBy Store.tick

def run : Nat → Step Engine Unit := runBy Store.tick

def drain : Step Engine Unit := drainBy Store.tick

/-- Hand over the trace recorded so far, and begin a new one in its place. -/
def handOverTrace : Step Engine (Option Trace) := do
  let taken ← Step.observe trace
  Step.update fun e => { e with trace := e.trace.map fun _ => .empty }
  return taken

/-! ## Requests -/

/-- A request to the engine, or past it to its block. -/
inductive Request where
  | enqueue (inputs : List Inputs)
  | load (words : List Word)
  | clock (inputs : Inputs)
  | clockNext
  | run (cycles : Nat)
  | drain
  | handOverTrace
  | ofStore (request : Store.Request)
deriving DecidableEq

inductive Reply where
  | done
  | size (size : Nat)
  | record (record : Record)
  | trace (trace : Option Trace)
deriving DecidableEq

/-- Carry out a request in an engine whose block is ticked by `tick`. -/
def performBy (tick : Inputs → Step Store Unit) : Request → Step Engine Reply
  | .enqueue inputs => do
      Step.update (enqueue inputs)
      return .done
  | .load words => do
      return .size (← load words)
  | .clock inputs => do
      return .record (← clockBy tick inputs)
  | .clockNext => do
      return .record (← clockNextBy tick)
  | .run cycles => do
      runBy tick cycles
      return .done
  | .drain => do
      drainBy tick
      return .done
  | .handOverTrace => do
      return .trace (← handOverTrace)
  | .ofStore request => do
      onStore (Store.performBy tick request)
      return .done

def perform : Request → Step Engine Reply := performBy Store.tick

end Engine

end Wavefront
