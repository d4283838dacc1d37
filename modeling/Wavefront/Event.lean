import Wavefront.Inputs
import Wavefront.Sequencer
import Wavefront.Text.Hex

/-!
# The log

A step of the block reports what it does as a sequence of events. An `Event` carries
the facts; its level and its wording are functions of it, and `Event.line` is the
line that a log shows.
-/

namespace Wavefront

/-- How much attention an event asks for. -/
inductive Level where
  | trace
  | debug
  | info
  | warn
deriving DecidableEq

namespace Level

def label : Level → String
  | trace => "TRACE"
  | debug => "DEBUG"
  | info => "INFO"
  | warn => "WARN"

end Level

/-- Something that a step of the block reports. -/
inductive Event where
  | resized (before after : Nat)
  /-- A tick sampled `reset`, with the sequencer in this state. -/
  | reset (before : Sequencer)
  /-- A tick started a stream of `size` words over this many lanes. -/
  | started (size lanes : Nat)
  /-- A tick started the sequencer although there is nothing to stream. -/
  | startedEmpty
  | routed (command : Write)
  /-- A tick was carried out and took the sequencer from one state to the other. -/
  | moved (before after : Sequencer)
  | cycle (number : Nat)
  /-- A filter was queued as write commands. -/
  | queued (writes size : Nat)
deriving DecidableEq

namespace Event

def level : Event → Level
  | routed _ => .trace
  | reset _ => .info
  | started _ _ => .info
  | startedEmpty => .warn
  | resized _ _ => .debug
  | moved _ _ => .debug
  | cycle _ => .debug
  | queued _ _ => .debug

def text : Event → String
  | resized before after => s!"filter store: size {before} -> {after}"
  | reset ⟨position, running⟩ =>
      s!"filter store: reset at position {position} (running: {running})"
  | started size lanes =>
      s!"filter store: start, streaming {size} words across {lanes} banks"
  | startedEmpty =>
      "filter store: start with size 0, read ports stay idle and lanes hold"
  | routed ⟨bank, address, data⟩ =>
      s!"write demux: bank {bank} addr {address} <- " ++ Text.hex 8 data.toNat
  | moved ⟨p, r⟩ ⟨q, t⟩ => s!"filter store: position {p} -> {q}, running {r} -> {t}"
  | cycle number => s!"=== Filter Cycle {number} ==="
  | queued writes size => s!"cycle engine: queued {writes} filter writes, size {size}"

def line (e : Event) : String := e.level.label ++ " " ++ e.text

end Event

end Wavefront
