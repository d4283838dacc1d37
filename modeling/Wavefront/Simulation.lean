import Wavefront.Engine

/-!
# Bounded runs under observation

A `Simulation` runs an engine up to a number of cycles or, without a limit, until
its queue is empty. After every cycle that is carried out each observer is shown the
record of it, in the order in which the observers were added; a refused cycle ends
the run and is shown to none.
-/

namespace Wavefront

/-- Something that is shown the records of a run. -/
class Observer (ω : Type) where
  note : Record → ω → ω

/-- Collects every record it is shown, the earliest first. -/
instance : Observer (Array Record) := ⟨fun r seen => seen.push r⟩

/-- An engine with a limit on its cycles and the observers of its run. -/
structure Simulation (ω : Type) where
  engine : Engine
  limit : Option Nat
  observers : List ω

namespace Simulation

variable {ω : Type}

def new (e : Engine) (limit : Option Nat) : Simulation ω := ⟨e, limit, []⟩

def observe (o : ω) (s : Simulation ω) : Simulation ω :=
  { s with observers := s.observers ++ [o] }

def takeEngine : Simulation ω → Engine × (Engine → Simulation ω)
  | ⟨engine, limit, observers⟩ => (engine, fun engine => ⟨engine, limit, observers⟩)

def onEngine {α : Type} (x : Step Engine α) : Step (Simulation ω) α :=
  Step.within takeEngine x

/-- The number of cycles that remain: up to the limit, or in the queue. -/
def remaining (s : Simulation ω) : Nat :=
  match s.limit with
  | some limit => limit - s.engine.cycles
  | none => s.engine.pending

def finished (s : Simulation ω) : Bool :=
  match s.limit with
  | some limit => decide (limit ≤ s.engine.cycles)
  | none => s.engine.drained

theorem finished_iff (s : Simulation ω) : s.finished = true ↔ s.remaining = 0 := by
  simp only [finished, remaining]
  split
  · simp
    omega
  · exact s.engine.drained_iff

variable [Observer ω]

def step : Step (Simulation ω) Unit := do
  let record ← onEngine Engine.clockNext
  Step.update fun s => { s with observers := s.observers.map (Observer.note record) }

/-- Carry out cycles until the run is over, but no more than `bound`. -/
def runWithin : (bound : Nat) → Step (Simulation ω) Unit
  | 0 => return
  | bound + 1 => do
      if ← Step.observe finished then
        return
      step
      runWithin bound

/-- Carry out cycles until the run is over and return the number of cycles of the
engine. Each cycle leaves one less remaining, so the run is found to be over by one
look more than there are cycles. -/
def run : Step (Simulation ω) Nat := do
  let remaining ← Step.observe remaining
  runWithin (remaining + 1)
  Step.observe fun s => s.engine.cycles

end Simulation

end Wavefront
