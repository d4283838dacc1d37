/-!
# What the block samples in one tick

A tick samples at most one write command and the two pulses `start` and `reset`.
Nothing is held over: an input lives for the tick it is presented in. `Phase.ofTick`
names the tick by the running flag it begins with and the pulses it samples;
`Phase.ofTick_eq_priming_iff` says which ticks start a stream.
-/

namespace Wavefront

/-- A word as banks hold it and lanes carry it. -/
abbrev Word := UInt32

/-- A command on the write channel: store `data` at `address` of `bank`. -/
structure Write where
  bank : Nat
  address : Nat
  data : Word
deriving DecidableEq

/-- Everything sampled from outside in one tick. -/
structure Inputs where
  write : Option Write
  start : Bool
  reset : Bool
deriving DecidableEq

namespace Inputs

def idle : Inputs := ⟨none, false, false⟩

instance : Inhabited Inputs := ⟨idle⟩

def ofWrite (w : Write) : Inputs := { idle with write := some w }

end Inputs

/-- What the block is doing in a tick. -/
inductive Phase where
  /-- Stopped. -/
  | idle
  /-- Leaving the stop: the read of position zero is on its way. -/
  | priming
  /-- Started in an earlier tick. -/
  | streaming
deriving DecidableEq

namespace Phase

def ofTick (running : Bool) (i : Inputs) : Phase :=
  if running then streaming else if i.start && !i.reset then priming else idle

@[simp] theorem ofTick_true (i : Inputs) : ofTick true i = streaming := rfl

theorem ofTick_eq_streaming_iff (running : Bool) (i : Inputs) :
    ofTick running i = streaming ↔ running = true := by
  cases running <;> simp [ofTick]
  split <;> simp

theorem ofTick_eq_priming_iff (running : Bool) (i : Inputs) :
    ofTick running i = priming ↔
      running = false ∧ i.start = true ∧ i.reset = false := by
  cases running <;> simp [ofTick]

def label : Phase → String
  | idle => "IDLE"
  | priming => "PRIMING"
  | streaming => "STREAMING"

end Phase

end Wavefront
