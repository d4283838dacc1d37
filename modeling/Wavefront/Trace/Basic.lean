import Wavefront.Inputs

/-!
# Traces

A `Record` is one tick seen from outside: the tick as it was evaluated, and the
words on the lanes after it. A `Trace` is the records of a run in order.
`Trace.lane` is what one lane carried, and `Trace.streamed` is the part of it that
belongs to a stream: all but the ticks in which the block was idle. The tick that
leaves the stop belongs to it, for the word of position zero is on the first lane
when that tick ends.
-/

namespace Wavefront

/-- One tick seen from outside. -/
structure Record where
  cycle : Nat
  phase : Phase
  position : Nat
  running : Bool
  addresses : List (Option Nat)
  outputs : List Word
deriving DecidableEq

/-- The records of a run, the earliest first. -/
structure Trace where
  records : Array Record
deriving DecidableEq

namespace Trace

def empty : Trace := ⟨#[]⟩

instance : Inhabited Trace := ⟨empty⟩

def push (r : Record) (t : Trace) : Trace := ⟨t.records.push r⟩

def toList (t : Trace) : List Record := t.records.toList

@[simp] theorem toList_empty : empty.toList = [] := rfl

@[simp] theorem toList_push (r : Record) (t : Trace) :
    (t.push r).toList = t.toList ++ [r] := by
  simp [push, toList]

theorem eq_of_toList_eq {t u : Trace} (h : t.toList = u.toList) : t = u := by
  cases t
  cases u
  simpa [toList] using h

def length (t : Trace) : Nat := t.records.size

def isEmpty (t : Trace) : Bool := t.records.isEmpty

def last? (t : Trace) : Option Record := t.records.back?

def lane (i : Nat) (t : Trace) : List Word := t.toList.filterMap fun r => r.outputs[i]?

/-- The words on one lane in the ticks of a stream. -/
def streamed (i : Nat) (t : Trace) : List Word :=
  (t.toList.filter fun r => r.phase ≠ .idle).filterMap fun r => r.outputs[i]?

@[simp] theorem lane_empty (i : Nat) : lane i empty = [] := rfl

theorem lane_push (i : Nat) (r : Record) (t : Trace) :
    lane i (t.push r) = lane i t ++ r.outputs[i]?.toList := by
  simp [lane, List.filterMap_append, List.filterMap_cons]
  cases r.outputs[i]? <;> rfl

end Trace

end Wavefront
