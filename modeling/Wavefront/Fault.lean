/-!
# Why a step can fail

A step is *rejected* when the block is driven outside its contract: a write that
names no bank, a size no bank can hold. It *overflows* when a quantity leaves the 64
bits it is kept in, or when what is to be kept together outgrows a block of memory.
`Rejection` and `Overflow` list the causes and `Fault` joins them. The wording of
every cause is fixed here, by the functions named `message`, and nowhere else.
-/

namespace Wavefront

/-- What makes a geometry, or a filter to be laid out in it, impossible to build. -/
inductive Flaw where
  | noBanks
  | noDepth
  | loadIntoNoBanks
  | emptyChannel
  /-- A number of words that does not divide into channels of the given width. -/
  | partialChannel (words width : Nat)
  | other (reason : String)
deriving DecidableEq

namespace Flaw

def message : Flaw → String
  | noBanks => "filter store needs at least one bank"
  | noDepth => "bank depth must be non-zero"
  | loadIntoNoBanks => "cannot load a filter into zero banks"
  | emptyChannel => "output channel must hold at least one filter word"
  | partialChannel words width =>
      s!"{words} filter words is not a whole number of {width}-word channels"
  | other reason => reason

end Flaw

/-- A request outside the contract of the block. -/
inductive Rejection where
  | invalidConfig (flaw : Flaw)
  /-- A bank that does not exist, in a block of `banks` banks. -/
  | bankOutOfRange (bank banks : Nat)
  /-- An address at or beyond the depth of its bank. -/
  | addressOutOfRange (address depth : Nat)
  | sizeExceedsDepth (size depth : Nat)
  | sizeChangeWhileRunning
  | filterTooLarge (words capacity : Nat)
deriving DecidableEq

namespace Rejection

def message : Rejection → String
  | invalidConfig flaw => "Invalid configuration: " ++ flaw.message
  | bankOutOfRange bank banks => s!"Bank {bank} out of range (store has {banks} banks)"
  | addressOutOfRange address depth =>
      s!"Address {address} out of range (bank depth {depth})"
  | sizeExceedsDepth size depth => s!"Size {size} exceeds bank depth {depth}"
  | sizeChangeWhileRunning => "Size cannot change while the sequencer is running"
  | filterTooLarge words capacity =>
      s!"Filter of {words} words exceeds store capacity of {capacity} words"

end Rejection

/-- The operation whose result left the range it is kept in. -/
inductive Overflow where
  | add
  | sub
  | mul
  | rem
  /-- More items than a block of memory has room for. -/
  | capacity
deriving DecidableEq

namespace Overflow

def message : Overflow → String
  | add => "attempt to add with overflow"
  | sub => "attempt to subtract with overflow"
  | mul => "attempt to multiply with overflow"
  | rem => "attempt to calculate the remainder with overflow"
  | capacity => "capacity overflow"

end Overflow

inductive Fault where
  | rejected (cause : Rejection)
  | overflow (operation : Overflow)
deriving DecidableEq

namespace Fault

def message : Fault → String
  | rejected cause => cause.message
  | overflow operation => operation.message

end Fault

section Sequencing

variable {α β : Type}

theorem ok_bind (a : α) (f : α → Except Fault β) : (Except.ok a >>= f) = f a := rfl

theorem error_bind (fault : Fault) (f : α → Except Fault β) :
    ((Except.error fault : Except Fault α) >>= f) = .error fault := rfl

theorem mapM_eq_ok {f : α → Except Fault β} {g : α → β} {l : List α}
    (h : ∀ a ∈ l, f a = .ok (g a)) : l.mapM f = .ok (l.map g) := by
  induction l with
  | nil => rfl
  | cons a l ih =>
      rw [List.mapM_cons, h a List.mem_cons_self,
        ih fun b hb => h b (List.mem_cons_of_mem a hb)]
      rfl

end Sequencing

end Wavefront
