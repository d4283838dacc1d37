import Mathlib.Data.List.TakeWhile
import Wavefront.Proofs.Store.Follow

/-!
# Ticking through inputs that may be refused

The block refuses inputs for their command alone, and what it refuses does not
change from tick to tick. So of a list of inputs it can be said beforehand which of
them are carried out: all that are `Store.admitted` if the others are passed over,
and those that come before the first refusal, `Store.upToRefusal`, if it ends there.
The second is what `Store.tickEach` does, and its outcome is that refusal,
`Store.verdict` (`tickEach_of_accepted`).
-/

namespace Wavefront

namespace Store

variable {c : Config} {s : Store}

/-- Why the block refuses the inputs, if it does. -/
def refusal? (s : Store) (i : Inputs) : Option Rejection :=
  i.write.bind fun w =>
    if s.width ≤ w.bank then some (.bankOutOfRange w.bank s.width)
    else if s.depth ≤ w.address then some (.addressOutOfRange w.address s.depth)
    else none

theorem refusal?_eq_none_iff (i : Inputs) : s.refusal? i = none ↔ s.Admits i := by
  rw [refusal?, Admits]
  cases i.write with
  | none => simp
  | some w =>
      simp only [Option.bind_some, Option.some.injEq, forall_eq', Accepts]
      split
      next hb => simp [Nat.not_lt.2 hb]
      next hb =>
        split
        next ha => simp [Nat.not_lt.2 ha]
        next ha => simp [Nat.not_le.1 hb, Nat.not_le.1 ha]

theorem not_admits_of_refusal? {i : Inputs} {cause : Rejection}
    (h : s.refusal? i = some cause) :
    ¬ s.Admits i := by
  rw [← refusal?_eq_none_iff, h]
  simp

theorem tick_of_refusal? {i : Inputs} {cause : Rejection}
    (h : s.refusal? i = some cause) (log : Array Event) :
    tick i ⟨s, log⟩ = .error (.rejected cause) ⟨s, log⟩ := by
  rw [refusal?, Option.bind_eq_some_iff] at h
  obtain ⟨w, hw, hcause⟩ := h
  refine tick_of_check hw ?_ log
  split at hcause
  next hb => rw [check_of_bank hb, Option.some.inj hcause]
  next hb =>
    split at hcause
    next ha => rw [check_of_address (Nat.not_le.1 hb) ha, Option.some.inj hcause]
    next ha => exact absurd hcause (by simp)

@[simp] theorem refusal?_next (i : Inputs) (s : Store) :
    (s.next i).refusal? = s.refusal? := by
  funext j
  rw [refusal?, width_next]
  rfl

/-! ## Lists of inputs -/

def refusals (s : Store) (is : List Inputs) : List Rejection := is.filterMap s.refusal?

def admitted (s : Store) (is : List Inputs) : List Inputs := is.filter (s.Admits ·)

/-- The inputs before the first that the block refuses. -/
def upToRefusal (s : Store) (is : List Inputs) : List Inputs :=
  is.takeWhile (s.Admits ·)

/-- What ticking through the inputs comes to: the first refusal, if there is one. -/
def verdict (s : Store) (is : List Inputs) : Except Fault Unit :=
  match (s.refusals is).head? with
  | none => .ok ()
  | some cause => .error (.rejected cause)

theorem length_upToRefusal_le (s : Store) (is : List Inputs) :
    (s.upToRefusal is).length ≤ is.length :=
  (List.takeWhile_sublist _).length_le

theorem upToRefusal_eq_self {is : List Inputs} (h : ∀ i ∈ is, s.Admits i) :
    s.upToRefusal is = is :=
  List.takeWhile_eq_self_iff.2 fun i hi => decide_eq_true (h i hi)

theorem verdict_of_admits {is : List Inputs} (h : ∀ i ∈ is, s.Admits i) :
    s.verdict is = .ok () := by
  have hnone : s.refusals is = [] :=
    List.filterMap_eq_nil_iff.2 fun i hi => (refusal?_eq_none_iff i).2 (h i hi)
  rw [verdict, hnone]
  rfl

section Cons

variable {i : Inputs} {cause : Rejection}

theorem refusals_cons_of_admits (h : s.Admits i) (is : List Inputs) :
    s.refusals (i :: is) = s.refusals is :=
  List.filterMap_cons_none ((refusal?_eq_none_iff i).2 h)

theorem refusals_cons_of_refusal? (h : s.refusal? i = some cause) (is : List Inputs) :
    s.refusals (i :: is) = cause :: s.refusals is :=
  List.filterMap_cons_some h

theorem admitted_cons_of_admits (h : s.Admits i) (is : List Inputs) :
    s.admitted (i :: is) = i :: s.admitted is :=
  List.filter_cons_of_pos (decide_eq_true h)

theorem admitted_cons_of_refusal? (h : s.refusal? i = some cause) (is : List Inputs) :
    s.admitted (i :: is) = s.admitted is :=
  List.filter_cons_of_neg (by simpa using not_admits_of_refusal? h)

theorem upToRefusal_cons_of_admits (h : s.Admits i) (is : List Inputs) :
    s.upToRefusal (i :: is) = i :: s.upToRefusal is :=
  List.takeWhile_cons_of_pos (decide_eq_true h)

theorem upToRefusal_cons_of_refusal? (h : s.refusal? i = some cause)
    (is : List Inputs) :
    s.upToRefusal (i :: is) = [] :=
  List.takeWhile_cons_of_neg (by simpa using not_admits_of_refusal? h)

theorem verdict_cons_of_admits (h : s.Admits i) (is : List Inputs) :
    s.verdict (i :: is) = s.verdict is := by
  rw [verdict, refusals_cons_of_admits h, verdict]

theorem verdict_cons_of_refusal? (h : s.refusal? i = some cause) (is : List Inputs) :
    s.verdict (i :: is) = .error (.rejected cause) := by
  rw [verdict, refusals_cons_of_refusal? h]
  rfl

end Cons

@[simp] theorem refusals_next (i : Inputs) (s : Store) :
    (s.next i).refusals = s.refusals := by
  funext is
  rw [refusals, refusal?_next, refusals]

@[simp] theorem verdict_next (i : Inputs) (s : Store) :
    (s.next i).verdict = s.verdict := by
  funext is
  rw [verdict, refusals_next, verdict]

theorem decide_admits_next (i : Inputs) (s : Store) :
    (fun j => decide ((s.next i).Admits j)) = fun j => decide (s.Admits j) :=
  funext fun j => decide_eq_decide.2 (admits_next i j s)

@[simp] theorem admitted_next (i : Inputs) (s : Store) :
    (s.next i).admitted = s.admitted := by
  funext is
  rw [admitted, decide_admits_next, admitted]

@[simp] theorem upToRefusal_next (i : Inputs) (s : Store) :
    (s.next i).upToRefusal = s.upToRefusal := by
  funext is
  rw [upToRefusal, decide_admits_next, upToRefusal]

/-! ## Ticking through them -/

def tickEach (is : List Inputs) : Step Store Unit := is.forM tick

theorem tickEach_cons (i : Inputs) (is : List Inputs) :
    tickEach (i :: is) = tick i >>= fun _ => tickEach is := rfl

/-- When the ticks before the first refusal are carried out, ticking through the
inputs comes to that refusal, and ends where they have led. -/
theorem tickEach_of_accepted (h : s.WellFormed c) {is : List Inputs} {log : Array Event}
    (ha : Step.Accepted tick (s.upToRefusal is) ⟨s, log⟩) :
    Step.outcome (tickEach is ⟨s, log⟩) = s.verdict is ∧
      Step.final (tickEach is ⟨s, log⟩) =
        Step.after tick (s.upToRefusal is) ⟨s, log⟩ := by
  induction is generalizing s log with
  | nil => exact ⟨rfl, rfl⟩
  | cons i is ih =>
      rw [tickEach_cons, Step.bind_apply]
      cases hi : s.refusal? i with
      | none =>
          have hadmits := (refusal?_eq_none_iff i).1 hi
          rw [upToRefusal_cons_of_admits hadmits, Step.accepted_cons] at ha
          obtain ⟨hok, htail⟩ := ha
          have htick := (tick_of_isOk h hok).2
          rw [htick, ← upToRefusal_next i s] at htail
          have hrest := ih (h.next i) htail
          rw [upToRefusal_next, verdict_next] at hrest
          rw [upToRefusal_cons_of_admits hadmits, verdict_cons_of_admits hadmits,
            Step.after_cons, htick]
          exact hrest
      | some cause =>
          rw [upToRefusal_cons_of_refusal? hi, verdict_cons_of_refusal? hi,
            tick_of_refusal? hi]
          exact ⟨rfl, rfl⟩

end Store

end Wavefront
