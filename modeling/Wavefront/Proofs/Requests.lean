import Wavefront.Step

/-!
# Sequences of requests

A component is driven by requests, each of which is a step that returns or fails.
`Step.after` carries out requests one after the other, whatever becomes of each: a
request that fails leaves the component as it was when the fault struck, and the
next one starts there. `Step.outcomes` lists what the requests returned, or why they
failed.

A rejected request has been answered, and its caller may go on. An overflow is no
answer: it ends the caller. So `Step.Answered` says of a sequence that none of its
requests ended in an overflow, and what a sequence of calls observes is stated under
it. `Step.Accepted` says that none of them failed at all.
-/

namespace Wavefront

namespace Step

variable {σ α β ρ : Type}

/-- What a step returned, or why it failed. -/
def outcome : EStateM.Result Fault (Logged σ) α → Except Fault α
  | .ok a _ => .ok a
  | .error e _ => .error e

/-- Where a step ended, whether it returned or failed. -/
def final : EStateM.Result Fault (Logged σ) α → Logged σ
  | .ok _ s => s
  | .error _ s => s

@[simp] theorem outcome_ok (a : α) (s : Logged σ) :
    outcome (.ok a s : EStateM.Result Fault (Logged σ) α) = .ok a := rfl

@[simp] theorem outcome_error (e : Fault) (s : Logged σ) :
    outcome (.error e s : EStateM.Result Fault (Logged σ) α) = .error e := rfl

@[simp] theorem final_ok (a : α) (s : Logged σ) :
    final (.ok a s : EStateM.Result Fault (Logged σ) α) = s := rfl

@[simp] theorem final_error (e : Fault) (s : Logged σ) :
    final (.error e s : EStateM.Result Fault (Logged σ) α) = s := rfl

@[simp] theorem isOk_ok (a : α) : (Except.ok a : Except Fault α).isOk = true := rfl

@[simp] theorem isOk_error (fault : Fault) :
    (Except.error fault : Except Fault α).isOk = false := rfl

theorem discard_apply (x : Step σ α) (s : Logged σ) :
    (discard x) s =
      match x s with
      | .ok _ t => .ok () t
      | .error e t => .error e t := by
  show EStateM.map _ x s = _
  cases h : x s with
  | ok a t => simp only [EStateM.map, h]
  | error e t => simp only [EStateM.map, h]

theorem outcome_discard (x : Step σ α) (s : Logged σ) :
    outcome ((discard x) s) = (outcome (x s)).map fun _ => () := by
  rw [discard_apply]
  cases x s <;> rfl

def after (perform : ρ → Step σ α) : List ρ → Logged σ → Logged σ
  | [], s => s
  | r :: rs, s => after perform rs (final (perform r s))

def outcomes (perform : ρ → Step σ α) : List ρ → Logged σ → List (Except Fault α)
  | [], _ => []
  | r :: rs, s => outcome (perform r s) :: outcomes perform rs (final (perform r s))

variable (perform : ρ → Step σ α)

@[simp] theorem after_nil (s : Logged σ) : after perform [] s = s := rfl

theorem after_cons (r : ρ) (rs : List ρ) (s : Logged σ) :
    after perform (r :: rs) s = after perform rs (final (perform r s)) := rfl

@[simp] theorem outcomes_nil (s : Logged σ) : outcomes perform [] s = [] := rfl

theorem outcomes_cons (r : ρ) (rs : List ρ) (s : Logged σ) :
    outcomes perform (r :: rs) s =
      outcome (perform r s) :: outcomes perform rs (final (perform r s)) := rfl

theorem outcomes_take (rs : List ρ) (n : Nat) (s : Logged σ) :
    outcomes perform (rs.take n) s = (outcomes perform rs s).take n := by
  induction rs generalizing n s with
  | nil => simp
  | cons r rs ih =>
      cases n with
      | zero => rfl
      | succ n =>
          rw [List.take_succ_cons, outcomes_cons, ih, outcomes_cons,
            List.take_succ_cons]

/-- What every request keeps, every sequence of them keeps. -/
theorem after_induction {perform : ρ → Step σ α} {I : Logged σ → Prop} {s : Logged σ}
    (hs : I s) (step : ∀ r s, I s → I (final (perform r s))) (rs : List ρ) :
    I (after perform rs s) := by
  induction rs generalizing s with
  | nil => exact hs
  | cons r rs ih =>
      rw [after_cons]
      exact ih (step r s hs)

/-- The step was answered: it returned or was rejected, and did not overflow. -/
def IsAnswer : Except Fault α → Prop
  | .error (.overflow _) => False
  | _ => True

instance : DecidablePred (IsAnswer (α := α))
  | .ok _ => isTrue trivial
  | .error (.rejected _) => isTrue trivial
  | .error (.overflow _) => isFalse id

theorem isAnswer_of_isOk {x : Except Fault α} (h : x.isOk = true) : IsAnswer x := by
  cases x with
  | ok a => trivial
  | error fault => exact absurd h (by simp)

theorem isAnswer_of_bind {x : Step σ α} {f : α → Step σ β} {s : Logged σ}
    (h : IsAnswer (outcome ((x >>= f) s))) : IsAnswer (outcome (x s)) := by
  rw [bind_apply] at h
  cases hx : x s with
  | ok a t => trivial
  | error fault t =>
      rw [hx] at h
      cases fault with
      | rejected cause => trivial
      | overflow operation => exact h

theorem isAnswer_map_iff (f : α → β) (x : Except Fault α) :
    IsAnswer (x.map f) ↔ IsAnswer x := by
  cases x with
  | ok a => exact Iff.rfl
  | error fault => cases fault <;> exact Iff.rfl

def Answered (rs : List ρ) (s : Logged σ) : Prop :=
  ∀ o ∈ outcomes perform rs s, IsAnswer o

instance (rs : List ρ) (s : Logged σ) : Decidable (Answered perform rs s) :=
  inferInstanceAs (Decidable (∀ o ∈ outcomes perform rs s, IsAnswer o))

@[simp] theorem answered_nil (s : Logged σ) : Answered perform [] s := by
  intro o ho
  simp at ho

theorem answered_cons (r : ρ) (rs : List ρ) (s : Logged σ) :
    Answered perform (r :: rs) s ↔
      IsAnswer (outcome (perform r s)) ∧ Answered perform rs (final (perform r s)) := by
  rw [Answered, outcomes_cons, List.forall_mem_cons]
  exact Iff.rfl

def Accepted (rs : List ρ) (s : Logged σ) : Prop :=
  ∀ o ∈ outcomes perform rs s, o.isOk = true

instance (rs : List ρ) (s : Logged σ) : Decidable (Accepted perform rs s) :=
  inferInstanceAs (Decidable (∀ o ∈ outcomes perform rs s, o.isOk = true))

@[simp] theorem accepted_nil (s : Logged σ) : Accepted perform [] s := by
  intro o ho
  simp at ho

theorem accepted_cons (r : ρ) (rs : List ρ) (s : Logged σ) :
    Accepted perform (r :: rs) s ↔
      (outcome (perform r s)).isOk = true ∧
        Accepted perform rs (final (perform r s)) := by
  rw [Accepted, outcomes_cons, List.forall_mem_cons]
  exact Iff.rfl

theorem Answered.accepted {perform : ρ → Step σ α} {rs : List ρ} {s : Logged σ}
    (ha : Answered perform rs s)
    (h : ∀ cause, ∀ o ∈ outcomes perform rs s, o ≠ .error (.rejected cause)) :
    Accepted perform rs s := by
  intro o ho
  have hanswer := ha o ho
  match o with
  | .ok _ => rfl
  | .error (.rejected cause) => exact absurd rfl (h cause _ ho)
  | .error (.overflow _) => exact hanswer.elim

theorem Accepted.take {perform : ρ → Step σ α} {rs : List ρ} {s : Logged σ}
    (h : Accepted perform rs s) (n : Nat) : Accepted perform (rs.take n) s := by
  intro o ho
  rw [outcomes_take] at ho
  exact h o (List.mem_of_mem_take ho)

end Step

end Wavefront
