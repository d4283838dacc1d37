import Wavefront.Event

/-!
# Steps of a logged component

A *step* changes the state of a component, reports events, and returns a value or
fails. A failing step ends where the fault struck: what it changed and reported
before that stays. So it is a fact about a particular step, and not a property of
the construction, that a fault leaves the state as it was.

The steps of this library are built from `observe`, `query`, `update`, `emit` and
`reject`, each of which does one thing, and from `within`, which runs the step of a
part inside the whole. The equations named `_apply` say what each of them does to a
state and a log; rewriting with them carries out a step symbolically.
-/

namespace Wavefront

/-- A state together with the events reported so far, the latest at the end. -/
structure Logged (σ : Type) where
  state : σ
  log : Array Event

/-- A step of a component with states in `σ`. -/
abbrev Step (σ : Type) := EStateM Fault (Logged σ)

namespace Step

variable {σ τ α β : Type}

/-- Read something off the state. It is read before the step goes on, so that what
is read does not keep the whole state from being changed in place. -/
@[noinline] def observe (f : σ → α) : Step σ α := fun s => .ok (f s.state) s

@[inline] def query (f : σ → Except Fault α) : Step σ α := fun s =>
  match f s.state with
  | .ok a => .ok a s
  | .error e => .error e s

@[inline] def update (f : σ → σ) : Step σ Unit := fun ⟨s, log⟩ => .ok () ⟨f s, log⟩

@[inline] def emit (e : Event) : Step σ Unit := fun ⟨s, log⟩ => .ok () ⟨s, log.push e⟩

@[inline] def reject (cause : Rejection) : Step σ α :=
  fun s => .error (.rejected cause) s

/-- Run a step of a part. The split takes the part out of the whole and says how the
whole is put together around the new part; while the step runs, nothing else holds
the part. -/
@[inline] def within (split : σ → τ × (τ → σ)) (x : Step τ α) : Step σ α :=
  fun ⟨s, log⟩ =>
  match split s with
  | (t, rebuild) =>
    match x ⟨t, log⟩ with
    | .ok a ⟨t', log'⟩ => .ok a ⟨rebuild t', log'⟩
    | .error e ⟨t', log'⟩ => .error e ⟨rebuild t', log'⟩

theorem pure_apply (a : α) (s : Logged σ) : (pure a : Step σ α) s = .ok a s := rfl

/-- A step that follows another starts where that one ended; a failed step is
followed by nothing. -/
theorem bind_apply (x : Step σ α) (f : α → Step σ β) (s : Logged σ) :
    (x >>= f) s =
      match x s with
      | .ok a t => f a t
      | .error e t => .error e t := by
  show EStateM.bind x f s = _
  cases h : x s with
  | ok a t => simp only [EStateM.bind, h]
  | error e t => simp only [EStateM.bind, h]

theorem observe_apply (f : σ → α) (s : Logged σ) :
    observe f s = .ok (f s.state) s :=
  rfl

theorem query_apply (f : σ → Except Fault α) (s : Logged σ) :
    query f s =
      match f s.state with
      | .ok a => .ok a s
      | .error e => .error e s := rfl

theorem update_apply (f : σ → σ) (s : Logged σ) :
    update f s = .ok () ⟨f s.state, s.log⟩ := rfl

theorem emit_apply (e : Event) (s : Logged σ) :
    emit e s = .ok () ⟨s.state, s.log.push e⟩ := rfl

theorem reject_apply (cause : Rejection) (s : Logged σ) :
    (reject cause : Step σ α) s = .error (.rejected cause) s := rfl

theorem within_apply (split : σ → τ × (τ → σ)) (x : Step τ α) (s : Logged σ) :
    within split x s =
      match x ⟨(split s.state).1, s.log⟩ with
      | .ok a t => .ok a ⟨(split s.state).2 t.state, t.log⟩
      | .error e t => .error e ⟨(split s.state).2 t.state, t.log⟩ := by
  cases h : x ⟨(split s.state).1, s.log⟩ with
  | ok a t => simp only [within, h]
  | error e t => simp only [within, h]

end Step

end Wavefront
