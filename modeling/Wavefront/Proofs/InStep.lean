import Wavefront.Proofs.Requests

/-!
# Components in step

Two results *match* when their caller cannot tell one from the other: both returned
the same value or were rejected for the same cause, reported the same, and ended in
states that are related; or both overflowed. Two steps are *in step* when they have
matching results wherever they start in related states, `Step.InStep`. The relation
is a parameter, and so is what the two components are.

Steps that are built alike out of steps that are in step are in step themselves, by
one lemma for each of the ways to build them. `InStep.sameRun` carries this over to
sequences of requests, which cannot tell the two components apart, `Step.SameRun`.
-/

namespace Wavefront

namespace Step

variable {σ τ υ φ α β ρ : Type}

/-- Two results that a caller cannot tell apart, ending in states that `R` relates.
An overflow ends the caller, so what is left behind then does not matter. -/
inductive Matches (R : σ → τ → Prop) :
    EStateM.Result Fault (Logged σ) α → EStateM.Result Fault (Logged τ) α → Prop
  | ok (a : α) {s : σ} {t : τ} (h : R s t) (log : Array Event) :
      Matches R (.ok a ⟨s, log⟩) (.ok a ⟨t, log⟩)
  | rejected (cause : Rejection) {s : σ} {t : τ} (h : R s t) (log : Array Event) :
      Matches R (.error (.rejected cause) ⟨s, log⟩) (.error (.rejected cause) ⟨t, log⟩)
  | overflow (operation : Overflow) (s : Logged σ) (t : Logged τ) :
      Matches R (.error (.overflow operation) s) (.error (.overflow operation) t)

namespace Matches

variable {R : σ → τ → Prop} {x y : EStateM.Result Fault (Logged σ) α}
  {z : EStateM.Result Fault (Logged τ) α}

theorem refl (x : EStateM.Result Fault (Logged σ) α) : Matches (· = ·) x x := by
  cases x with
  | ok a s => exact .ok a rfl s.log
  | error fault s =>
      cases fault with
      | rejected cause => exact .rejected cause rfl s.log
      | overflow operation => exact .overflow operation s s

theorem trans {z : EStateM.Result Fault (Logged σ) α} (h : Matches (· = ·) x y)
    (h' : Matches (· = ·) y z) : Matches (· = ·) x z := by
  cases h with
  | ok a h log => exact h ▸ h'
  | rejected cause h log => exact h ▸ h'
  | overflow operation s t =>
      cases h'
      exact .overflow operation s _

/-- The relation may be exchanged for one that follows from it and from what is
known of the end of the first result. -/
theorem imp (h : Matches R x z) {I : σ → Prop} {S : σ → τ → Prop}
    (hI : I (final x).state) (hS : ∀ {s t}, I s → R s t → S s t) : Matches S x z := by
  cases h with
  | ok a h log => exact .ok a (hS hI h) log
  | rejected cause h log => exact .rejected cause (hS hI h) log
  | overflow operation s t => exact .overflow operation s t

end Matches

/-- The sequence `rs` of requests does not tell two components apart: both answer it
or neither does, and if they do, they return the same, report the same, and end in
related states. -/
structure SameRun (R : σ → τ → Prop) (perform : ρ → Step σ α) (perform' : ρ → Step τ α)
    (rs : List ρ) (s : Logged σ) (t : Logged τ) : Prop where
  answered_iff : Answered perform rs s ↔ Answered perform' rs t
  outcomes_eq : Answered perform rs s → outcomes perform rs s = outcomes perform' rs t
  related : Answered perform rs s →
    R (after perform rs s).state (after perform' rs t).state
  log_eq : Answered perform rs s → (after perform rs s).log = (after perform' rs t).log

namespace SameRun

variable {R : σ → τ → Prop} {perform : ρ → Step σ α} {perform' : ρ → Step τ α}
  {r : ρ} {rs : List ρ}
  {s : Logged σ} {t : Logged τ} {x : EStateM.Result Fault (Logged σ) α}
  {y : EStateM.Result Fault (Logged τ) α}

theorem cons (hx : perform r s = x) (hy : perform' r t = y) (h : outcome x = outcome y)
    (hrs : SameRun R perform perform' rs (final x) (final y)) :
    SameRun R perform perform' (r :: rs) s t := by
  subst hx hy
  refine ⟨?_, ?_, ?_, ?_⟩
  · rw [answered_cons, answered_cons, h, hrs.answered_iff]
  · intro ha
    rw [answered_cons] at ha
    rw [outcomes_cons, outcomes_cons, h, hrs.outcomes_eq ha.2]
  · intro ha
    rw [answered_cons] at ha
    exact hrs.related ha.2
  · intro ha
    rw [answered_cons] at ha
    exact hrs.log_eq ha.2

theorem of_overflow {operation operation' : Overflow} {s' : Logged σ} {t' : Logged τ}
    (hx : perform r s = .error (.overflow operation) s')
    (hy : perform' r t = .error (.overflow operation') t') :
    SameRun R perform perform' (r :: rs) s t := by
  have hs : ¬ Answered perform (r :: rs) s := by
    rw [answered_cons, hx]
    exact fun ha => ha.1
  have ht : ¬ Answered perform' (r :: rs) t := by
    rw [answered_cons, hy]
    exact fun ha => ha.1
  exact ⟨iff_of_false hs ht, fun ha => absurd ha hs, fun ha => absurd ha hs,
    fun ha => absurd ha hs⟩

end SameRun

/-- From states related by `R` the two steps have matching results. -/
def InStep (R : σ → τ → Prop) (x : Step σ α) (y : Step τ α) : Prop :=
  ∀ ⦃s t⦄, R s t → ∀ log, Matches R (x ⟨s, log⟩) (y ⟨t, log⟩)

namespace InStep

variable {R : σ → τ → Prop} {x : Step σ α} {y : Step τ α}

theorem pure (a : α) : InStep R (Pure.pure a : Step σ α) (Pure.pure a : Step τ α) :=
  fun _ _ h log => .ok a h log

theorem bind {f : α → Step σ β} {g : α → Step τ β} (h : InStep R x y)
    (hfg : ∀ a, InStep R (f a) (g a)) : InStep R (x >>= f) (y >>= g) := by
  intro s t hst log
  rw [bind_apply, bind_apply]
  have hxy := h hst log
  generalize x ⟨s, log⟩ = r, y ⟨t, log⟩ = r' at hxy
  cases hxy with
  | ok a h log => exact hfg a h log
  | rejected cause h log => exact .rejected cause h log
  | overflow operation s t => exact .overflow operation s t

theorem discard (h : InStep R x y) :
    InStep R (Functor.discard x : Step σ Unit) (Functor.discard y : Step τ Unit) := by
  intro s t hst log
  rw [discard_apply, discard_apply]
  have hxy := h hst log
  generalize x ⟨s, log⟩ = r, y ⟨t, log⟩ = r' at hxy
  cases hxy with
  | ok a h log => exact .ok () h log
  | rejected cause h log => exact .rejected cause h log
  | overflow operation s t => exact .overflow operation s t

theorem observe {f : σ → α} {g : τ → α} (h : ∀ {s t}, R s t → f s = g t) :
    InStep R (Step.observe f) (Step.observe g) := by
  intro s t hst log
  rw [observe_apply, observe_apply, h hst]
  exact .ok (g t) hst log

theorem query {f : σ → Except Fault α} {g : τ → Except Fault α}
    (h : ∀ {s t}, R s t → f s = g t) :
    InStep R (Step.query f) (Step.query g) := by
  intro s t hst log
  rw [query_apply, query_apply, h hst]
  cases g t with
  | ok a => exact .ok a hst log
  | error fault =>
      cases fault with
      | rejected cause => exact .rejected cause hst log
      | overflow operation => exact .overflow operation _ _

theorem update {f : σ → σ} {g : τ → τ} (h : ∀ {s t}, R s t → R (f s) (g t)) :
    InStep R (Step.update f) (Step.update g) :=
  fun _ _ hst log => .ok () (h hst) log

theorem emit (e : Event) : InStep R (Step.emit e) (Step.emit e) :=
  fun _ _ hst log => .ok () hst (log.push e)

/-- Parts that are in step keep the wholes in step, if related wholes have related
parts and are related again around what becomes of these. -/
theorem within {Q : υ → φ → Prop} {split : σ → υ × (υ → σ)} {split' : τ → φ × (φ → τ)}
    {x : Step υ α} {y : Step φ α} (h : InStep Q x y)
    (hparts : ∀ {s t}, R s t → Q (split s).1 (split' t).1)
    (hwhole : ∀ {s t p q}, R s t → Q p q → R ((split s).2 p) ((split' t).2 q)) :
    InStep R (Step.within split x) (Step.within split' y) := by
  intro s t hst log
  rw [within_apply, within_apply]
  have hxy := h (hparts hst) log
  generalize x ⟨(split s).1, log⟩ = r, y ⟨(split' t).1, log⟩ = r' at hxy
  cases hxy with
  | ok a h log => exact .ok a (hwhole hst h) log
  | rejected cause h log => exact .rejected cause (hwhole hst h) log
  | overflow operation p q => exact .overflow operation _ _

/-! ## Sequences of requests -/

variable {perform : ρ → Step σ α} {perform' : ρ → Step τ α}

/-- Two components whose requests are in step cannot be told apart by any sequence
of them. -/
theorem sameRun (h : ∀ r, InStep R (perform r) (perform' r)) {s : σ} {t : τ}
    (hst : R s t) (rs : List ρ) (log : Array Event) :
    SameRun R perform perform' rs ⟨s, log⟩ ⟨t, log⟩ := by
  induction rs generalizing s t log with
  | nil => exact ⟨by simp, fun _ => rfl, fun _ => hst, fun _ => rfl⟩
  | cons r rs ih =>
      have hr := h r hst log
      generalize hx : perform r ⟨s, log⟩ = x, hy : perform' r ⟨t, log⟩ = y at hr
      cases hr with
      | ok a h log' => exact .cons hx hy rfl (ih h log')
      | rejected cause h log' => exact .cons hx hy rfl (ih h log')
      | overflow operation s' t' => exact .of_overflow hx hy

end InStep

end Step

end Wavefront
