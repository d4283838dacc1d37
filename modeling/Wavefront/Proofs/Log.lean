import Wavefront.Proofs.Store.Invariant

/-!
# The log is only added to

A step can add to the log, but it cannot read it. So what it does to its component,
what it returns and what it reports are the same behind every log, `Step.Appends`.
Steps built out of steps of this kind are of this kind themselves, by one lemma for
each of the ways to build them; `Store.appends_tick` says so of a tick.
-/

namespace Wavefront

namespace Step

variable {σ τ α β : Type}

/-- The result as it is when the reports of the step stand behind `log`. -/
def behind (log : Array Event) :
    EStateM.Result Fault (Logged σ) α → EStateM.Result Fault (Logged σ) α
  | .ok a s => .ok a ⟨s.state, log ++ s.log⟩
  | .error fault s => .error fault ⟨s.state, log ++ s.log⟩

theorem behind_behind (log log' : Array Event) (x : EStateM.Result Fault (Logged σ) α) :
    behind log (behind log' x) = behind (log ++ log') x := by
  cases x <;> simp [behind]

@[simp] theorem outcome_behind (log : Array Event)
    (x : EStateM.Result Fault (Logged σ) α) :
    outcome (behind log x) = outcome x := by
  cases x <;> rfl

/-- The step does and reports the same behind every log. -/
def Appends (x : Step σ α) : Prop := ∀ s log, x ⟨s, log⟩ = behind log (x ⟨s, #[]⟩)

namespace Appends

variable {x : Step σ α}

theorem outcome_eq (h : Appends x) (s : σ) (log log' : Array Event) :
    outcome (x ⟨s, log⟩) = outcome (x ⟨s, log'⟩) := by
  rw [h s log, h s log', outcome_behind, outcome_behind]

theorem pure (a : α) : Appends (Pure.pure a : Step σ α) := by
  intro s log
  simp [pure_apply, behind]

theorem observe (f : σ → α) : Appends (Step.observe f) := by
  intro s log
  simp [observe_apply, behind]

theorem query (f : σ → Except Fault α) : Appends (Step.query f) := by
  intro s log
  rw [query_apply, query_apply]
  cases f s <;> simp [behind]

theorem update (f : σ → σ) : Appends (Step.update f) := by
  intro s log
  simp [update_apply, behind]

theorem emit (e : Event) : Appends (Step.emit e : Step σ Unit) := by
  intro s log
  rw [emit_apply, emit_apply, behind, Array.push_eq_append, Array.push_eq_append,
    Array.empty_append]

theorem bind {f : α → Step σ β} (h : Appends x) (hf : ∀ a, Appends (f a)) :
    Appends (x >>= f) := by
  intro s log
  rw [bind_apply, bind_apply, h s log]
  cases x ⟨s, #[]⟩ with
  | error fault t => rfl
  | ok a t =>
      -- What follows stands behind the log and behind what `x` has reported.
      have hlater := hf a t.state (log ++ t.log)
      rw [← behind_behind, ← hf a t.state t.log] at hlater
      exact hlater

theorem discard (h : Appends x) : Appends (Functor.discard x : Step σ Unit) := by
  intro s log
  rw [discard_apply, discard_apply, h s log]
  cases x ⟨s, #[]⟩ <;> rfl

theorem within (split : σ → τ × (τ → σ)) {x : Step τ α} (h : Appends x) :
    Appends (Step.within split x) := by
  intro s log
  rw [within_apply, within_apply, h (split s).1 log]
  cases x ⟨(split s).1, #[]⟩ <;> rfl

theorem forM {ρ : Type} {f : ρ → Step σ Unit} (h : ∀ r, Appends (f r)) (rs : List ρ) :
    Appends (rs.forM f) := by
  induction rs with
  | nil => exact .pure ()
  | cons r rs ih =>
      rw [List.forM_eq_forM, List.forM_cons]
      exact .bind (h r) fun _ => ih

end Appends

end Step

/-! ## Ticks -/

theorem Bank.appends_readPort (address : Nat) : Step.Appends (readPort address) :=
  .bind (.update _) fun _ => .bind (.query _) fun _ => .update _

theorem Bank.appends_writePort (w : PortWrite) : Step.Appends (writePort w) := by
  have hcount : Step.Appends (do
      let usage ← Step.query fun b : Bank => b.usage.countWrite
      Step.update fun b => { b with usage := usage }) :=
    .bind (.query _) fun _ => .update _
  refine .bind (.observe _) fun fresh => .bind (.update _) fun _ => ?_
  cases fresh with
  | false => exact hcount
  | true => exact .bind (.query _) fun _ => .bind (.update _) fun _ => hcount

theorem Bank.appends_tick (d : Drive) : Step.Appends (tick d) := by
  obtain ⟨read, write⟩ := d
  cases read with
  | none =>
      cases write with
      | none => exact .observe _
      | some w =>
          exact .bind (.query _)
            fun _ => .bind (appends_writePort w) fun _ => .observe _
  | some address =>
      cases write with
      | none =>
          exact .bind (.query _)
            fun _ => .bind (appends_readPort address) fun _ => .observe _
      | some w =>
          exact .bind (.query _) fun _ => .bind (.query _) fun _ =>
            .bind (appends_readPort address) fun _ =>
              .bind (appends_writePort w) fun _ => .observe _

theorem Router.appends_route (write : Option Write) : Step.Appends (route write) := by
  cases write with
  | none => exact .pure _
  | some w =>
      exact .bind (.query _)
        fun _ => .bind (.update _) fun _ => .bind (.emit _) fun _ => .pure _

namespace Store

theorem appends_commit (drives : Array Drive) (order : List Nat) :
    Step.Appends (commit drives order) := by
  refine .forM (fun lane => ?_) order
  cases drives[lane]? with
  | none => exact .pure ()
  | some d => exact .discard (.within _ (Bank.appends_tick d))

theorem appends_settle (order : List Nat) (i : Inputs) (before : Sequencer) :
    Step.Appends (settle order i before) := by
  refine .bind (.within _ (Router.appends_route i.write)) fun routed => ?_
  refine .bind (.query _) fun drives => ?_
  refine .bind (.within _ (appends_commit drives order)) fun _ => ?_
  exact .bind (.query _) fun after => .bind (.update _) fun _ => .emit _

theorem appends_tickIn (order : List Nat) (i : Inputs) :
    Step.Appends (tickIn order i) := by
  intro s log
  by_cases hi : s.Admits i
  · have hsettle := appends_settle order i s.sequencer s
    rw [tickIn_of_admits hi, tickIn_of_admits hi, hsettle (log ++ _),
      hsettle (#[] ++ _), Step.behind_behind, Array.empty_append]
  · obtain ⟨w, cause, hw, hcheck⟩ := check_of_not_admits hi
    rw [tickIn_of_check hw hcheck, tickIn_of_check hw hcheck]
    simp [Step.behind]

theorem appends_tick (i : Inputs) : Step.Appends (tick i) :=
  .bind (.observe _) fun order => appends_tickIn order i

end Store

end Wavefront
