import Wavefront.Proofs.Engine.Cycle
import Wavefront.Proofs.Store.Orders

/-!
# The mode of an engine cannot be observed

Nothing that an engine does depends on its mode but the ticks of its block. So an
engine keeps in step with the same engine in any other mode, whatever the order is
in which this one evaluates the lanes of each tick (`inStep_perform`).
`evaluation_order_unobservable` collects what that says about lanes, blocks and
engines.
-/

namespace Wavefront

namespace Engine

variable {c : Config} {m : Concurrency} {tick : Inputs → Step Store Unit}

def setConcurrency (m : Concurrency) (e : Engine) : Engine :=
  { e with store := e.store.setConcurrency m }

/-- The engine `f` is the engine `e` with a well-formed block of the configuration
`c`, but in the mode `m`. -/
structure Twin (c : Config) (m : Concurrency) (e f : Engine) : Prop where
  wellFormed : e.store.WellFormed c
  eq : f = e.setConcurrency m

namespace Twin

variable {e f : Engine}

theorem initial (hc : c.IsBuildable) (m : Concurrency) :
    Twin c m (ofStore (Store.initial c))
      (ofStore (Store.initial { c with concurrency := m })) :=
  ⟨Store.wellFormed_initial hc, rfl⟩

theorem store (h : Twin c m e f) : Store.Twin c m e.store f.store :=
  ⟨h.wellFormed, congrArg Engine.store h.eq⟩

end Twin

/-! ## One request -/

theorem inStep_onStore {α : Type} {x y : Step Store α}
    (h : Step.InStep (Store.Twin c m) x y) :
    Step.InStep (Twin c m) (onStore x) (onStore y) := by
  refine .within h Twin.store fun hef hstore => ⟨hstore.wellFormed, ?_⟩
  rw [hstore.eq, hef.eq]
  rfl

theorem inStep_observe {α : Type} {g : Engine → α}
    (hg : ∀ e : Engine, g (e.setConcurrency m) = g e) :
    Step.InStep (Twin c m) (Step.observe g) (Step.observe g) :=
  .observe fun hef => by rw [hef.eq, hg]

theorem inStep_query {α : Type} {g : Engine → Except Fault α}
    (hg : ∀ e : Engine, g (e.setConcurrency m) = g e) :
    Step.InStep (Twin c m) (Step.query g) (Step.query g) :=
  .query fun hef => by rw [hef.eq, hg]

theorem inStep_update {g : Engine → Engine}
    (hstore : ∀ e : Engine, (g e).store = e.store)
    (hg : ∀ e : Engine, g (e.setConcurrency m) = (g e).setConcurrency m) :
    Step.InStep (Twin c m) (Step.update g) (Step.update g) := by
  refine .update fun hef => ⟨?_, ?_⟩
  · rw [hstore]
    exact hef.wellFormed
  · rw [hef.eq, hg]

theorem inStep_clockBy (h : Store.InSomeOrder tick) (i : Inputs) :
    Step.InStep (Twin c m) (clockBy Store.tick i) (clockBy tick i) := by
  refine .bind (inStep_query fun _ => rfl) fun cycle => ?_
  refine .bind (.emit (.cycle cycle)) fun _ => ?_
  refine .bind (inStep_observe fun _ => rfl) fun before => ?_
  refine .bind (inStep_query fun _ => rfl) fun addresses => ?_
  refine .bind (inStep_onStore (Store.inStep_tick h i)) fun _ => ?_
  refine .bind (inStep_observe fun _ => rfl) fun outputs => ?_
  exact .bind (inStep_update (fun _ => rfl) fun _ => rfl) fun _ => .pure _

theorem inStep_clockNextBy (h : Store.InSomeOrder tick) :
    Step.InStep (Twin c m) (clockNextBy Store.tick) (clockNextBy tick) := by
  refine .bind (inStep_observe fun _ => rfl) fun i => ?_
  exact .bind (inStep_update (fun _ => rfl) fun _ => rfl) fun _ => inStep_clockBy h i

theorem inStep_runBy (h : Store.InSomeOrder tick) (n : Nat) :
    Step.InStep (Twin c m) (runBy Store.tick n) (runBy tick n) := by
  induction n with
  | zero => exact .pure ()
  | succ n ih => exact .bind (.discard (inStep_clockNextBy h)) fun _ => ih

theorem inStep_drainBy (h : Store.InSomeOrder tick) :
    Step.InStep (Twin c m) (drainBy Store.tick) (drainBy tick) := by
  intro e f hef log
  have hpending : f.pending = e.pending := by
    rw [hef.eq]
    rfl
  rw [drainBy_apply, drainBy_apply, hpending]
  exact inStep_runBy h e.pending hef log

theorem inStep_load (words : List Word) :
    Step.InStep (Twin c m) (load words) (load words) := by
  refine .bind (inStep_query fun _ => rfl) fun plan => ?_
  refine .bind (inStep_onStore (Store.inStep_resize plan.size)) fun _ => ?_
  refine .bind (.emit (.queued plan.commands.length plan.size)) fun _ => ?_
  exact .bind (inStep_update (fun _ => rfl) fun _ => rfl) fun _ => .pure _

theorem inStep_handOverTrace : Step.InStep (Twin c m) handOverTrace handOverTrace := by
  refine .bind (inStep_observe fun _ => rfl) fun taken => ?_
  exact .bind (inStep_update (fun _ => rfl) fun _ => rfl) fun _ => .pure _

theorem inStep_perform (h : Store.InSomeOrder tick) (r : Request) :
    Step.InStep (Twin c m) (perform r) (performBy tick r) := by
  cases r with
  | enqueue is =>
      exact .bind (inStep_update (fun _ => rfl) fun _ => rfl) fun _ => .pure _
  | load words => exact .bind (inStep_load words) fun _ => .pure _
  | clock i => exact .bind (inStep_clockBy h i) fun _ => .pure _
  | clockNext => exact .bind (inStep_clockNextBy h) fun _ => .pure _
  | run n => exact .bind (inStep_runBy h n) fun _ => .pure _
  | drain => exact .bind (inStep_drainBy h) fun _ => .pure _
  | handOverTrace => exact .bind inStep_handOverTrace fun _ => .pure _
  | ofStore r =>
      refine .bind (inStep_onStore ?_) fun _ => .pure _
      exact Store.inStep_perform h r

/-! ## Every request -/

/-- The order in which lanes are evaluated cannot be observed. In every block that a
run can reach, the lanes of a tick whose command is in range may tick in any order:
none is refused, and the banks end up the same, unless there have been as many ticks
as a counter can count and every order overflows. So no sequence of requests tells
two new blocks apart, or two new engines, that differ in their modes alone, though
one of them may evaluate the lanes of each tick in an order of its own: they return
the same, report the same, and but for the mode they are the same after every
request. -/
theorem evaluation_order_unobservable {s₀ s₀' : Store} (h : Store.new c = .ok s₀)
    (h' : Store.new { c with concurrency := m } = .ok s₀')
    (htick : Store.InSomeOrder tick) (log : Array Event) :
    (∀ (rs : List Store.Request) (i : Inputs),
      (∀ w, i.write = some w → w.bank < c.banks ∧ w.address < c.depth) →
        let t := (Step.after Store.perform rs ⟨s₀, log⟩).state
        ∃ drives banks, t.drives i.routed = .ok drives ∧ ∀ log' : Array Event,
          (∀ order : List Nat, order.Perm (List.range c.banks) →
            Store.commit drives order ⟨t.banks, log'⟩ = .ok () ⟨banks, log'⟩) ∨
          Checked.limit ≤ Store.ticksIn rs + 1 ∧
            ∀ order : List Nat, order.Perm (List.range c.banks) →
              ∃ u, Store.commit drives order ⟨t.banks, log'⟩ =
                .error (.overflow .add) u) ∧
      (∀ rs : List Store.Request,
        Step.SameRun (Store.Twin c m) Store.perform (Store.performBy tick) rs
        ⟨s₀, log⟩ ⟨s₀', log⟩) ∧
      ∀ rs : List Request, Step.SameRun (Twin c m) perform (performBy tick) rs
        ⟨ofStore s₀, log⟩ ⟨ofStore s₀', log⟩ := by
  obtain ⟨hc, rfl⟩ := Store.new_eq_ok_iff.1 h
  obtain ⟨-, rfl⟩ := Store.new_eq_ok_iff.1 h'
  refine ⟨?_, fun rs => ?_, fun rs => ?_⟩
  · intro rs i hin t
    have ht : t.WellFormed c :=
      Store.wellFormed_after (Store.wellFormed_initial hc) rs log
    have hi : t.Admits i := (Store.admits_iff ht i).2 hin
    refine ⟨_, (t.next i).banks, ht.drives_eq i, fun log' => ?_⟩
    rcases Store.commit_in_every_order ht hi log' with hok | ⟨hfull, herr⟩
    · exact .inl hok
    · refine .inr ⟨Nat.not_lt.1 fun hlt => hfull ?_, herr⟩
      exact Store.hasRoom_after hc hlt log
  · exact Step.InStep.sameRun (Store.inStep_perform htick) (.initial hc m) rs log
  · exact Step.InStep.sameRun (inStep_perform htick) (.initial hc m) rs log

/-- A filter of seven words over three banks leaves the same trace whether its lanes
are evaluated in sequence or in parallel; a tick whose command names no bank is
refused by both. -/
theorem same_trace_in_parallel :
    let rs : List Request :=
      [.load [1, 2, 3, 4, 5, 6, 7], .ofStore (.resize 9),
        .enqueue [⟨none, true, false⟩], .drain,
        .clock ⟨some ⟨3, 0, 1⟩, false, false⟩, .run 3, .handOverTrace]
    Step.outcomes perform rs ⟨ofStore (Store.initial ⟨3, 4, .sequential, true⟩), #[]⟩ =
      Step.outcomes perform rs
        ⟨ofStore (Store.initial ⟨3, 4, .parallel, true⟩), #[]⟩ := by
  intro rs
  have hnew : Store.new ⟨3, 4, .sequential, true⟩ =
      .ok (Store.initial ⟨3, 4, .sequential, true⟩) := rfl
  have hnew' : Store.new ⟨3, 4, .parallel, true⟩ =
      .ok (Store.initial ⟨3, 4, .parallel, true⟩) :=
    rfl
  obtain ⟨-, -, hengine⟩ :=
    evaluation_order_unobservable (m := .parallel) hnew hnew' Store.inSomeOrder_tick #[]
  exact (hengine rs).outcomes_eq (by decide +kernel)

end Engine

end Wavefront
