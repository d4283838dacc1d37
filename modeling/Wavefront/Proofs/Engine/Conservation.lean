import Wavefront.Proofs.Engine.History

/-!
# No record is lost

An engine that keeps a trace hands it over on request and begins a new one. What it
has handed over so far, followed by what it holds, is the records of all cycles it
has carried out, in their order: nothing is lost on the way, nothing appears twice,
and a cycle that fails leaves nothing behind. One request keeps this balance
(`trace_perform`), hence every run does (`trace_after`); `trace_conservation` adds
how the records are numbered and that each of them has every lane.
-/

namespace Wavefront

theorem Trace.map_some_lane {t : Trace} {lane : Nat}
    (h : ∀ r ∈ t.toList, lane < r.outputs.length) :
    (t.lane lane).map some = t.toList.map fun r => r.outputs[lane]? := by
  rw [Trace.lane]
  generalize t.toList = records at h
  induction records with
  | nil => rfl
  | cons r records ih =>
      obtain ⟨hr, htail⟩ := List.forall_mem_cons.1 h
      have hword : r.outputs[lane]? = some r.outputs[lane] :=
        List.getElem?_eq_getElem hr
      simp only [List.filterMap_cons, hword, List.map_cons, ih htail]

theorem Trace.lane_eq_nil {t : Trace} {lane : Nat}
    (h : ∀ r ∈ t.toList, r.outputs.length ≤ lane) :
    t.lane lane = [] := by
  rw [Trace.lane, List.filterMap_eq_nil_iff]
  intro r hr
  exact List.getElem?_eq_none (h r hr)

namespace Engine

variable {c : Config} {e : Engine}

def handed : Except Fault Reply → List Record
  | .ok (.trace (some t)) => t.toList
  | _ => []

def handedOver (outcomes : List (Except Fault Reply)) : List Record :=
  outcomes.flatMap handed

@[simp] theorem handedOver_nil : handedOver [] = [] := rfl

theorem handedOver_cons (o : Except Fault Reply) (os : List (Except Fault Reply)) :
    handedOver (o :: os) = handed o ++ handedOver os := rfl

theorem handed_perform {r : Request} (h : r ≠ .handOverTrace) (s : Logged Engine) :
    handed (Step.outcome (perform r s)) = [] := by
  have hreply : ∀ {α : Type} (x : Step Engine α) (f : α → Reply),
      (∀ a, handed (.ok (f a)) = []) →
      handed (Step.outcome ((x >>= fun a => pure (f a)) s)) = [] := by
    intro α x f hf
    rw [Step.outcome_bind_pure]
    cases Step.outcome (x s) with
    | error fault => rfl
    | ok a => exact hf a
  cases r with
  | enqueue is => exact hreply (Step.update (enqueue is)) (fun _ => .done) fun _ => rfl
  | load words => exact hreply (load words) .size fun _ => rfl
  | clock i => exact hreply (clock i) .record fun _ => rfl
  | clockNext => exact hreply clockNext .record fun _ => rfl
  | run n => exact hreply (run n) (fun _ => .done) fun _ => rfl
  | drain => exact hreply drain (fun _ => .done) fun _ => rfl
  | handOverTrace => exact absurd rfl h
  | ofStore q => exact hreply (onStore (Store.perform q)) (fun _ => .done) fun _ => rfl

/-- A request adds the records of its cycles to the trace, or hands the trace
over. -/
theorem trace_perform (h : e.store.WellFormed c) {t : Trace} (ht : e.trace = some t)
    (r : Request) (log : Array Event) :
    ∃ t', (Step.final (perform r ⟨e, log⟩)).state.trace = some t' ∧
      t.toList ++ (r.cycles ⟨e, log⟩).map Cycle.record =
        handed (Step.outcome (perform r ⟨e, log⟩)) ++ t'.toList := by
  by_cases htrace : r = .handOverTrace
  · subst htrace
    refine ⟨.empty, ?_, ?_⟩
    · show e.trace.map (fun _ => Trace.empty) = some .empty
      rw [ht]
      rfl
    · show t.toList ++ [] = handed (.ok (.trace e.trace)) ++ []
      rw [ht]
      rfl
  simp only [handed_perform htrace, List.nil_append]
  by_cases hr : r.TicksBlock
  · cases r with
    | ofStore q =>
        refine ⟨t, ?_, List.append_nil _⟩
        rw [perform_ofStore, Step.final_bind_pure, final_onStore]
        exact ht
    | enqueue _ | load _ | clock _ | clockNext | run _ | drain | handOverTrace =>
        exact hr.elim
  · have heq := (passes_perform h hr htrace log).trace_eq
    rw [ht, Option.map_some, Option.map_eq_some_iff] at heq
    obtain ⟨t', ht', hrecords⟩ := heq
    exact ⟨t', ht', hrecords.symm⟩

theorem trace_after (h : e.store.WellFormed c) {t : Trace} (ht : e.trace = some t)
    (rs : List Request) (log : Array Event) :
    ∃ t', (Step.after perform rs ⟨e, log⟩).state.trace = some t' ∧
      t.toList ++ (history rs ⟨e, log⟩).map Cycle.record =
        handedOver (Step.outcomes perform rs ⟨e, log⟩) ++ t'.toList := by
  induction rs generalizing e t log with
  | nil => exact ⟨t, ht, List.append_nil _⟩
  | cons r rs ih =>
      obtain ⟨t₁, ht₁, hfirst⟩ := trace_perform h ht r log
      obtain ⟨t', ht', hrest⟩ := ih (counts_perform h r log).wellFormed ht₁
        (Step.final (perform r ⟨e, log⟩)).log
      refine ⟨t', ht', ?_⟩
      rw [history_cons, List.map_append, ← List.append_assoc, hfirst, List.append_assoc,
        hrest, Step.outcomes_cons, handedOver_cons, List.append_assoc]

theorem toList_subset_handedOver {os : List (Except Fault Reply)} {t : Trace}
    (ht : Except.ok (Reply.trace (some t)) ∈ os) {r : Record} (hr : r ∈ t.toList) :
    r ∈ handedOver os :=
  List.mem_flatMap.2 ⟨_, ht, hr⟩

/-- The balance of the trace. In an engine that keeps one, after any requests in any
order, failed ones and ticks of the block past the engine included, the traces
handed over and the one at hand make up the records of the cycles that were carried
out, in their order. Their numbers go from one to the count of the engine without a
gap, and every record has an address and a word for every lane; so in each of the
traces a lane has a word for each record, and beyond the lanes there is nothing. -/
theorem trace_conservation {s : Logged Store} (hs : Store.Reachable c s)
    (ht : c.traced = true) (rs : List Request) (log : Array Event) :
    let start : Logged Engine := ⟨ofStore s.state, log⟩
    let e := (Step.after perform rs start).state
    let outcomes := Step.outcomes perform rs start
    let records := (history rs start).map Cycle.record
    ∃ t, e.trace = some t ∧
      handedOver outcomes ++ t.toList = records ∧
      records.map Record.cycle = List.range' 1 e.cycles ∧
      (∀ r ∈ records, r.addresses.length = c.banks ∧ r.outputs.length = c.banks) ∧
      ∀ t', t' = t ∨ Except.ok (Reply.trace (some t')) ∈ outcomes → ∀ lane,
        (lane < c.banks →
          (t'.lane lane).map some = t'.toList.map fun r => r.outputs[lane]?) ∧
        (c.banks ≤ lane → t'.lane lane = []) := by
  intro start e outcomes records
  have hwell : (ofStore s.state).store.WellFormed c := hs.wellFormed
  have hempty : (ofStore s.state).trace = some .empty := by
    show (if s.state.config.traced = true then some Trace.empty else none) = some .empty
    rw [hs.wellFormed.config_eq, if_pos ht]
  have hcounts := counts_after hwell rs log
  obtain ⟨t, htrace, hbalance⟩ := trace_after hwell hempty rs log
  have hrecords : handedOver outcomes ++ t.toList = records := hbalance.symm
  have hlanes : ∀ r ∈ records, r.addresses.length = c.banks ∧
      r.outputs.length = c.banks := by
    intro r hr
    obtain ⟨x, hx, rfl⟩ := List.mem_map.1 hr
    exact hcounts.lanes_eq x hx
  refine ⟨t, htrace, hrecords, ?_, hlanes, ?_⟩
  · have hcycles : e.cycles = 0 + (history rs start).length := hcounts.cycles_eq
    have hnumbers : (history rs start).map (fun x => x.record.cycle) =
        List.range' (0 + 1) (history rs start).length := hcounts.numbers_eq
    rw [hcycles, Nat.zero_add, List.map_map]
    exact hnumbers
  · intro t' ht' lane
    have hmem : ∀ r ∈ t'.toList, r ∈ records := by
      intro r hr
      rw [← hrecords]
      rcases ht' with rfl | ht'
      · exact List.mem_append_right _ hr
      · exact List.mem_append_left _ (toList_subset_handedOver ht' hr)
    constructor
    · intro hlane
      refine Trace.map_some_lane fun r hr => ?_
      rwa [(hlanes r (hmem r hr)).2]
    · intro hlane
      refine Trace.lane_eq_nil fun r hr => ?_
      rwa [(hlanes r (hmem r hr)).2]

/-- A trace that is handed over in the middle of a run, in which a queued command
names no bank and the block is ticked past the engine. -/
theorem trace_conserved_across_handover :
    let s : Logged Store := ⟨Store.initial ⟨2, 4, .sequential, true⟩, #[]⟩
    let rs : List Request :=
      [.load [1, 2, 3], .run 2, .handOverTrace,
        .enqueue [.ofWrite ⟨5, 0, 9⟩, ⟨none, true, false⟩],
        .drain, .ofStore (.tick .idle), .drain, .clock (.ofWrite ⟨0, 4, 9⟩), .clockNext]
    ∃ t, (Step.after perform rs ⟨ofStore s.state, #[]⟩).state.trace = some t ∧
      (handedOver (Step.outcomes perform rs ⟨ofStore s.state, #[]⟩)).map Record.cycle =
        [1, 2] ∧
      (handedOver (Step.outcomes perform rs ⟨ofStore s.state, #[]⟩) ++ t.toList).map
        Record.cycle =
        [1, 2, 3, 4, 5] := by
  intro s rs
  have hs : Store.Reachable ⟨2, 4, .sequential, true⟩ s := ⟨_, [], #[], rfl, rfl⟩
  obtain ⟨t, ht, hrecords, hnumbers, -⟩ := trace_conservation hs rfl rs #[]
  have hcycles : (Step.after perform rs ⟨ofStore s.state, #[]⟩).state.cycles = 5 := by
    decide +kernel
  refine ⟨t, ht, by decide +kernel, ?_⟩
  rw [hrecords, hnumbers, hcycles]
  rfl

end Engine

end Wavefront
