import Mathlib.Order.Bounds.Basic
import Wavefront.Proofs.Engine.History
import Wavefront.Trace.Parting

/-!
# The first difference of two traces

`Trace.shared` is the length of the longest beginning that two lists of records have
in common (`isGreatest_shared`), and the record at which they part is the one that
stands there (`parting_eq`). That length is the same from both sides, so it is only
through the record that it matters which trace is compared with which, and not even
then if both have a record of the same number there (`partsAt?_comm`).

The traces of engines are numbered without gaps (`Engine.Numbered`). So two of them
are numbered alike as soon as they begin with the same cycle.
-/

namespace Wavefront

namespace Trace

/-- The number of records that two lists have in common before they part. -/
def shared : List Record → List Record → Nat
  | r :: rs, q :: qs => if r = q then shared rs qs + 1 else 0
  | _, _ => 0

theorem shared_comm (rs qs : List Record) : shared rs qs = shared qs rs := by
  induction rs generalizing qs with
  | nil => cases qs <;> rfl
  | cons r rs ih =>
      cases qs with
      | nil => rfl
      | cons q qs => simp only [shared, ih qs, eq_comm]

/-- The lengths of the beginnings that two lists have in common. -/
def commonLengths (rs qs : List Record) : Set Nat :=
  {n | ∃ common : List Record, common <+: rs ∧ common <+: qs ∧ common.length = n}

theorem shared_mem_commonLengths (rs qs : List Record) :
    shared rs qs ∈ commonLengths rs qs := by
  induction rs generalizing qs with
  | nil => exact ⟨[], List.nil_prefix, List.nil_prefix, by cases qs <;> rfl⟩
  | cons r rs ih =>
      cases qs with
      | nil => exact ⟨[], List.nil_prefix, List.nil_prefix, rfl⟩
      | cons q qs =>
          by_cases h : r = q
          · obtain ⟨common, hrs, hqs, hlength⟩ := ih qs
            refine ⟨r :: common, List.cons_prefix_cons.2 ⟨rfl, hrs⟩,
              List.cons_prefix_cons.2 ⟨h, hqs⟩, ?_⟩
            rw [shared, if_pos h, List.length_cons, hlength]
          · refine ⟨[], List.nil_prefix, List.nil_prefix, ?_⟩
            rw [shared, if_neg h, List.length_nil]

theorem length_le_shared {common rs qs : List Record} (hrs : common <+: rs)
    (hqs : common <+: qs) :
    common.length ≤ shared rs qs := by
  induction common generalizing rs qs with
  | nil => exact Nat.zero_le _
  | cons x common ih =>
      obtain ⟨rest, rfl⟩ := hrs
      obtain ⟨rest', rfl⟩ := hqs
      rw [List.cons_append, List.cons_append, shared, if_pos rfl, List.length_cons]
      exact Nat.succ_le_succ (ih (List.prefix_append _ _) (List.prefix_append _ _))

theorem isGreatest_shared (rs qs : List Record) :
    IsGreatest (commonLengths rs qs) (shared rs qs) := by
  refine ⟨shared_mem_commonLengths rs qs, ?_⟩
  rintro n ⟨common, hrs, hqs, rfl⟩
  exact length_le_shared hrs hqs

/-- Two lists part at the record of the first one that stands behind what they
share, or at that of the second. -/
theorem parting_eq (rs qs : List Record) :
    parting rs qs = rs[shared rs qs]?.or qs[shared rs qs]? := by
  induction rs generalizing qs with
  | nil => cases qs <;> rfl
  | cons r rs ih =>
      cases qs with
      | nil => rfl
      | cons q qs =>
          by_cases h : r = q
          · rw [parting, shared, if_pos h, if_pos h, ih, List.getElem?_cons_succ,
              List.getElem?_cons_succ]
          · rw [parting, shared, if_neg h, if_neg h]
            rfl

theorem partsAt?_eq (t u : Trace) :
    t.partsAt? u =
      (t.toList[shared t.toList u.toList]?.or u.toList[shared t.toList u.toList]?).map
      Record.cycle := by
  rw [partsAt?, parting_eq]

/-- The records in this place have the same number, if both traces have one
there. -/
def AlikeAt (k : Nat) (t u : Trace) : Prop :=
  ∀ r q : Record, t.toList[k]? = some r → u.toList[k]? = some q → r.cycle = q.cycle

theorem partsAt?_comm {t u : Trace} (h : AlikeAt (shared t.toList u.toList) t u) :
    t.partsAt? u = u.partsAt? t := by
  rw [partsAt?_eq, partsAt?_eq, shared_comm u.toList]
  rw [AlikeAt] at h
  generalize t.toList[shared t.toList u.toList]? = r,
    u.toList[shared t.toList u.toList]? = q at h
  cases r with
  | none => rw [Option.none_or, Option.or_none]
  | some r =>
      cases q with
      | none => rw [Option.none_or, Option.or_none]
      | some q => exact congrArg some (h r q rfl rfl)

theorem cycle_of_numbers {t : Trace} {n k : Nat} {r : Record}
    (h : t.toList.map Record.cycle = List.range' n t.toList.length)
    (hr : t.toList[k]? = some r) :
    r.cycle = n + k := by
  have hk : k < t.toList.length := (List.getElem?_eq_some_iff.1 hr).1
  have hplace : some r.cycle = some (n + k) := by
    calc
      some r.cycle
      _ = (t.toList.map Record.cycle)[k]? := by
        rw [List.getElem?_map, hr, Option.map_some]
      _ = (List.range' n t.toList.length)[k]? := by rw [h]
      _ = some (n + k) := by rw [List.getElem?_range' hk, Nat.one_mul]
  exact Option.some.inj hplace

end Trace

namespace Engine

variable {c : Config} {e f : Engine}

/-- The records of the trace are numbered without gaps, up to the count of the
engine. -/
def Numbered (e : Engine) : Prop :=
  ∀ t ∈ e.trace, ∃ n, n + t.toList.length = e.cycles + 1 ∧
    t.toList.map Record.cycle = List.range' n t.toList.length

namespace Numbered

theorem of_empty (h : ∀ t ∈ e.trace, t = .empty) : e.Numbered := by
  intro t ht
  rw [h t ht]
  exact ⟨e.cycles + 1, rfl, rfl⟩

theorem of_passes {cs : List Cycle} (h : e.Numbered) (hcs : Passes c e cs f) :
    f.Numbered := by
  intro t' ht'
  have htrace := hcs.trace_eq
  rw [show f.trace = some t' from ht', Option.map_some, eq_comm,
    Option.map_eq_some_iff] at htrace
  obtain ⟨t, ht, hrecords⟩ := htrace
  obtain ⟨n, hlength, hnumbers⟩ := h t ht
  have hcycles : (cs.map Cycle.record).map Record.cycle =
      List.range' (e.cycles + 1) cs.length := by
    rw [List.map_map]
    exact hcs.numbers_eq
  refine ⟨n, ?_, ?_⟩
  · rw [← hrecords, List.length_append, List.length_map, hcs.cycles_eq]
    omega
  · rw [← hrecords, List.map_append, hnumbers, hcycles, ← hlength, List.range'_append_1,
      List.length_append, List.length_map]

theorem perform (h : e.Numbered) (hwell : e.store.WellFormed c) (r : Request)
    (log : Array Event) :
    (Step.final (Engine.perform r ⟨e, log⟩)).state.Numbered := by
  by_cases htrace : r = .handOverTrace
  · subst htrace
    refine of_empty fun t ht => ?_
    obtain ⟨u, -, rfl⟩ := Option.map_eq_some_iff.1 ht
    rfl
  by_cases hr : r.TicksBlock
  · cases r with
    | ofStore q =>
        rw [perform_ofStore, Step.final_bind_pure, final_onStore]
        exact h
    | enqueue _ | load _ | clock _ | clockNext | run _ | drain | handOverTrace =>
        exact hr.elim
  · exact h.of_passes (passes_perform hwell hr htrace log)

theorem after (h : e.Numbered) (hwell : e.store.WellFormed c) (rs : List Request)
    (log : Array Event) :
    (Step.after Engine.perform rs ⟨e, log⟩).state.Numbered := by
  induction rs generalizing e log with
  | nil => exact h
  | cons r rs ih =>
      exact ih (h.perform hwell r log) (counts_perform hwell r log).wellFormed _

end Numbered

theorem Reachable.numbered {t : Logged Engine} (h : Reachable c t) :
    t.state.Numbered := by
  obtain ⟨s, rs, log, hs, rfl⟩ := h
  have hnew : (ofStore s.state).Numbered :=
    .of_empty fun _ ht => eq_empty_of_mem_trace_ofStore ht
  exact hnew.after hs.wellFormed rs log

theorem Numbered.alike (he : e.Numbered) (hf : f.Numbered) {t u : Trace}
    (ht : t ∈ e.trace) (hu : u ∈ f.trace)
    (hfirst : ∀ r ∈ t.toList.head?, ∀ q ∈ u.toList.head?, r.cycle = q.cycle) :
    ∀ k, Trace.AlikeAt k t u := by
  obtain ⟨n, -, hn⟩ := he t ht
  obtain ⟨m, -, hm⟩ := hf u hu
  intro k r q hr hq
  -- Traces that have a record there have a first one as well.
  have hone : ∀ {v : Trace} {x : Record}, v.toList[k]? = some x →
      ∃ y, v.toList[0]? = some y := by
    intro v x hx
    have hk : k < v.toList.length := (List.getElem?_eq_some_iff.1 hx).1
    exact ⟨_, List.getElem?_eq_getElem (Nat.zero_lt_of_lt hk)⟩
  obtain ⟨r₀, hr₀⟩ := hone hr
  obtain ⟨q₀, hq₀⟩ := hone hq
  have hstart :=
    hfirst r₀ (List.head?_eq_getElem?.trans hr₀) q₀ (List.head?_eq_getElem?.trans hq₀)
  rw [Trace.cycle_of_numbers hn hr₀, Trace.cycle_of_numbers hm hq₀] at hstart
  rw [Trace.cycle_of_numbers hn hr, Trace.cycle_of_numbers hm hq]
  omega

end Engine

namespace Trace

/-- The comparison of two traces. It finds no difference exactly when they are
equal. Otherwise it reports the number of the record with which the first trace goes
on behind the longest beginning that they have in common, or of that of the second
if the first has ended there. If both traces number their records there alike, they
part at the same number from either side, and the traces of two engines number all
their records alike as soon as they begin with the same cycle. -/
theorem parts_at_first_difference (t u : Trace) :
    (t.partsAt? u = none ↔ t = u) ∧
      (t ≠ u → ∃ k r, IsGreatest (commonLengths t.toList u.toList) k ∧
        t.toList[k]?.or u.toList[k]? = some r ∧ t.partsAt? u = some r.cycle) ∧
      (∀ k, IsGreatest (commonLengths t.toList u.toList) k → AlikeAt k t u →
        t.partsAt? u = u.partsAt? t) ∧
      ∀ (c c' : Config) (s s' : Logged Engine), Engine.Reachable c s →
        Engine.Reachable c' s' →
        s.state.trace = some t → s'.state.trace = some u →
        (∀ r ∈ t.toList.head?, ∀ q ∈ u.toList.head?, r.cycle = q.cycle) →
          ∀ k, AlikeAt k t u := by
  refine ⟨partsAt?_eq_none_iff t u, fun hne => ?_, fun k hk halike => ?_, ?_⟩
  · have hparts : t.partsAt? u ≠ none := mt (partsAt?_eq_none_iff t u).1 hne
    rw [partsAt?_eq] at hparts ⊢
    cases hrecord : t.toList[shared t.toList u.toList]?.or
      u.toList[shared t.toList u.toList]? with
    | none =>
        rw [hrecord] at hparts
        exact absurd rfl hparts
    | some r => exact ⟨shared t.toList u.toList, r, isGreatest_shared _ _, hrecord, rfl⟩
  · rw [hk.unique (isGreatest_shared _ _)] at halike
    exact partsAt?_comm halike
  · intro c c' s s' hs hs' ht hu hfirst
    exact hs.numbered.alike hs'.numbered ht hu hfirst

/-- Of two engines that stream the same words, the second goes on for a cycle in
which the first records nothing. In either direction the traces part at that
cycle. -/
theorem parts_where_one_ends :
    let engine (cycles : Nat) : Logged Engine :=
      Step.after Engine.perform
        [.load [7, 8], .drain, .handOverTrace, .enqueue [⟨none, true, false⟩],
          .run cycles]
        ⟨Engine.ofStore (Store.initial ⟨2, 4, .parallel, true⟩), #[]⟩
    ∃ t u, (engine 1).state.trace = some t ∧ (engine 2).state.trace = some u ∧
      t.partsAt? u = some 4 ∧ u.partsAt? t = some 4 := by
  intro engine
  have hreachable : ∀ n, Engine.Reachable ⟨2, 4, .parallel, true⟩ (engine n) := fun n =>
    ⟨⟨Store.initial ⟨2, 4, .parallel, true⟩, #[]⟩, _, #[], ⟨_, [], #[], rfl, rfl⟩, rfl⟩
  obtain ⟨t, ht⟩ : ∃ t, (engine 1).state.trace = some t :=
    Option.isSome_iff_exists.1 (by decide +kernel)
  obtain ⟨u, hu⟩ : ∃ u, (engine 2).state.trace = some u :=
    Option.isSome_iff_exists.1 (by decide +kernel)
  have hfirst : ∀ t ∈ (engine 1).state.trace, ∀ u ∈ (engine 2).state.trace,
      ∀ r ∈ t.toList.head?, ∀ q ∈ u.toList.head?, r.cycle = q.cycle := by decide +kernel
  have hparts : ∀ t ∈ (engine 1).state.trace, ∀ u ∈ (engine 2).state.trace,
      t.partsAt? u = some 4 := by
    decide +kernel
  obtain ⟨-, -, hcomm, hengines⟩ := parts_at_first_difference t u
  have halike := hengines _ _ _ _ (hreachable 1) (hreachable 2) ht hu (hfirst t ht u hu)
  have hsame := hcomm _ (isGreatest_shared _ _) (halike _)
  exact ⟨t, u, ht, hu, hparts t ht u hu, hsame.symm.trans (hparts t ht u hu)⟩

end Trace

end Wavefront
