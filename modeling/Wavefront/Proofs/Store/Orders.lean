import Wavefront.Proofs.InStep
import Wavefront.Proofs.Store.Counters

/-!
# The order of the lanes cannot be observed

The lanes of a tick touch one bank each and none of them is rejected by it. So a
tick ends alike in whatever order its lanes are evaluated (`commit_perm`,
`settle_perm`), and a block that evaluates them in some order, perhaps another one
in every tick, keeps in step with the same block in any other mode (`inStep_tick`,
`inStep_perform`).
-/

namespace Wavefront

namespace Store

variable {c : Config} {s : Store} {drives : Array Drive} {d : Nat → Drive}

theorem commit_perm {order order' : List Nat} (h : order.Perm order')
    {banks : Array Bank} (hlt : ∀ i ∈ order, i < banks.size)
    (hd : ∀ i ∈ order, drives[i]? = some (d i))
    (ht : ∀ {i : Nat} {b : Bank}, banks[i]? = some b → b.Takes (d i))
    (log : Array Event) :
    Step.Matches (· = ·) (commit drives order ⟨banks, log⟩)
      (commit drives order' ⟨banks, log⟩) := by
  induction h generalizing banks with
  | nil => exact .refl _
  | @cons i order order' _ ih =>
      obtain ⟨hlti, hlt⟩ := List.forall_mem_cons.1 hlt
      obtain ⟨hdi, hd⟩ := List.forall_mem_cons.1 hd
      have hb : banks[i]? = some banks[i] := Array.getElem?_eq_getElem hlti
      rw [commit_cons hb hdi, commit_cons hb hdi]
      rcases Bank.tick_outcome (ht hb) log with hok | ⟨-, b', herr, -⟩
      · have halike : BanksAlike banks (banks.setIfInBounds i (banks[i].next (d i))) :=
          .set hb (.next (d i) banks[i])
        rw [hok]
        exact ih (fun j hj => halike.size_eq ▸ hlt j hj) hd (halike.takes ht)
      · rw [herr]
        exact .overflow .add _ _
  | swap i j order =>
      obtain ⟨hltj, hlt⟩ := List.forall_mem_cons.1 hlt
      obtain ⟨hlti, -⟩ := List.forall_mem_cons.1 hlt
      obtain ⟨hdj, hd⟩ := List.forall_mem_cons.1 hd
      obtain ⟨hdi, -⟩ := List.forall_mem_cons.1 hd
      have hbi : banks[i]? = some banks[i] := Array.getElem?_eq_getElem hlti
      have hbj : banks[j]? = some banks[j] := Array.getElem?_eq_getElem hltj
      by_cases hij : i = j
      · subst hij
        exact .refl _
      -- Neither lane finds its bank changed by the other.
      have hbi' : ∀ b, (banks.setIfInBounds j b)[i]? = some banks[i] := fun b => by
        rw [Array.getElem?_setIfInBounds, if_neg (Ne.symm hij), hbi]
      have hbj' : ∀ b, (banks.setIfInBounds i b)[j]? = some banks[j] := fun b => by
        rw [Array.getElem?_setIfInBounds, if_neg hij, hbj]
      rw [commit_cons hbj hdj, commit_cons hbi hdi]
      rcases Bank.tick_outcome (ht hbi) log with hi | ⟨-, bi, hi, -⟩ <;>
        rcases Bank.tick_outcome (ht hbj) log with hj | ⟨-, bj, hj, -⟩ <;>
        simp only [hi, hj, commit_cons (hbi' _) hdi, commit_cons (hbj' _) hdj]
      · rw [Array.setIfInBounds_comm _ _ hij]
        exact .refl _
      · exact .overflow .add _ _
      · exact .overflow .add _ _
      · exact .overflow .add _ _
  | trans h _ ih ih' =>
      refine (ih hlt hd ht).trans (ih' ?_ ?_ ht)
      · exact fun i hi => hlt i (h.mem_iff.2 hi)
      · exact fun i hi => hd i (h.mem_iff.2 hi)

theorem commit_drive_perm (h : s.WellFormed c) {i : Inputs} (hi : s.Admits i)
    {order order' : List Nat} (ho : order.Perm (List.range c.banks))
    (ho' : order'.Perm (List.range c.banks)) (log : Array Event) :
    Step.Matches (· = ·)
      (commit ((List.range c.banks).map (s.drive i)).toArray order ⟨s.banks, log⟩)
      (commit ((List.range c.banks).map (s.drive i)).toArray order'
        ⟨s.banks, log⟩) := by
  have hmem : ∀ {lane : Nat}, lane ∈ order → lane < c.banks := by
    intro lane hlane
    rwa [ho.mem_iff, List.mem_range] at hlane
  refine commit_perm (ho.trans ho'.symm) ?_ ?_ (fun hb => h.takes_drive hi hb) log
  · intro lane hlane
    have hwidth := hmem hlane
    rwa [← h.width_eq] at hwidth
  · intro lane hlane
    simp [hmem hlane]

/-- In every order of the lanes a tick leads to the same banks, or a counter is at
the end of its range and it overflows in every order. -/
theorem commit_in_every_order (h : s.WellFormed c) {i : Inputs} (hi : s.Admits i)
    (log : Array Event) :
    (∀ order : List Nat, order.Perm (List.range c.banks) →
      commit ((List.range c.banks).map (s.drive i)).toArray order ⟨s.banks, log⟩ =
        .ok () ⟨(s.next i).banks, log⟩) ∨
      ¬ s.HasRoom ∧ ∀ order : List Nat, order.Perm (List.range c.banks) →
        ∃ t, commit ((List.range c.banks).map (s.drive i)).toArray order
          ⟨s.banks, log⟩ =
          .error (.overflow .add) t := by
  have hmode := Concurrency.perm_order s.width s.config.concurrency
  rw [h.width_eq] at hmode
  rcases commit_order h hi log with hok | ⟨hfull, banks, herr, -⟩
  · left
    intro order ho
    have hmatches := commit_drive_perm h hi hmode ho log
    rw [h.width_eq] at hok
    rw [hok] at hmatches
    generalize commit _ order _ = x at hmatches
    cases hmatches with
    | ok u hbanks log => rw [hbanks]
  · right
    refine ⟨hfull, fun order ho => ?_⟩
    have hmatches := commit_drive_perm h hi hmode ho log
    rw [h.width_eq] at herr
    rw [herr] at hmatches
    generalize commit _ order _ = x at hmatches
    cases hmatches with
    | overflow operation s t => exact ⟨t, rfl⟩

def setConcurrency (m : Concurrency) (s : Store) : Store :=
  { s with config := { s.config with concurrency := m } }

variable {m : Concurrency}

theorem WellFormed.setConcurrency (h : s.WellFormed c) (m : Concurrency) :
    (s.setConcurrency m).WellFormed { c with concurrency := m } := by
  have hconfig : { s.config with concurrency := m } = { c with concurrency := m } := by
    rw [h.config_eq]
  exact ⟨⟨h.buildable.banks_pos, h.buildable.depth_pos, h.buildable.banks_lt,
    h.buildable.depth_lt⟩,
    hconfig, h.width_eq, h.index_eq, h.depth_eq, h.places_eq, h.size_le, h.within⟩

/-- The mode has no part in a tick but to pick the order of its lanes, and no order
shows. -/
theorem settle_perm (h : s.WellFormed c) {i : Inputs} (hi : s.Admits i)
    {order order' : List Nat} (ho : order.Perm (List.range c.banks))
    (ho' : order'.Perm (List.range c.banks)) (before : Sequencer) (log : Array Event) :
    Step.Matches (fun s t => t = s.setConcurrency m) (settle order i before ⟨s, log⟩)
      (settle order' i before ⟨s.setConcurrency m, log⟩) := by
  rcases route_outcome i s.router log with hroute | ⟨-, hroute⟩
  · have hcommit : Step.Matches (· = ·)
        (commit ((List.range c.banks).map (s.drive i)).toArray order
          ⟨s.banks, log ++ (i.write.toList.map Event.routed).toArray⟩)
        (commit ((List.range { c with concurrency := m }.banks).map
            ((s.setConcurrency m).drive i)).toArray order'
          ⟨(s.setConcurrency m).banks,
            log ++ (i.write.toList.map Event.routed).toArray⟩) :=
      commit_drive_perm h hi ho ho' _
    rw [settle_of_route h hroute, settle_of_route (h.setConcurrency m) hroute]
    generalize commit _ order _ = x, commit _ order' _ = y at hcommit
    cases hcommit with
    | ok u hbanks log => exact .ok () (hbanks ▸ rfl) _
    | rejected cause hbanks log => exact .rejected cause (hbanks ▸ rfl) _
    | overflow operation s t => exact .overflow operation _ _
  · rw [settle_of_full hroute, settle_of_full (s := s.setConcurrency m) hroute]
    exact .overflow .add _ _

theorem tickIn_perm (h : s.WellFormed c) (i : Inputs) {order order' : List Nat}
    (ho : order.Perm (List.range c.banks)) (ho' : order'.Perm (List.range c.banks))
    (log : Array Event) :
    Step.Matches (fun s t => t = s.setConcurrency m) (tickIn order i ⟨s, log⟩)
      (tickIn order' i ⟨s.setConcurrency m, log⟩) := by
  by_cases hi : s.Admits i
  · rw [tickIn_of_admits hi, tickIn_of_admits (s := s.setConcurrency m) hi]
    exact settle_perm h hi ho ho' s.sequencer _
  · obtain ⟨w, cause, hw, hcheck⟩ := check_of_not_admits hi
    rw [tickIn_of_check hw hcheck, tickIn_of_check (s := s.setConcurrency m) hw hcheck]
    refine .rejected cause ?_ log
    rfl

/-! ## Runs -/

/-- The lanes of each tick are evaluated in some order, which need not be the same
one twice. -/
def InSomeOrder (tick : Inputs → Step Store Unit) : Prop :=
  ∀ i s, ∃ order : List Nat, order.Perm (List.range s.state.width) ∧
    tick i s = tickIn order i s

theorem inSomeOrder_tick : InSomeOrder tick :=
  fun i s => ⟨_, Concurrency.perm_order s.state.width s.state.config.concurrency,
    tick_apply i s.state s.log⟩

/-- The block `t` is the well-formed block `s` of the configuration `c`, but in the
mode `m`. -/
structure Twin (c : Config) (m : Concurrency) (s t : Store) : Prop where
  wellFormed : s.WellFormed c
  eq : t = s.setConcurrency m

theorem Twin.initial (hc : c.IsBuildable) (m : Concurrency) :
    Twin c m (initial c) (initial { c with concurrency := m }) :=
  ⟨wellFormed_initial hc, rfl⟩

theorem inStep_tick {tick' : Inputs → Step Store Unit} (h : InSomeOrder tick')
    (i : Inputs) :
    Step.InStep (Twin c m) (tick i) (tick' i) := by
  rintro s _ ⟨hs, rfl⟩ log
  obtain ⟨order, ho, htick⟩ := inSomeOrder_tick i ⟨s, log⟩
  obtain ⟨order', ho', htick'⟩ := h i ⟨s.setConcurrency m, log⟩
  rw [hs.width_eq] at ho
  rw [(hs.setConcurrency m).width_eq] at ho'
  have hmatches := tickIn_perm (m := m) hs i ho ho' log
  rw [← htick, ← htick'] at hmatches
  exact hmatches.imp (hs.final_tick i log) .mk

theorem inStep_resize (size : Nat) :
    Step.InStep (Twin c m) (resize size) (resize size) := by
  rintro s _ ⟨hs, rfl⟩ log
  rcases Nat.lt_or_ge s.depth size with hlt | hle
  · rw [resize_of_lt hlt, resize_of_lt (s := s.setConcurrency m) hlt]
    exact .rejected _ ⟨hs, rfl⟩ log
  · cases hr : s.sequencer.running with
    | true =>
        rw [resize_of_running hle hr,
          resize_of_running (s := s.setConcurrency m) hle hr]
        exact .rejected _ ⟨hs, rfl⟩ log
    | false =>
        rw [resize_of_stopped hle hr,
          resize_of_stopped (s := s.setConcurrency m) hle hr]
        exact .ok () ⟨hs.resize (hs.storeDepth_eq ▸ hle) hr, rfl⟩ _

theorem inStep_perform {tick' : Inputs → Step Store Unit} (h : InSomeOrder tick')
    (r : Request) :
    Step.InStep (Twin c m) (perform r) (performBy tick' r) := by
  cases r with
  | resize size => exact inStep_resize size
  | tick i => exact inStep_tick h i
  | write w => exact inStep_tick h (.ofWrite w)

end Store

end Wavefront
