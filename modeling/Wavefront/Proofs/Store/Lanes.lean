import Wavefront.Proofs.Bank.Outcome
import Wavefront.Proofs.Requests
import Wavefront.Store.Tick

/-!
# Lanes tick in any order

The lanes of a tick touch one bank each. So the banks after a tick are a function of
the banks before it and of the drives, `Store.ticked`, whatever order the lanes are
evaluated in: `commit_outcome` says so for every list of lanes without repetitions.
It also says what stops a tick half way. No lane is refused when its bank takes its
drive, and what remains is a bank whose counters have reached the end of their
range.
-/

namespace Wavefront

namespace Store

/-- The banks after the lanes of `order` have ticked, each with its own drive. -/
def ticked (d : Nat → Drive) (order : List Nat) (banks : Array Bank) : Array Bank :=
  banks.mapIdx fun i b => if i ∈ order then b.next (d i) else b

theorem getElem?_ticked (d : Nat → Drive) (order : List Nat) (banks : Array Bank)
    (i : Nat) :
    (ticked d order banks)[i]? =
      banks[i]?.map fun b => if i ∈ order then b.next (d i) else b := by
  simp [ticked]

@[simp] theorem ticked_nil (d : Nat → Drive) (banks : Array Bank) :
    ticked d [] banks = banks := by
  apply Array.ext_getElem?
  intro i
  simp [getElem?_ticked]

/-- A lane that has ticked and does not tick again may as well be counted among the
lanes to come. -/
theorem ticked_set {d : Nat → Drive} {order : List Nat} {banks : Array Bank} {i : Nat}
    {b : Bank} (hb : banks[i]? = some b) (h : i ∉ order) :
    ticked d order (banks.setIfInBounds i (b.next (d i))) =
      ticked d (i :: order) banks := by
  apply Array.ext_getElem?
  intro j
  rw [getElem?_ticked, getElem?_ticked, Array.getElem?_setIfInBounds]
  by_cases hj : i = j
  · subst hj
    obtain ⟨hi, rfl⟩ := Array.getElem?_eq_some_iff.1 hb
    simp [hi, h]
  · simp [hj, Ne.symm hj]

/-- The banks have kept their number, and each of them its index and its depth. -/
structure BanksAlike (banks banks' : Array Bank) : Prop where
  size_eq : banks'.size = banks.size
  alike : ∀ {i : Nat} {b' : Bank}, banks'[i]? = some b' →
    ∃ b, banks[i]? = some b ∧ b.Alike b'

namespace BanksAlike

theorem refl (banks : Array Bank) : BanksAlike banks banks :=
  ⟨rfl, fun h => ⟨_, h, .refl _⟩⟩

theorem trans {banks banks' banks'' : Array Bank} (h : BanksAlike banks banks')
    (h' : BanksAlike banks' banks'') : BanksAlike banks banks'' := by
  refine ⟨h'.size_eq.trans h.size_eq, ?_⟩
  intro i b'' hb''
  obtain ⟨b', hb', halike'⟩ := h'.alike hb''
  obtain ⟨b, hb, halike⟩ := h.alike hb'
  exact ⟨b, hb, halike.trans halike'⟩

theorem set {banks : Array Bank} {i : Nat} {b b' : Bank} (hb : banks[i]? = some b)
    (h : b.Alike b') : BanksAlike banks (banks.setIfInBounds i b') := by
  refine ⟨by simp, ?_⟩
  intro j c hc
  rw [Array.getElem?_setIfInBounds] at hc
  by_cases hj : i = j
  · subst hj
    have hi : i < banks.size := (Array.getElem?_eq_some_iff.1 hb).1
    simp only [hi, if_true, Option.some.injEq] at hc
    exact ⟨b, hb, hc ▸ h⟩
  · rw [if_neg hj] at hc
    exact ⟨c, hc, .refl c⟩

theorem takes {banks banks' : Array Bank} (h : BanksAlike banks banks')
    {d : Nat → Drive} (ht : ∀ {i : Nat} {b : Bank}, banks[i]? = some b → b.Takes (d i))
    {i : Nat} {b : Bank} (hb : banks'[i]? = some b) : b.Takes (d i) := by
  obtain ⟨b₀, hb₀, halike⟩ := h.alike hb
  exact halike.takes (ht hb₀)

end BanksAlike

theorem within_takeBank {α : Type} {banks : Array Bank} {i : Nat} {b : Bank}
    (hb : banks[i]? = some b) (x : Step Bank α) (log : Array Event) :
    Step.within (takeBank i) x ⟨banks, log⟩ =
      match x ⟨b, log⟩ with
      | .ok a t => .ok a ⟨banks.setIfInBounds i t.state, t.log⟩
      | .error e t => .error e ⟨banks.setIfInBounds i t.state, t.log⟩ := by
  obtain ⟨hi, rfl⟩ := Array.getElem?_eq_some_iff.1 hb
  rw [Step.within_apply, takeBank_of_lt hi]
  simp only [Array.setIfInBounds, hi, dif_pos]
  cases x ⟨banks[i], log⟩ <;> rfl

variable {drives : Array Drive} {d : Nat → Drive}

theorem commit_cons {i : Nat} {b : Bank} {banks : Array Bank} (hb : banks[i]? = some b)
    (hd : drives[i]? = some (d i)) (order : List Nat) (log : Array Event) :
    commit drives (i :: order) ⟨banks, log⟩ =
      match Bank.tick (d i) ⟨b, log⟩ with
      | .ok _ t => commit drives order ⟨banks.setIfInBounds i t.state, t.log⟩
      | .error e t => .error e ⟨banks.setIfInBounds i t.state, t.log⟩ := by
  have hcons : commit drives (i :: order) =
      (discard (Step.within (takeBank i) (Bank.tick (d i))) :
        Step (Array Bank) Unit) >>= fun _ => commit drives order := by
    rw [commit]
    simp only [List.forM_eq_forM, List.forM_cons, hd]
    rfl
  rw [hcons, Step.bind_apply, Step.discard_apply, within_takeBank hb]
  cases Bank.tick (d i) ⟨b, log⟩ <;> rfl

/-- The lanes of an order without repetitions tick one after the other. Each of them
is carried out, or one of them finds no room in the counters of its bank and ends
the tick there. -/
theorem commit_outcome {order : List Nat} (hnd : order.Nodup) {banks : Array Bank}
    (hlt : ∀ i ∈ order, i < banks.size) (hd : ∀ i ∈ order, drives[i]? = some (d i))
    (ht : ∀ {i : Nat} {b : Bank}, banks[i]? = some b → b.Takes (d i))
    (log : Array Event) :
    commit drives order ⟨banks, log⟩ = .ok () ⟨ticked d order banks, log⟩ ∨
      (∃ i ∈ order, ∃ b, banks[i]? = some b ∧ ¬ b.HasRoom) ∧
        ∃ banks',
          commit drives order ⟨banks, log⟩ = .error (.overflow .add) ⟨banks', log⟩ ∧
            BanksAlike banks banks' := by
  induction order generalizing banks with
  | nil =>
      left
      rw [ticked_nil]
      rfl
  | cons i order ih =>
      obtain ⟨hi, hnd⟩ := List.nodup_cons.1 hnd
      have hlti : i < banks.size := hlt i List.mem_cons_self
      have hb : banks[i]? = some banks[i] := Array.getElem?_eq_getElem hlti
      rw [commit_cons hb (hd i List.mem_cons_self)]
      rcases Bank.tick_outcome (ht hb) log with hok | ⟨hfull, b', herr, halike⟩
      · -- The banks the remaining lanes find differ from the first ones at lane `i` only.
        have halike : BanksAlike banks (banks.setIfInBounds i (banks[i].next (d i))) :=
          .set hb (.next (d i) banks[i])
        have hsize : ∀ j ∈ order,
            j < (banks.setIfInBounds i (banks[i].next (d i))).size := by
          intro j hj
          rw [halike.size_eq]
          exact hlt j (List.mem_cons_of_mem i hj)
        rw [hok, ← ticked_set hb hi]
        rcases ih hnd hsize (fun j hj => hd j (List.mem_cons_of_mem i hj))
          (halike.takes ht) with
          h | ⟨⟨j, hj, b, hbj, hfull⟩, banks', h, halike'⟩
        · exact .inl h
        · refine .inr ⟨⟨j, List.mem_cons_of_mem i hj, b, ?_, hfull⟩, banks', h,
            halike.trans halike'⟩
          have hij : i ≠ j := fun hij => hi (hij ▸ hj)
          rwa [Array.getElem?_setIfInBounds, if_neg hij] at hbj
      · refine .inr ⟨⟨i, List.mem_cons_self, banks[i], hb, hfull⟩,
          banks.setIfInBounds i b', ?_, .set hb halike⟩
        rw [herr]

end Store

end Wavefront
