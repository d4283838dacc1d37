import Wavefront.Proofs.Store.Contents
import Wavefront.Proofs.Store.Counters

/-!
# Runs of admitted ticks

As long as the block admits its inputs and its counters have room, ticking it is
applying `Store.next` time after time: `Store.follow` (`after_tick_of_accepted`).
What a bank holds afterwards is what was written there last (`word_follow`), and
what was there before if nothing was. The sequencer goes round its cycle if it is
moved on in every tick (`position_follow`), and stays where it is if it is never
touched.
-/

namespace Wavefront

theorem mem_head?_of_take {α : Type} {l : List α} {n : Nat} {a : α}
    (h : a ∈ (l.take n).head?) :
    a ∈ l.head? := by
  rw [List.head?_take] at h
  split at h
  · exact absurd h (by simp)
  · exact h

namespace Store

variable {c : Config} {s : Store}

def follow : List Inputs → Store → Store
  | [], s => s
  | i :: is, s => follow is (s.next i)

@[simp] theorem follow_nil (s : Store) : s.follow [] = s := rfl

theorem follow_cons (i : Inputs) (is : List Inputs) (s : Store) :
    s.follow (i :: is) = (s.next i).follow is := rfl

theorem follow_append (is js : List Inputs) (s : Store) :
    s.follow (is ++ js) = (s.follow is).follow js := by
  induction is generalizing s with
  | nil => rfl
  | cons i is ih => rw [List.cons_append, follow_cons, follow_cons, ih]

@[simp] theorem admits_next (i j : Inputs) (s : Store) :
    (s.next i).Admits j ↔ s.Admits j := by
  simp [Admits, Accepts, depth]

theorem WellFormed.follow (h : s.WellFormed c) (is : List Inputs) :
    (s.follow is).WellFormed c := by
  induction is generalizing s with
  | nil => exact h
  | cons i is ih => exact ih (h.next i)

theorem CountedBy.follow {n : Nat} (h : s.CountedBy n) (is : List Inputs) :
    (s.follow is).CountedBy (n + is.length) := by
  induction is generalizing s n with
  | nil => exact h
  | cons i is ih =>
      rw [follow_cons, List.length_cons, Nat.add_comm is.length 1, ← Nat.add_assoc]
      exact ih (h.next i)

theorem size_follow (is : List Inputs) (s : Store) : (s.follow is).size = s.size := by
  induction is generalizing s with
  | nil => rfl
  | cons i is ih => rw [follow_cons, ih, size_next]

theorem accepted_next (i : Inputs) (s : Store) :
    (s.next i).accepted = s.accepted + i.write.toList.length := rfl

theorem accepted_follow (is : List Inputs) (s : Store) :
    (s.follow is).accepted = s.accepted + (is.filterMap Inputs.write).length := by
  induction is generalizing s with
  | nil => rfl
  | cons i is ih =>
      rw [follow_cons, ih, accepted_next]
      cases hw : i.write with
      | none =>
          rw [List.filterMap_cons_none hw, Option.toList_none, List.length_nil,
            Nat.add_zero]
      | some w =>
          rw [List.filterMap_cons_some hw, List.length_cons, Option.toList_some,
            List.length_singleton, Nat.add_assoc, Nat.add_comm 1]

theorem WellFormed.position_follow (h : s.WellFormed c) (hpos : 0 < s.size)
    {is : List Inputs} (hreset : ∀ i ∈ is, i.reset = false)
    (hmoving : ∀ i ∈ is.head?, (i.start || s.sequencer.running) = true) :
    (s.follow is).sequencer.position = (s.sequencer.position + is.length) % s.size := by
  induction is generalizing s with
  | nil => exact (Nat.mod_eq_of_lt (h.within.position_lt hpos)).symm
  | cons i is ih =>
      obtain ⟨hi, htail⟩ := List.forall_mem_cons.1 hreset
      have hnext := h.sequencer_next_of_moving hi (hmoving i rfl)
      rw [if_neg (Nat.ne_of_gt hpos)] at hnext
      have hrunning : ∀ j ∈ is.head?,
          (j.start || (s.next i).sequencer.running) = true := by
        intro j _
        rw [hnext, Bool.or_true]
      rw [follow_cons, ih (h.next i) hpos htail hrunning, hnext, size_next,
        Nat.mod_add_mod, List.length_cons, Nat.add_assoc, Nat.add_comm 1]

theorem after_tick_of_accepted (h : s.WellFormed c) {is : List Inputs}
    {log : Array Event} (ha : Step.Accepted tick is ⟨s, log⟩) :
    (∀ i ∈ is, s.Admits i) ∧ (Step.after tick is ⟨s, log⟩).state = s.follow is := by
  induction is generalizing s log with
  | nil => exact ⟨by simp, rfl⟩
  | cons i is ih =>
      obtain ⟨hok, htail⟩ := (Step.accepted_cons tick i is ⟨s, log⟩).1 ha
      obtain ⟨hi, htick⟩ := tick_of_isOk h hok
      rw [htick] at htail
      obtain ⟨hadmits, hafter⟩ := ih (h.next i) htail
      refine ⟨List.forall_mem_cons.2
        ⟨hi, fun j hj => (admits_next i j s).1 (hadmits j hj)⟩, ?_⟩
      rw [Step.after_cons, htick]
      exact hafter

theorem accepted_tick_of_lt (h : s.WellFormed c) {is : List Inputs}
    (his : ∀ i ∈ is, s.Admits i) {n : Nat} (hcount : s.CountedBy n)
    (hn : n + is.length < Checked.limit) (log : Array Event) :
    Step.Accepted tick is ⟨s, log⟩ := by
  induction is generalizing s n log with
  | nil => exact Step.accepted_nil tick ⟨s, log⟩
  | cons i is ih =>
      obtain ⟨hi, htail⟩ := List.forall_mem_cons.1 his
      rw [List.length_cons] at hn
      have htick := tick_of_hasRoom h hi (hcount.hasRoom (by omega)) log
      rw [Step.accepted_cons, htick]
      exact ⟨rfl,
        ih (h.next i) (fun j hj => (admits_next i j s).2 (htail j hj)) (hcount.next i)
        (by omega) _⟩

theorem outcomes_tick_ne_rejected (h : s.WellFormed c) {is : List Inputs}
    (his : ∀ i ∈ is, ∀ w, i.write = some w → w.bank < c.banks ∧ w.address < c.depth)
    (log : Array Event) (cause : Rejection) :
    ∀ o ∈ Step.outcomes tick is ⟨s, log⟩, o ≠ .error (.rejected cause) := by
  induction is generalizing s log with
  | nil => simp
  | cons i is ih =>
      obtain ⟨hi, htail⟩ := List.forall_mem_cons.1 his
      rw [Step.outcomes_cons]
      refine List.forall_mem_cons.2 ⟨?_, ih (h.final_tick i log) htail _⟩
      rcases tick_outcome h ((admits_iff h i).2 hi) log with
        hok | ⟨-, banks, router, log', herr, -⟩
      · rw [hok]
        exact fun hrejected => by simp at hrejected
      · rw [herr]
        exact fun hrejected => by simp at hrejected

theorem sequencer_follow_of_stopped (hs : s.sequencer.running = false)
    {is : List Inputs} (his : ∀ i ∈ is, i.start = false ∧ i.reset = false) :
    (s.follow is).sequencer = s.sequencer := by
  induction is generalizing s with
  | nil => rfl
  | cons i is ih =>
      obtain ⟨⟨hstart, hreset⟩, htail⟩ := List.forall_mem_cons.1 his
      have hnext : (s.next i).sequencer = s.sequencer := by
        rw [sequencer_next, Sequencer.advance_of_idle hreset hstart hs]
      rw [follow_cons, ih (hnext ▸ hs) htail, hnext]

/-- The word that the inputs write last at an address of a bank, if they write any
there. -/
def lastWrite (bank address : Nat) : List Inputs → Option Word
  | [] => none
  | i :: is =>
      (lastWrite bank address is).or
        ((i.write.filter fun w => w.bank = bank ∧ w.address = address).map Write.data)

@[simp] theorem lastWrite_nil (bank address : Nat) :
    lastWrite bank address [] = none :=
  rfl

theorem lastWrite_cons (bank address : Nat) (i : Inputs) (is : List Inputs) :
    lastWrite bank address (i :: is) =
      (lastWrite bank address is).or
        ((i.write.filter fun w => w.bank = bank ∧ w.address = address).map
          Write.data) := rfl

theorem lastWrite_append (bank address : Nat) (is js : List Inputs) :
    lastWrite bank address (is ++ js) =
      (lastWrite bank address js).or (lastWrite bank address is) := by
  induction is with
  | nil => rw [List.nil_append, lastWrite_nil, Option.or_none]
  | cons i is ih =>
      rw [List.cons_append, lastWrite_cons, lastWrite_cons, ih, Option.or_assoc]

theorem word_follow (h : s.WellFormed c) {is : List Inputs} (his : ∀ i ∈ is, s.Admits i)
    (bank address : Nat) :
    (s.follow is).word bank address =
      (lastWrite bank address is).getD (s.word bank address) := by
  induction is generalizing s with
  | nil => rfl
  | cons i is ih =>
      obtain ⟨hi, htail⟩ := List.forall_mem_cons.1 his
      have hadmits : ∀ j ∈ is, (s.next i).Admits j := by
        intro j hj
        rw [admits_next]
        exact htail j hj
      rw [follow_cons, ih (h.next i) hadmits, word_next h hi, lastWrite_cons]
      cases lastWrite bank address is with
      | some data => rfl
      | none =>
          -- Nothing is written there later, so the command of the first tick
          -- decides.
          cases i.write with
          | none => rfl
          | some w =>
              by_cases hw : w.bank = bank ∧ w.address = address
              · simp [Option.filter, hw]
              · simp [Option.filter, hw]

end Store

end Wavefront
