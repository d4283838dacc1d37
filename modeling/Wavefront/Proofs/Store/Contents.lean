import Wavefront.Proofs.Store.Transition

/-!
# What the banks hold and what the lanes carry

`Store.word` and `Store.output` are the two views of a block through which its ticks
are described. A tick puts the word of each lane's address on that lane, as it was
before the tick, and stores the word of its command (`output_next`, `word_next`); so
a word that is written and read in the same tick is seen one cycle later.
-/

namespace Wavefront

namespace Store

def word (s : Store) (lane address : Nat) : Word :=
  (s.banks[lane]?.map fun b => b.word address).getD 0

def output (s : Store) (lane : Nat) : Word := (s.banks[lane]?.map Bank.output).getD 0

variable {c : Config} {s : Store}

theorem word_of_bank {lane : Nat} {b : Bank} (hb : s.banks[lane]? = some b)
    (address : Nat) :
    s.word lane address = b.word address := by
  simp [word, hb]

theorem output_of_bank {lane : Nat} {b : Bank} (hb : s.banks[lane]? = some b) :
    s.output lane = b.output := by
  simp [output, hb]

theorem word_initial (c : Config) (lane address : Nat) :
    (initial c).word lane address = 0 := by
  cases hb : (initial c).banks[lane]? with
  | none => simp [word, hb]
  | some b => rw [word_of_bank hb, getElem?_banks_initial c hb, Bank.word_blank]

theorem output_initial (c : Config) (lane : Nat) : (initial c).output lane = 0 := by
  cases hb : (initial c).banks[lane]? with
  | none => simp [output, hb]
  | some b =>
      rw [output_of_bank hb, getElem?_banks_initial c hb]
      rfl

theorem peek_eq (h : s.WellFormed c) {lane address : Nat} (hl : lane < c.banks)
    (ha : address < c.depth) : s.peek lane address = .ok (s.word lane address) := by
  obtain ⟨b, hb⟩ := h.bank_of_lane hl
  have hbank : s.bank lane = .ok b := by
    rw [bank, hb]
  rw [peek, hbank, ok_bind, word_of_bank hb]
  exact Bank.peek_of_lt (h.depth_eq hb ▸ ha)

theorem outputs_eq (h : s.WellFormed c) :
    s.outputs = (List.range c.banks).map s.output := by
  apply List.ext_getElem?
  intro lane
  rw [outputs, List.getElem?_map, List.getElem?_map, Array.getElem?_toList]
  rcases Nat.lt_or_ge lane c.banks with hl | hl
  · obtain ⟨b, hb⟩ := h.bank_of_lane hl
    rw [hb, List.getElem?_range hl, Option.map_some, Option.map_some, output_of_bank hb]
  · have hsize : s.banks.size ≤ lane := by
      rw [← h.width_eq] at hl
      exact hl
    rw [Array.getElem?_eq_none hsize, List.getElem?_eq_none (by simpa using hl)]
    rfl

theorem output_next (i : Inputs) (s : Store) (lane : Nat) :
    (s.next i).output lane =
      (s.readAddress lane).elim (s.output lane) (s.word lane) := by
  rw [output, getElem?_banks_next]
  cases hb : s.banks[lane]? with
  | none =>
      cases s.readAddress lane <;> simp [output, word, hb]
  | some b =>
      show (b.next (s.drive i lane)).output = _
      rw [Bank.output_next]
      show (s.readAddress lane).elim b.output b.word = _
      rw [output_of_bank hb]
      cases s.readAddress lane with
      | none => rfl
      | some address => exact (word_of_bank hb address).symm

theorem word_next (h : s.WellFormed c) {i : Inputs} (hi : s.Admits i)
    (lane address : Nat) :
    (s.next i).word lane address =
      i.write.elim (s.word lane address) fun w =>
        if w.bank = lane ∧ w.address = address then w.data
        else s.word lane address := by
  rcases Nat.lt_or_ge lane s.banks.size with hl | hl
  · have hb : s.banks[lane]? = some s.banks[lane] := Array.getElem?_eq_getElem hl
    have htakes := h.takes_drive hi hb
    rw [word_of_bank hb, word, getElem?_banks_next, hb]
    show (s.banks[lane].next (s.drive i lane)).word address = _
    rw [Bank.word_next htakes]
    cases hw : i.write with
    | none =>
        rw [write_drive_of_none hw]
        rfl
    | some w =>
        by_cases hlane : w.bank = lane
        · subst hlane
          rw [write_drive_of_eq hw]
          simp [eq_comm]
        · rw [write_drive_of_ne hw s hlane]
          simp [hlane]
  · have hnone : s.banks[lane]? = none := Array.getElem?_eq_none hl
    rw [word, getElem?_banks_next, hnone]
    cases hw : i.write with
    | none => simp [word, hnone]
    | some w =>
        have hbank : w.bank < s.banks.size := (hi w hw).1
        have hne : ¬ (w.bank = lane ∧ w.address = address) := by
          omega
        simp [word, hnone, hne]

end Store

end Wavefront
