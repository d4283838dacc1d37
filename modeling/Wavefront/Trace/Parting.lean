import Wavefront.Trace.Basic

/-!
# Where two traces part

Two traces are compared record by record. They part at the first place where their
records differ, or where one of them has a record and the other has none; the record
that the first trace has there counts, and that of the second only where the first
has ended (`partsAt?_eq_find`). Traces that never part are equal
(`parting_eq_none_iff`, `partsAt?_eq_none_iff`).
-/

namespace Wavefront

namespace Trace

/-- The record at which two lists part. -/
def parting : List Record → List Record → Option Record
  | [], [] => none
  | [], q :: _ => some q
  | r :: _, [] => some r
  | r :: rs, q :: qs => if r = q then parting rs qs else some r

@[simp] theorem parting_self (rs : List Record) : parting rs rs = none := by
  induction rs with
  | nil => rfl
  | cons r rs ih => simp [parting, ih]

theorem parting_eq_none_iff (rs qs : List Record) : parting rs qs = none ↔ rs = qs := by
  induction rs generalizing qs with
  | nil => cases qs <;> simp [parting]
  | cons r rs ih =>
      cases qs with
      | nil => simp [parting]
      | cons q qs =>
          by_cases h : r = q
          · simp [parting, h, ih]
          · simp [parting, h]

theorem parting_eq_find (rs qs : List Record) :
    parting rs qs =
      (((rs.zip qs).find? fun p => p.1 ≠ p.2).map Prod.fst).or
        (rs[min rs.length qs.length]?.or qs[min rs.length qs.length]?) := by
  induction rs generalizing qs with
  | nil => cases qs <;> rfl
  | cons r rs ih =>
      cases qs with
      | nil => rfl
      | cons q qs =>
          rw [parting, List.zip_cons_cons, List.length_cons, List.length_cons,
            Nat.succ_min_succ, List.getElem?_cons_succ, List.getElem?_cons_succ]
          by_cases h : r = q
          · rw [if_pos h, List.find?_cons_of_neg (by simp [h]), ih]
          · rw [if_neg h, List.find?_cons_of_pos (by simp [h])]
            rfl

/-- The number of the cycle at which a trace parts from a reference. -/
def partsAt? (t reference : Trace) : Option Nat :=
  (parting t.toList reference.toList).map Record.cycle

theorem partsAt?_eq_find (t reference : Trace) :
    t.partsAt? reference =
      (((t.toList.zip reference.toList).find? fun p => p.1 ≠ p.2).map
        fun p => p.1.cycle).or
        (let common := min t.toList.length reference.toList.length
        (t.toList[common]?.or reference.toList[common]?).map Record.cycle) := by
  rw [partsAt?, parting_eq_find, Option.map_or, Option.map_map]
  rfl

theorem partsAt?_eq_none_iff (t reference : Trace) :
    t.partsAt? reference = none ↔ t = reference := by
  rw [partsAt?, Option.map_eq_none_iff, parting_eq_none_iff]
  exact ⟨eq_of_toList_eq, fun h => h ▸ rfl⟩

end Trace

end Wavefront
