import Mathlib.Data.List.Nodup
import Mathlib.Order.Bounds.Defs
import Wavefront.Proofs.Layout.Placement

/-!
# The columns of a filter

A filter that fits is laid out word by word (`Layout.layOut`). In a bank the words
of the filter stand one below the other without a gap, and `Layout.column` is how
many they are: no bank is further than one row behind the first (`column_anti`,
`column_le`), and the first bank is as long as there are rows. What stands in a
place of a bank is one word of the filter (`mem_layOut_iff`), so the places read row
by row are the filter again (`rowMajor_layOut`).

`Load.LaysOut` says all this of a load, and `load_eq_ok_iff` that a filter has such
a load exactly if it fits. `lossless_layout` adds what becomes of the others.
-/

namespace Wavefront

namespace Load

def word? (load : Load) (bank address : Nat) : Option Word :=
  (load.commands.find? fun w => w.bank = bank ∧ w.address = address).map Write.data

/-- The words of the load in the order of its rows, each of them read from the first
bank to the last. -/
def rowMajor (banks : Nat) (load : Load) : List Word :=
  (List.range load.size).flatMap fun address =>
    (List.range banks).filterMap fun bank => load.word? bank address

end Load

namespace Layout

variable {l : Layout} {words : List Word}

def layOut (l : Layout) (words : List Word) : Load :=
  ⟨words.mapIdx l.place, l.rows words.length⟩

@[simp] theorem commands_layOut (l : Layout) (words : List Word) :
    (l.layOut words).commands = words.mapIdx l.place := rfl

@[simp] theorem size_layOut (l : Layout) (words : List Word) :
    (l.layOut words).size = l.rows words.length := rfl

def column (l : Layout) (words bank : Nat) : Nat :=
  (words + (l.banks - 1 - bank)) / l.banks

/-! ## Columns -/

theorem lt_column_iff {bank : Nat} (hb : bank < l.banks) {words address : Nat} :
    address < l.column words bank ↔ address * l.banks + bank < words := by
  rw [column, Nat.lt_div_iff_mul_lt (Nat.lt_of_le_of_lt (Nat.zero_le bank) hb)]
  omega

theorem column_zero (hb : 0 < l.banks) (words : Nat) :
    l.column words 0 = l.rows words := by
  rw [column, rows, Nat.sub_zero, Nat.add_sub_assoc hb]

theorem column_anti {bank bank' : Nat} (h : bank ≤ bank') (words : Nat) :
    l.column words bank' ≤ l.column words bank := by
  refine Nat.div_le_div_right (Nat.add_le_add_left ?_ words)
  omega

theorem column_le (hb : 0 < l.banks) (words : Nat) :
    l.column words 0 ≤ l.column words (l.banks - 1) + 1 := by
  rw [column, column, Nat.sub_self, ← Nat.add_div_right (words + 0) hb]
  exact Nat.div_le_div_right (by omega)

theorem isLeast_rows (hb : 0 < l.banks) (words : Nat) :
    IsLeast {n | words ≤ l.banks * n} (l.rows words) :=
  ⟨(rows_le_iff hb).1 (Nat.le_refl _), fun _ hn => (rows_le_iff hb).2 hn⟩

/-! ## Places -/

theorem data_layOut (l : Layout) (words : List Word) :
    (l.layOut words).commands.map Write.data = words := by
  apply List.ext_getElem?
  intro w
  rw [commands_layOut, List.getElem?_map, List.getElem?_mapIdx, Option.map_map]
  exact Option.map_id'

theorem place_eq_mk_iff {bank : Nat} (hb : bank < l.banks) (w address : Nat)
    (data data' : Word) :
    l.place w data = ⟨bank, address, data'⟩ ↔
      w = address * l.banks + bank ∧ data = data' := by
  rw [← place_eq_iff hb w address data, and_assoc]
  exact Iff.of_eq (Write.mk.injEq ..)

/-- An address of a bank has one word of the filter, and none if the filter ends
before it. -/
theorem mem_layOut_iff {bank : Nat} (hb : bank < l.banks) {address : Nat}
    {data : Word} :
    ⟨bank, address, data⟩ ∈ (l.layOut words).commands ↔
      words[address * l.banks + bank]? = some data := by
  rw [commands_layOut, List.mem_mapIdx, List.getElem?_eq_some_iff]
  simp only [place_eq_mk_iff hb]
  constructor
  · rintro ⟨_, hw, rfl, hdata⟩
    exact ⟨hw, hdata⟩
  · rintro ⟨hw, hdata⟩
    exact ⟨_, hw, rfl, hdata⟩

theorem nodup_layOut (hb : 0 < l.banks) (words : List Word) :
    ((l.layOut words).commands.map fun w => (w.bank, w.address)).Nodup := by
  rw [List.nodup_iff_getElem?_ne_getElem?]
  intro v w hlt hw hsame
  rw [List.length_map, commands_layOut, List.length_mapIdx] at hw
  simp only [commands_layOut, List.getElem?_map, List.getElem?_mapIdx,
    List.getElem?_eq_getElem hw, List.getElem?_eq_getElem (Nat.lt_trans hlt hw),
    Option.map_some, Option.some.injEq, Prod.mk.injEq] at hsame
  have hwhere := (place_eq_iff (bank_place_lt hb w words[w]) v _ _).1 hsame
  rw [(place_eq_iff (bank_place_lt hb w words[w]) w _ words[w]).1 ⟨rfl, rfl⟩] at hlt
  omega

theorem bank_lt_of_mem_layOut (hb : 0 < l.banks) {w : Write}
    (hw : w ∈ (l.layOut words).commands) :
    w.bank < l.banks := by
  obtain ⟨k, -, rfl⟩ := List.mem_mapIdx.1 hw
  exact bank_place_lt hb k _

theorem address_lt_of_mem_layOut (hb : 0 < l.banks) {w : Write}
    (hw : w ∈ (l.layOut words).commands) : w.address < (l.layOut words).size := by
  obtain ⟨k, hk, rfl⟩ := List.mem_mapIdx.1 hw
  exact address_place_lt hb hk _

theorem exists_mem_layOut_iff {bank : Nat} (hb : bank < l.banks) (words : List Word)
    (address : Nat) :
    (∃ w ∈ (l.layOut words).commands, w.bank = bank ∧ w.address = address) ↔
      address < l.column words.length bank := by
  rw [lt_column_iff hb]
  constructor
  · rintro ⟨⟨_, _, data⟩, hw, rfl, rfl⟩
    exact (List.getElem?_eq_some_iff.1 ((mem_layOut_iff hb).1 hw)).1
  · intro hlt
    exact ⟨_, (mem_layOut_iff hb).2 (List.getElem?_eq_getElem hlt), rfl, rfl⟩

/-! ## Reading the places -/

theorem word?_layOut {bank : Nat} (hb : bank < l.banks) (words : List Word)
    (address : Nat) :
    (l.layOut words).word? bank address = words[address * l.banks + bank]? := by
  have hfound : ∀ {w : Write},
      ((l.layOut words).commands.find? fun w => w.bank = bank ∧ w.address = address) =
          some w →
        words[address * l.banks + bank]? = some w.data := by
    rintro ⟨_, _, data⟩ hw
    obtain ⟨rfl, rfl⟩ := by simpa using List.find?_some hw
    exact (mem_layOut_iff hb).1 (List.mem_of_find?_eq_some hw)
  rw [Load.word?]
  cases hw : (l.layOut words).commands.find?
    fun w => w.bank = bank ∧ w.address = address with
  | some w => rw [hfound hw, Option.map_some]
  | none =>
      -- A word in this place would have been found.
      cases hdata : words[address * l.banks + bank]? with
      | none => rfl
      | some data =>
          have hmem := (mem_layOut_iff hb).2 hdata
          exact absurd hmem fun hmem => by simpa using List.find?_eq_none.1 hw _ hmem

theorem filterMap_range_getElem? {α : Type} (xs : List α) (n : Nat) :
    (List.range n).filterMap (fun k => xs[k]?) = xs.take n := by
  induction n with
  | zero => rfl
  | succ n ih =>
      rw [List.range_succ, List.filterMap_append, ih, List.take_add_one]
      cases h : xs[n]? <;> simp [h]

theorem flatMap_range_getElem? {α : Type} (xs : List α) (rows width : Nat) :
    ((List.range rows).flatMap fun row =>
      (List.range width).filterMap fun column => xs[row * width + column]?) =
        xs.take (rows * width) := by
  induction rows with
  | zero => simp
  | succ rows ih =>
      have hrow := filterMap_range_getElem? (xs.drop (rows * width)) width
      simp only [List.getElem?_drop] at hrow
      rw [List.range_succ, List.flatMap_append, ih, List.flatMap_singleton, hrow,
        Nat.succ_mul, List.take_add]

theorem rowMajor_layOut (hb : 0 < l.banks) (words : List Word) :
    (l.layOut words).rowMajor l.banks = words := by
  have hrows : words.length ≤ l.rows words.length * l.banks := by
    rw [Nat.mul_comm]
    exact (rows_le_iff hb).1 (Nat.le_refl _)
  calc
    (l.layOut words).rowMajor l.banks
    _ = (List.range (l.rows words.length)).flatMap fun address =>
          (List.range l.banks).filterMap fun bank => words[address * l.banks + bank]? :=
        List.flatMap_congr fun address _ => List.filterMap_congr fun bank hbank =>
          word?_layOut (List.mem_range.1 hbank) words address
    _ = words.take (l.rows words.length * l.banks) := flatMap_range_getElem? words _ _
    _ = words := List.take_of_length_le hrows

end Layout

/-- The load has the words of the filter in their order, each in a place of its own.
These places fill every bank from the top, the banks differ by one word at most, and
there is nothing but the filter in them. -/
structure Load.LaysOut (load : Load) (l : Layout) (words : List Word) : Prop where
  data_eq : load.commands.map Write.data = words
  nodup : (load.commands.map fun w => (w.bank, w.address)).Nodup
  bank_lt : ∀ w ∈ load.commands, w.bank < l.banks
  address_lt : ∀ w ∈ load.commands, w.address < load.size
  size_le : load.size ≤ l.depth
  exists_mem_iff : ∀ bank < l.banks, ∀ address,
    (∃ w ∈ load.commands, w.bank = bank ∧ w.address = address) ↔
      address < l.column words.length bank
  column_anti : ∀ bank bank', bank ≤ bank' →
    l.column words.length bank' ≤ l.column words.length bank
  column_le : l.column words.length 0 ≤ l.column words.length (l.banks - 1) + 1
  size_eq : load.size = l.column words.length 0
  size_least : IsLeast {n | words.length ≤ l.banks * n} load.size
  rowMajor_eq : load.rowMajor l.banks = words

namespace Layout

variable {l : Layout} {words : List Word}

theorem laysOut_layOut (hb : 0 < l.banks) (hw : words.length ≤ l.banks * l.depth) :
    (l.layOut words).LaysOut l words where
  data_eq := data_layOut l words
  nodup := nodup_layOut hb words
  bank_lt _ := bank_lt_of_mem_layOut hb
  address_lt _ := address_lt_of_mem_layOut hb
  size_le := (rows_le_iff hb).2 hw
  exists_mem_iff _ hbank := exists_mem_layOut_iff hbank words
  column_anti _ _ h := column_anti h words.length
  column_le := column_le hb words.length
  size_eq := (column_zero hb words.length).symm
  size_least := isLeast_rows hb words.length
  rowMajor_eq := rowMajor_layOut hb words

theorem load_of_limit_le (hb : l.banks ≠ 0) (hc : Checked.limit ≤ l.banks * l.depth)
    (words : List Word) : l.load words = .error (.overflow .mul) := by
  rw [load, if_neg hb, capacity, Checked.mul_of_le hc, error_bind]

/-- The four ways in which a filter can be taken. -/
theorem load_eq (l : Layout) (words : List Word) :
    l.load words =
      if l.banks = 0 then .error (.rejected (.invalidConfig .loadIntoNoBanks))
      else if Checked.limit ≤ l.banks * l.depth then .error (.overflow .mul)
      else if l.banks * l.depth < words.length then
        .error (.rejected (.filterTooLarge words.length (l.banks * l.depth)))
      else .ok (l.layOut words) := by
  split
  next hb => exact load_of_banks_eq_zero hb words
  next hb =>
    split
    next hc => exact load_of_limit_le hb hc words
    next hc =>
      split
      next hw => exact load_of_lt hb (Nat.not_le.1 hc) hw
      next hw => exact load_of_le hb (Nat.not_le.1 hc) (Nat.not_lt.1 hw)

theorem load_eq_ok_iff {load : Load} :
    l.load words = .ok load ↔
      (0 < l.banks ∧ l.banks * l.depth < Checked.limit ∧
        words.length ≤ l.banks * l.depth) ∧
        load = l.layOut words := by
  rw [load_eq]
  split_ifs with hb hc hw
  · simp [hb]
  · simp [Nat.not_lt.2 hc]
  · simp [Nat.not_le.2 hw]
  · simp [Nat.pos_of_ne_zero hb, Nat.not_le.1 hc, Nat.not_lt.1 hw, eq_comm]

theorem laysOut_of_load {load : Load} (h : l.load words = .ok load) :
    load.LaysOut l words := by
  obtain ⟨⟨hb, -, hw⟩, rfl⟩ := load_eq_ok_iff.1 h
  exact laysOut_layOut hb hw

/-- Whatever the geometry, a filter is laid out without loss if it fits. Missing
banks are found first, then banks that hold more words than can be counted, and then
words that find no room. -/
theorem lossless_layout (l : Layout) (words : List Word) :
    (l.load words = .error (.rejected (.invalidConfig .loadIntoNoBanks)) ↔
      l.banks = 0) ∧
    (l.load words = .error (.overflow .mul) ↔
      0 < l.banks ∧ Checked.limit ≤ l.banks * l.depth) ∧
    (l.load words =
      .error (.rejected (.filterTooLarge words.length (l.banks * l.depth))) ↔
      0 < l.banks ∧ l.banks * l.depth < Checked.limit ∧
        l.banks * l.depth < words.length) ∧
    ((∃ load, l.load words = .ok load ∧ load.LaysOut l words) ↔
      0 < l.banks ∧ l.banks * l.depth < Checked.limit ∧
        words.length ≤ l.banks * l.depth) := by
  have hload := load_eq l words
  split_ifs at hload with hb hc hw
  · simp [hload, hb]
  · simp [hload, hb, hc, Nat.pos_of_ne_zero hb, Nat.not_lt.2 hc]
  · simp [hload, hb, hc, hw, Nat.pos_of_ne_zero hb, Nat.not_le.1 hc]
  · have hpos := Nat.pos_of_ne_zero hb
    have hlays := laysOut_layOut hpos (Nat.not_lt.1 hw)
    simp [hload, hb, hc, hw, hpos, Nat.not_le.1 hc, Nat.not_lt.1 hw, hlays]

/-- Five words over three banks: the last bank is one word short. -/
theorem last_bank_short :
    ∃ load, (⟨3, 4⟩ : Layout).load [10, 11, 12, 13, 14] = .ok load ∧ load.size = 2 ∧
      load.commands = [⟨0, 0, 10⟩, ⟨1, 0, 11⟩, ⟨2, 0, 12⟩, ⟨0, 1, 13⟩, ⟨1, 1, 14⟩] ∧
      load.rowMajor 3 = [10, 11, 12, 13, 14] := by
  obtain ⟨-, -, -, hfits⟩ := lossless_layout ⟨3, 4⟩ [10, 11, 12, 13, 14]
  obtain ⟨load, hload, hlays⟩ := hfits.2 (by decide)
  obtain rfl := (load_eq_ok_iff.1 hload).2
  exact ⟨_, hload, rfl, rfl, hlays.rowMajor_eq⟩

end Layout

end Wavefront
