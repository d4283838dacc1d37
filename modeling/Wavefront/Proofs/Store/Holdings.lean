import Mathlib.Data.List.Nodup
import Wavefront.Proofs.Store.Follow

/-!
# What commands leave behind

Of what a tick does to a bank, its cells and the counts of its writes and of its
addresses in use are a matter of the write port alone: `Bank.Stock`. So what the
commands of a block leave behind, `Store.Holdings`, can be followed without the
stream that goes on at the same time. A tick hands its command, if it has one, to
the holdings (`holdings_next`), and a run hands them all of its commands in order
(`holdings_follow`).

Commands for different places may change places (`Holdings.put_comm`). So commands
no two of which have the same place leave the same behind in every order, however
they are spread over the ticks (`holdings_follow_perm`).
-/

namespace Wavefront

namespace Bank

/-- The cells of a bank, and the counts of its writes and of its addresses in
use. -/
@[ext] structure Stock where
  cells : Array (Option Word)
  writes : Nat
  active : Nat

def Stock.put (w : PortWrite) (k : Stock) : Stock where
  cells := k.cells.setIfInBounds w.address (some w.data)
  writes := k.writes + 1
  active := if k.cells[w.address]?.join.isSome then k.active else k.active + 1

def stock (b : Bank) : Stock := ⟨b.cells, b.usage.writes, b.usage.active⟩

theorem stock_next (d : Drive) (b : Bank) :
    (b.next d).stock = d.write.elim b.stock fun w => b.stock.put w := by
  obtain ⟨read, write⟩ := d
  cases read <;> cases write <;> rfl

theorem Stock.active_put_put {v w : PortWrite} (h : v.address ≠ w.address) (k : Stock) :
    ((k.put v).put w).active =
      k.active + (if k.cells[v.address]?.join.isSome then 0 else 1) +
        if k.cells[w.address]?.join.isSome then 0 else 1 := by
  have hcell : (k.put v).cells[w.address]? = k.cells[w.address]? :=
    Array.getElem?_setIfInBounds_ne h
  rw [put, hcell, put]
  split <;> split <;> rfl

theorem Stock.put_comm {v w : PortWrite} (h : v.address ≠ w.address) (k : Stock) :
    (k.put v).put w = (k.put w).put v := by
  have hactive : ((k.put v).put w).active = ((k.put w).put v).active := by
    rw [active_put_put h, active_put_put h.symm, Nat.add_right_comm]
  exact Stock.ext (Array.setIfInBounds_comm _ _ h) rfl hactive

end Bank

namespace Store

/-- The stock of every bank, and the number of commands. -/
@[ext] structure Holdings where
  stock : Nat → Option Bank.Stock
  accepted : Nat

def place (w : Write) : Nat × Nat := (w.bank, w.address)

namespace Holdings

def put (m : Holdings) (w : Write) : Holdings where
  stock lane :=
    if w.bank = lane then (m.stock lane).map (Bank.Stock.put ⟨w.address, w.data⟩)
      else m.stock lane
  accepted := m.accepted + 1

theorem stock_put_of_eq (m : Holdings) {w : Write} {lane : Nat} (h : w.bank = lane) :
    (m.put w).stock lane =
      (m.stock lane).map (Bank.Stock.put ⟨w.address, w.data⟩) := if_pos h

theorem stock_put_of_ne (m : Holdings) {w : Write} {lane : Nat} (h : w.bank ≠ lane) :
    (m.put w).stock lane = m.stock lane := if_neg h

theorem put_comm {v w : Write} (h : place v ≠ place w) (m : Holdings) :
    (m.put v).put w = (m.put w).put v := by
  refine Holdings.ext (funext fun lane => ?_) rfl
  by_cases hv : v.bank = lane
  · by_cases hw : w.bank = lane
    · -- Both commands are for this bank, so it is their addresses that differ.
      have haddress : v.address ≠ w.address :=
        fun ha => h (Prod.ext (hv.trans hw.symm) ha)
      rw [stock_put_of_eq _ hw, stock_put_of_eq _ hv, stock_put_of_eq _ hv,
        stock_put_of_eq _ hw, Option.map_map, Option.map_map]
      exact congrFun (congrArg Option.map
        (funext fun k => Bank.Stock.put_comm haddress k)) _
    · rw [stock_put_of_ne _ hw, stock_put_of_eq _ hv, stock_put_of_eq _ hv,
        stock_put_of_ne _ hw]
  · by_cases hw : w.bank = lane
    · rw [stock_put_of_eq _ hw, stock_put_of_ne _ hv, stock_put_of_ne _ hv,
        stock_put_of_eq _ hw]
    · rw [stock_put_of_ne _ hw, stock_put_of_ne _ hv, stock_put_of_ne _ hv,
        stock_put_of_ne _ hw]

end Holdings

def holdings (s : Store) : Holdings :=
  ⟨fun lane => s.banks[lane]?.map Bank.stock, s.accepted⟩

theorem stock_next (i : Inputs) (s : Store) (lane : Nat) :
    (s.next i).holdings.stock lane =
      s.banks[lane]?.map
        fun b => (s.drive i lane).write.elim b.stock fun w => b.stock.put w := by
  show (s.next i).banks[lane]?.map Bank.stock = _
  rw [getElem?_banks_next, Option.map_map]
  exact congrFun (congrArg Option.map (funext fun b => Bank.stock_next _ b)) _

theorem holdings_next (i : Inputs) (s : Store) :
    (s.next i).holdings = i.write.elim s.holdings s.holdings.put := by
  cases hw : i.write with
  | none =>
      refine Holdings.ext (funext fun lane => ?_) ?_
      · rw [stock_next, write_drive_of_none hw]
        rfl
      · show s.accepted + i.write.toList.length = s.accepted
        rw [hw]
        rfl
  | some w =>
      refine Holdings.ext (funext fun lane => ?_) ?_
      · rw [stock_next, Option.elim_some]
        by_cases hlane : w.bank = lane
        · subst hlane
          rw [write_drive_of_eq hw, Holdings.stock_put_of_eq _ rfl]
          show _ = (s.banks[w.bank]?.map Bank.stock).map _
          rw [Option.map_map]
          rfl
        · rw [write_drive_of_ne hw s hlane, Holdings.stock_put_of_ne _ hlane]
          rfl
      · show s.accepted + i.write.toList.length = s.accepted + 1
        rw [hw]
        rfl

theorem holdings_follow (is : List Inputs) (s : Store) :
    (s.follow is).holdings =
      (is.filterMap Inputs.write).foldl Holdings.put s.holdings := by
  induction is generalizing s with
  | nil => rfl
  | cons i is ih =>
      rw [follow_cons, ih, holdings_next]
      cases hw : i.write with
      | none => rw [List.filterMap_cons_none hw, Option.elim_none]
      | some w => rw [List.filterMap_cons_some hw, Option.elim_some, List.foldl_cons]

/-- Commands for places of their own leave the same behind in every order. -/
theorem holdings_follow_perm {is js : List Inputs}
    (hperm : (is.filterMap Inputs.write).Perm (js.filterMap Inputs.write))
    (hplace : ((is.filterMap Inputs.write).map place).Nodup) (s : Store) :
    (s.follow is).holdings = (s.follow js).holdings := by
  rw [holdings_follow, holdings_follow]
  refine hperm.foldl_eq' (fun v hv w hw m => ?_) s.holdings
  by_cases hsame : place v = place w
  · rw [List.inj_on_of_nodup_map hplace hv hw hsame]
  · exact Holdings.put_comm hsame m

/-! ## What can be read off the holdings -/

section Reading

variable {s s' : Store}

theorem stock_eq_of_holdings_eq (h : s.holdings = s'.holdings) (lane : Nat) :
    (∃ b b', s.banks[lane]? = some b ∧ s'.banks[lane]? = some b' ∧ b.stock = b'.stock) ∨
      s.banks[lane]? = none ∧ s'.banks[lane]? = none := by
  have hlane : s.banks[lane]?.map Bank.stock = s'.banks[lane]?.map Bank.stock :=
    congrFun (congrArg Holdings.stock h) lane
  cases hb : s.banks[lane]? with
  | none =>
      rw [hb, Option.map_none, eq_comm, Option.map_eq_none_iff] at hlane
      exact .inr ⟨rfl, hlane⟩
  | some b =>
      rw [hb, Option.map_some, eq_comm, Option.map_eq_some_iff] at hlane
      obtain ⟨b', hb', hstock⟩ := hlane
      exact .inl ⟨b, b', rfl, hb', hstock.symm⟩

theorem peek_eq_of_holdings_eq (h : s.holdings = s'.holdings)
    (hwidth : s.width = s'.width) (lane address : Nat) :
    s.peek lane address = s'.peek lane address := by
  rcases stock_eq_of_holdings_eq h lane with ⟨b, b', hb, hb', hstock⟩ | ⟨hb, hb'⟩
  · rw [peek, peek, bank, bank, hb, hb']
    obtain ⟨index, cells, output, usage⟩ := b
    obtain rfl : cells = b'.cells := congrArg Bank.Stock.cells hstock
    rfl
  · rw [peek, peek, bank, bank, hb, hb', hwidth]

theorem usage_eq_of_holdings_eq (h : s.holdings = s'.holdings)
    (hwidth : s.width = s'.width) (lane : Nat) :
    (s.usage lane).map (fun u => (u.writes, u.active)) =
      (s'.usage lane).map fun u => (u.writes, u.active) := by
  rcases stock_eq_of_holdings_eq h lane with ⟨b, b', hb, hb', hstock⟩ | ⟨hb, hb'⟩
  · have hwrites : b.usage.writes = b'.usage.writes := congrArg Bank.Stock.writes hstock
    have hactive : b.usage.active = b'.usage.active := congrArg Bank.Stock.active hstock
    rw [usage, usage, bank, bank, hb, hb']
    show Except.ok (b.usage.writes, b.usage.active) =
      .ok (b'.usage.writes, b'.usage.active)
    rw [hwrites, hactive]
  · rw [usage, usage, bank, bank, hb, hb', hwidth]

end Reading

end Store

end Wavefront
