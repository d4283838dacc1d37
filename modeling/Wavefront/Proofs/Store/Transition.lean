import Wavefront.Proofs.Store.WellFormed

/-!
# Every way a tick of the block can end

`Store.next` is the block after a tick, as a plain function of its inputs. A tick of
a well-formed block ends in one of three ways. When its command names no word of a
bank it is rejected before anything is touched (`tick_of_check`). Otherwise it is
carried out and leads to `Store.next`, or a counter of the router or of a bank has
reached the end of its range (`tick_outcome`). No lane is rejected half way through,
for no lane reads outside its bank and the command has been checked (`takes_drive`).
-/

namespace Wavefront

def Inputs.routed (i : Inputs) : Option Routed :=
  i.write.map fun w => ⟨w.bank, ⟨w.address, w.data⟩⟩

namespace Store

/-- Whether the block carries out a tick with these inputs: the command, if there is
one, names a word of a bank. -/
def Admits (s : Store) (i : Inputs) : Prop := ∀ w, i.write = some w → s.Accepts w

instance (s : Store) (i : Inputs) : Decidable (s.Admits i) :=
  inferInstanceAs (Decidable (∀ w ∈ i.write, s.Accepts w))

def drive (i : Inputs) (s : Store) (lane : Nat) : Drive :=
  ⟨s.readAddress lane, (i.routed.filter fun r => r.bank == lane).map Routed.write⟩

def next (i : Inputs) (s : Store) : Store :=
  { s with
    banks := s.banks.mapIdx fun lane b => b.next (s.drive i lane)
    sequencer := s.sequencer.advance ⟨i.start, i.reset, s.size⟩
    router := ⟨s.router.accepted + i.write.toList.length⟩ }

/-- What a tick reports: its pulses, its command, and the move of the sequencer. -/
def events (i : Inputs) (s : Store) : List Event :=
  (s.pulses i).toList ++ i.write.toList.map Event.routed ++
    [.moved s.sequencer (s.next i).sequencer]

structure HasRoom (s : Store) : Prop where
  router : s.router.accepted + 1 < Checked.limit
  banks : ∀ {i : Nat} {b : Bank}, s.banks[i]? = some b → b.HasRoom

theorem getElem?_banks_next (i : Inputs) (s : Store) (lane : Nat) :
    (s.next i).banks[lane]? = s.banks[lane]?.map fun b => b.next (s.drive i lane) := by
  simp [next]

theorem bank_of_next {i : Inputs} {s : Store} {lane : Nat} {b' : Bank}
    (h : (s.next i).banks[lane]? = some b') :
    ∃ b, s.banks[lane]? = some b ∧ b' = b.next (s.drive i lane) := by
  rw [getElem?_banks_next, Option.map_eq_some_iff] at h
  obtain ⟨b, hb, rfl⟩ := h
  exact ⟨b, hb, rfl⟩

@[simp] theorem config_next (i : Inputs) (s : Store) :
    (s.next i).config = s.config :=
  rfl

@[simp] theorem places_next (i : Inputs) (s : Store) :
    (s.next i).places = s.places :=
  rfl

@[simp] theorem size_next (i : Inputs) (s : Store) : (s.next i).size = s.size := rfl

@[simp] theorem sequencer_next (i : Inputs) (s : Store) :
    (s.next i).sequencer = s.sequencer.advance ⟨i.start, i.reset, s.size⟩ := rfl

@[simp] theorem width_next (i : Inputs) (s : Store) : (s.next i).width = s.width := by
  simp [next, width]

/-! ## The command -/

theorem check_of_bank {s : Store} {w : Write} (h : s.width ≤ w.bank) :
    s.check w = .error (.rejected (.bankOutOfRange w.bank s.width)) := if_pos h

theorem check_of_address {s : Store} {w : Write} (hb : w.bank < s.width)
    (ha : s.depth ≤ w.address) :
    s.check w = .error (.rejected (.addressOutOfRange w.address s.depth)) := by
  rw [check, if_neg (Nat.not_le.2 hb), if_pos ha]

theorem tick_apply (i : Inputs) (s : Store) (log : Array Event) :
    tick i ⟨s, log⟩ = tickIn (s.config.concurrency.order s.width) i ⟨s, log⟩ := by
  rw [tick, Step.bind_apply, Step.observe_apply]

theorem tickIn_of_check {s : Store} {i : Inputs} {w : Write} {e : Fault}
    (hw : i.write = some w) (h : s.check w = .error e) (order : List Nat)
    (log : Array Event) :
    tickIn order i ⟨s, log⟩ = .error e ⟨s, log⟩ := by
  simp [tickIn, Step.bind_apply, Step.query_apply, hw, h]

theorem tick_of_check {s : Store} {i : Inputs} {w : Write} {e : Fault}
    (hw : i.write = some w) (h : s.check w = .error e) (log : Array Event) :
    tick i ⟨s, log⟩ = .error e ⟨s, log⟩ := by
  rw [tick_apply, tickIn_of_check hw h]

/-! ## The drives -/

theorem write_drive_of_none {i : Inputs} (hw : i.write = none) (s : Store)
    (lane : Nat) :
    (s.drive i lane).write = none := by
  simp [drive, Inputs.routed, hw]

theorem write_drive_of_eq {i : Inputs} {w : Write} (hw : i.write = some w) (s : Store) :
    (s.drive i w.bank).write = some ⟨w.address, w.data⟩ := by
  simp [drive, Inputs.routed, Option.filter, hw]

theorem write_drive_of_ne {i : Inputs} {w : Write} (hw : i.write = some w) (s : Store)
    {lane : Nat} (h : w.bank ≠ lane) : (s.drive i lane).write = none := by
  simp [drive, Inputs.routed, Option.filter, hw, h]

theorem WellFormed.takes_drive {c : Config} {s : Store} (h : s.WellFormed c)
    {i : Inputs} (hi : s.Admits i) {lane : Nat} {b : Bank}
    (hb : s.banks[lane]? = some b) :
    b.Takes (s.drive i lane) := by
  rw [Bank.Takes, h.depth_eq hb]
  constructor
  · intro address ha
    exact Nat.lt_of_lt_of_le (readAddress_lt ha) h.size_le
  · intro w hw
    simp only [drive, Inputs.routed, Option.map_eq_some_iff,
      Option.filter_eq_some_iff] at hw
    obtain ⟨r, ⟨⟨command, hcommand, rfl⟩, -⟩, rfl⟩ := hw
    have haddress := (hi command hcommand).2
    rwa [h.storeDepth_eq] at haddress

theorem WellFormed.drives_eq {c : Config} {s : Store} (h : s.WellFormed c)
    (i : Inputs) :
    s.drives i.routed = .ok ((List.range c.banks).map (s.drive i)).toArray := by
  have hzip : List.zipWith Drive.mk ((List.range c.banks).map s.readAddress)
      (Routed.spread i.routed c.banks) = (List.range c.banks).map (s.drive i) := by
    rw [Routed.spread, List.zipWith_map, List.zipWith_self]
    rfl
  have hroom : c.banks * Router.portBytes < Checked.half := h.buildable.ports_lt
  rw [drives, h.width_eq, Router.drives_of_lt hroom, ok_bind, h.addresses_eq, ok_bind,
    hzip]
  rfl

/-! ## The tick -/

variable {c : Config} {s : Store} {i : Inputs}

theorem commit_order (h : s.WellFormed c) (hi : s.Admits i) (log : Array Event) :
    commit ((List.range c.banks).map (s.drive i)).toArray
      (s.config.concurrency.order s.width)
        ⟨s.banks, log⟩ = .ok () ⟨(s.next i).banks, log⟩ ∨
      ¬ s.HasRoom ∧
        ∃ banks, commit ((List.range c.banks).map (s.drive i)).toArray
            (s.config.concurrency.order s.width) ⟨s.banks, log⟩ =
              .error (.overflow .add) ⟨banks, log⟩ ∧ BanksAlike s.banks banks := by
  have hperm := Concurrency.perm_order s.width s.config.concurrency
  have hnd : (s.config.concurrency.order s.width).Nodup :=
    hperm.nodup_iff.2 List.nodup_range
  have hmem : ∀ {lane : Nat}, lane ∈ s.config.concurrency.order s.width ↔
      lane < s.width := by
    intro lane
    rw [hperm.mem_iff, List.mem_range]
  have hd : ∀ lane ∈ s.config.concurrency.order s.width,
      ((List.range c.banks).map (s.drive i)).toArray[lane]? =
        some (s.drive i lane) := by
    intro lane hlane
    rw [hmem, h.width_eq] at hlane
    simp [hlane]
  -- Every lane stands in the order, whatever it is, so in the end every bank has
  -- ticked.
  have hall : ticked (s.drive i) (s.config.concurrency.order s.width) s.banks =
      (s.next i).banks := by
    apply Array.ext_getElem?
    intro lane
    rw [getElem?_ticked, getElem?_banks_next]
    rcases Nat.lt_or_ge lane s.banks.size with hlane | hlane
    · have hlane' : lane ∈ s.config.concurrency.order s.width := hmem.2 hlane
      simp only [hlane', if_true]
    · rw [Array.getElem?_eq_none hlane]
      rfl
  rcases commit_outcome hnd (fun lane hlane => hmem.1 hlane) hd
      (fun hb => h.takes_drive hi hb) log with hok |
        ⟨⟨lane, -, b, hb, hfull⟩, banks, herr, halike⟩
  · rw [hall] at hok
    exact .inl hok
  · exact .inr ⟨fun hroom => hfull (hroom.banks hb), banks, herr, halike⟩

theorem route_outcome (i : Inputs) (r : Router) (log : Array Event) :
    Router.route i.write ⟨r, log⟩ =
        .ok i.routed ⟨⟨r.accepted + i.write.toList.length⟩,
          log ++ (i.write.toList.map Event.routed).toArray⟩ ∨
      ¬ r.accepted + 1 < Checked.limit ∧
        Router.route i.write ⟨r, log⟩ = .error (.overflow .add) ⟨r, log⟩ := by
  cases hw : i.write with
  | none =>
      left
      simp [Router.route, Step.pure_apply, Inputs.routed, hw]
  | some w =>
      rcases Nat.lt_or_ge (r.accepted + 1) Checked.limit with hr | hr
      · left
        simp only [Router.route, Step.bind_apply, Step.query_apply, Step.update_apply,
          Step.emit_apply, Step.pure_apply, Checked.add_of_lt hr]
        simp [Inputs.routed, hw]
      · refine .inr ⟨Nat.not_lt.2 hr, ?_⟩
        simp [Router.route, Step.bind_apply, Step.query_apply, Checked.add_of_le hr]

/-- What a tick does once its command has been checked and its pulses are
reported. -/
def settle (order : List Nat) (i : Inputs) (before : Sequencer) : Step Store Unit := do
  let routed ← Step.within takeRouter (Router.route i.write)
  let drives ← Step.query (drives routed)
  Step.within takeBanks (commit drives order)
  let after ← Step.query fun s => s.sequencer.next ⟨i.start, i.reset, s.size⟩
  Step.update fun s => { s with sequencer := after }
  Step.emit (.moved before after)

theorem tickIn_of_admits (hi : s.Admits i) (order : List Nat) (log : Array Event) :
    tickIn order i ⟨s, log⟩ =
      settle order i s.sequencer ⟨s, log ++ (s.pulses i).toList.toArray⟩ := by
  cases hw : i.write with
  | none =>
      cases hp : s.pulses i with
      | none => simp [tickIn, settle, Step.bind_apply, Step.observe_apply, hw, hp]
      | some event =>
          simp [tickIn, settle, Step.bind_apply, Step.observe_apply, Step.emit_apply,
            hw, hp]
  | some w =>
      have hcheck : s.check w = .ok () := (s.check_eq_ok_iff w).2 (hi w hw)
      cases hp : s.pulses i with
      | none =>
          simp [tickIn, settle, Step.bind_apply, Step.observe_apply, Step.query_apply,
            hw, hp, hcheck]
      | some event =>
          simp [tickIn, settle, Step.bind_apply, Step.observe_apply, Step.query_apply,
            Step.emit_apply, hw, hp, hcheck]

/-- Once its command is routed, what becomes of a tick is up to its lanes. -/
theorem settle_of_route (h : s.WellFormed c) {log log' : Array Event}
    (hroute : Router.route i.write ⟨s.router, log⟩ =
      .ok i.routed ⟨(s.next i).router, log'⟩)
    (order : List Nat) (before : Sequencer) :
    settle order i before ⟨s, log⟩ =
      match commit ((List.range c.banks).map (s.drive i)).toArray order
        ⟨s.banks, log'⟩ with
      | .ok _ t => .ok () ⟨{ s.next i with banks := t.state },
          t.log.push (.moved before (s.next i).sequencer)⟩
      | .error fault t =>
          .error fault ⟨{ s with banks := t.state, router := (s.next i).router },
            t.log⟩ := by
  have hdrives : drives i.routed { s with router := (s.next i).router } =
      .ok ((List.range c.banks).map (s.drive i)).toArray := h.drives_eq i
  simp only [settle, takeRouter, takeBanks, Step.bind_apply, Step.query_apply,
    Step.within_apply, hroute, hdrives]
  cases commit ((List.range c.banks).map (s.drive i)).toArray order ⟨s.banks, log'⟩ with
  | error fault t => rfl
  | ok u t =>
      simp only [Sequencer.next_eq_advance h.succ_position_lt, Step.update_apply,
        Step.emit_apply]
      rfl

theorem settle_of_full {log : Array Event}
    (hroute : Router.route i.write ⟨s.router, log⟩ =
      .error (.overflow .add) ⟨s.router, log⟩)
    (order : List Nat) (before : Sequencer) :
    settle order i before ⟨s, log⟩ = .error (.overflow .add) ⟨s, log⟩ := by
  simp only [settle, Step.bind_apply, Step.within_apply, takeRouter, hroute]

/-- An admitted tick of a well-formed block is carried out, or overflows for want of
room in a counter. -/
theorem tick_outcome (h : s.WellFormed c) (hi : s.Admits i) (log : Array Event) :
    tick i ⟨s, log⟩ = .ok () ⟨s.next i, log ++ (s.events i).toArray⟩ ∨
      ¬ s.HasRoom ∧ ∃ banks router log',
        tick i ⟨s, log⟩ =
            .error (.overflow .add) ⟨{ s with banks := banks, router := router },
              log'⟩ ∧
          BanksAlike s.banks banks := by
  rw [tick_apply, tickIn_of_admits hi]
  rcases route_outcome i s.router (log ++ (s.pulses i).toList.toArray) with
    hroute | ⟨hfull, hroute⟩
  · rw [settle_of_route h hroute]
    rcases commit_order h hi (log ++ (s.pulses i).toList.toArray ++
      (i.write.toList.map Event.routed).toArray) with hok | ⟨hfull, banks, herr, halike⟩
    · have hlog : (log ++ (s.pulses i).toList.toArray ++
          (i.write.toList.map Event.routed).toArray).push
            (.moved s.sequencer (s.next i).sequencer) =
          log ++ (s.events i).toArray := by
        apply Array.ext'
        simp [events]
      left
      rw [hok, ← hlog]
    · refine .inr ⟨hfull, banks, (s.next i).router,
        log ++ (s.pulses i).toList.toArray ++ (i.write.toList.map Event.routed).toArray,
        ?_, halike⟩
      rw [herr]
  · refine .inr ⟨fun hroom => hfull hroom.router, s.banks, s.router,
      log ++ (s.pulses i).toList.toArray, settle_of_full hroute _ _, .refl s.banks⟩

end Store

end Wavefront
