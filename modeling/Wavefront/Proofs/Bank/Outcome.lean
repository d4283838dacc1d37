import Wavefront.Bank.Transition

/-!
# Every way a tick of a bank can end

A bank is built `blank`, with nothing written. A drive that the bank takes is never
refused (`tick_ne_rejected`). Its tick is carried out, or one of the counters of the
bank has reached the end of its range (`tick_outcome`); whichever happens, the bank
keeps its index and its depth. `CountedBy n` bounds the counters of a bank that has
ticked at most `n` times. Below the end of the range such a bank has room for one
more tick.
-/

namespace Wavefront

namespace Usage

theorem countRead_of_le {u : Usage} (h : Checked.limit ≤ u.reads + 1) :
    u.countRead = .error (.overflow .add) := by
  rw [countRead, Checked.add_of_le h, error_bind]

theorem countWrite_of_le {u : Usage} (h : Checked.limit ≤ u.writes + 1) :
    u.countWrite = .error (.overflow .add) := by
  rw [countWrite, Checked.add_of_le h, error_bind]

end Usage

namespace Bank

def blank (index depth : Nat) : Bank :=
  ⟨index, Array.replicate depth none, 0, ⟨depth, 0, depth * 4, 0, 0⟩⟩

theorem new_eq_ok_iff {index depth : Nat} {b : Bank} :
    new index depth = .ok b ↔ depth * 4 < Checked.half ∧ b = blank index depth := by
  rcases Nat.lt_or_ge (depth * 4) Checked.half with hd | hd
  · rw [new_of_lt hd, Except.ok.injEq, and_iff_right hd, eq_comm]
    rfl
  · rw [new_of_le hd]
    simp [Nat.not_lt.2 hd]

@[simp] theorem depth_blank (index depth : Nat) : (blank index depth).depth = depth :=
  Array.size_replicate

theorem cells_blank (index depth address : Nat) :
    (blank index depth).cells[address]?.join = none := by
  simp only [blank, Array.getElem?_replicate]
  split <;> rfl

theorem word_blank (index depth address : Nat) :
    (blank index depth).word address = 0 := by
  rw [word, cells_blank]
  rfl

/-- The bank `b'` has the index and the depth of `b`. -/
structure Alike (b b' : Bank) : Prop where
  index_eq : b'.index = b.index
  depth_eq : b'.depth = b.depth

namespace Alike

@[simp] theorem refl (b : Bank) : Alike b b := ⟨rfl, rfl⟩

theorem trans {b b' b'' : Bank} (h : Alike b b') (h' : Alike b' b'') : Alike b b'' :=
  ⟨h'.index_eq.trans h.index_eq, h'.depth_eq.trans h.depth_eq⟩

theorem afterRead (address : Nat) (b : Bank) :
    Alike b (b.afterRead address) :=
  ⟨rfl, rfl⟩

theorem next (d : Drive) (b : Bank) :
    Alike b (b.next d) :=
  ⟨b.index_next d, b.depth_next d⟩

theorem takes {b b' : Bank} (h : Alike b b') {d : Drive} (hd : b.Takes d) :
    b'.Takes d := by
  obtain ⟨hread, hwrite⟩ := hd
  constructor
  · intro address ha
    rw [h.depth_eq]
    exact hread address ha
  · intro w hw
    rw [h.depth_eq]
    exact hwrite w hw

end Alike

theorem readPort_outcome (address : Nat) (b : Bank) (log : Array Event) :
    readPort address ⟨b, log⟩ = .ok () ⟨b.afterRead address, log⟩ ∨
      ¬ b.HasRoom ∧
        ∃ b', readPort address ⟨b, log⟩ = .error (.overflow .add) ⟨b', log⟩ ∧
        Alike b b' := by
  rcases Nat.lt_or_ge (b.usage.reads + 1) Checked.limit with h | h
  · exact .inl (readPort_apply h address log)
  · refine .inr ⟨?_, { b with output := b.word address }, ?_, rfl, rfl⟩
    · intro hb
      exact absurd hb.1 (Nat.not_lt.2 h)
    · simp [readPort, Step.bind_apply, Step.update_apply, Step.query_apply,
        Usage.countRead_of_le h]

theorem writePort_outcome (w : PortWrite) (b : Bank) (log : Array Event) :
    writePort w ⟨b, log⟩ = .ok () ⟨b.afterWrite w, log⟩ ∨
      ¬ (b.usage.writes + 1 < Checked.limit ∧ b.usage.active + 1 < Checked.limit) ∧
        ∃ b', writePort w ⟨b, log⟩ = .error (.overflow .add) ⟨b', log⟩ ∧
        Alike b b' := by
  rcases Nat.lt_or_ge (b.usage.writes + 1) Checked.limit with hw | hw
  · cases h : b.isWritten w.address with
    | true =>
        left
        simp [writePort, Step.bind_apply, Step.observe_apply, Step.query_apply,
          Step.update_apply, Usage.countWrite_of_lt hw, afterWrite, put, h]
    | false =>
        rcases Nat.lt_or_ge (b.usage.active + 1) Checked.limit with ha | ha
        · exact .inl (writePort_apply hw ha w log)
        · refine .inr ⟨fun hb => absurd hb.2 (Nat.not_lt.2 ha), b.put w, ?_, rfl,
            b.depth_put w⟩
          simp [writePort, Step.bind_apply, Step.observe_apply, Step.query_apply,
            Step.update_apply, Checked.add_of_le ha, put, h]
  · refine .inr ⟨fun hb => absurd hb.1 (Nat.not_lt.2 hw), ?_⟩
    cases h : b.isWritten w.address with
    | true =>
        refine ⟨b.put w, ?_, rfl, b.depth_put w⟩
        simp [writePort, Step.bind_apply, Step.observe_apply, Step.query_apply,
          Step.update_apply, Usage.countWrite_of_le hw, put, h]
    | false =>
        rcases Nat.lt_or_ge (b.usage.active + 1) Checked.limit with ha | ha
        · -- The address has come into use by the time the writes are counted.
          have hw' : Checked.limit ≤ (b.usage.occupy (b.usage.active + 1)).writes + 1 :=
            hw
          refine ⟨{ b.put w with usage := b.usage.occupy (b.usage.active + 1) }, ?_,
            rfl, b.depth_put w⟩
          simp [writePort, Step.bind_apply, Step.observe_apply, Step.query_apply,
            Step.update_apply, Checked.add_of_lt ha, Usage.countWrite_of_le hw', put, h]
        · refine ⟨b.put w, ?_, rfl, b.depth_put w⟩
          simp [writePort, Step.bind_apply, Step.observe_apply, Step.query_apply,
            Step.update_apply, Checked.add_of_le ha, put, h]

/-- A tick whose drive the bank takes is carried out, or overflows for want of
room. -/
theorem tick_outcome {b : Bank} {d : Drive} (h : b.Takes d) (log : Array Event) :
    tick d ⟨b, log⟩ = .ok (b.next d).output ⟨b.next d, log⟩ ∨
      ¬ b.HasRoom ∧ ∃ b', tick d ⟨b, log⟩ = .error (.overflow .add) ⟨b', log⟩ ∧
        Alike b b' := by
  obtain ⟨read, write⟩ := d
  obtain ⟨hread, hwrite⟩ := h
  cases read with
  | none =>
      cases write with
      | none => exact .inl rfl
      | some w =>
          rcases writePort_outcome w b log with hw | ⟨hfull, b', hw, halike⟩
          · left
            simp [tick, Step.bind_apply, Step.observe_apply, Step.query_apply, next,
              check_of_lt (hwrite w rfl), hw]
          · refine .inr ⟨fun hb => hfull hb.2, b', ?_, halike⟩
            simp [tick, Step.bind_apply, Step.query_apply, check_of_lt (hwrite w rfl),
              hw]
  | some address =>
      cases write with
      | none =>
          rcases readPort_outcome address b log with hr | ⟨hroom, b', hr, halike⟩
          · left
            simp [tick, Step.bind_apply, Step.observe_apply, Step.query_apply, next,
              check_of_lt (hread address rfl), hr]
          · refine .inr ⟨hroom, b', ?_, halike⟩
            simp [tick, Step.bind_apply, Step.query_apply,
              check_of_lt (hread address rfl), hr]
      | some w =>
          have hra : b.check address = .ok () := check_of_lt (hread address rfl)
          have hwa : b.check w.address = .ok () := check_of_lt (hwrite w rfl)
          rcases readPort_outcome address b log with hr | ⟨hroom, b', hr, halike⟩
          · rcases writePort_outcome w (b.afterRead address) log with
              hw | ⟨hfull, b', hw, halike⟩
            · left
              simp [tick, Step.bind_apply, Step.observe_apply, Step.query_apply, next,
                hra, hwa, hr, hw]
            · -- A read counts neither a write nor an address in use.
              have hroom : ¬ b.HasRoom := fun hb => hfull hb.2
              refine .inr ⟨hroom, b', ?_, (Alike.afterRead address b).trans halike⟩
              simp [tick, Step.bind_apply, Step.query_apply, hra, hwa, hr, hw]
          · refine .inr ⟨hroom, b', ?_, halike⟩
            simp [tick, Step.bind_apply, Step.query_apply, hra, hwa, hr]

theorem tick_ne_rejected {b : Bank} {d : Drive} (h : b.Takes d) (log : Array Event)
    (cause : Rejection) (t : Logged Bank) :
    tick d ⟨b, log⟩ ≠ .error (.rejected cause) t := by
  intro htick
  rcases tick_outcome h log with hok | ⟨-, b', herr, -⟩
  · rw [hok] at htick
    exact absurd htick (by simp)
  · rw [herr] at htick
    exact absurd htick (by simp)

theorem output_next (d : Drive) (b : Bank) :
    (b.next d).output = d.read.elim b.output b.word := by
  obtain ⟨read, write⟩ := d
  cases read <;> cases write <;> rfl

theorem word_next {d : Drive} {b : Bank} (h : b.Takes d) (address : Nat) :
    (b.next d).word address =
      d.write.elim (b.word address) fun w =>
        if address = w.address then w.data else b.word address := by
  have hread : ∀ a address, (b.afterRead a).word address = b.word address :=
    fun _ _ => rfl
  have hwrite : ∀ (b : Bank) (w : PortWrite) address, w.address < b.depth →
      (b.afterWrite w).word address =
        if address = w.address then w.data else b.word address :=
    fun b w address hw => word_put (b := b) hw address
  obtain ⟨read, write⟩ := d
  cases write with
  | none => cases read <;> rfl
  | some w =>
      have hw : w.address < b.depth := h.2 w rfl
      cases read with
      | none => exact hwrite b w address hw
      | some a => exact hwrite (b.afterRead a) w address hw

theorem reads_next (d : Drive) (b : Bank) :
    (b.next d).usage.reads = b.usage.reads + if d.read.isSome then 1 else 0 := by
  obtain ⟨read, write⟩ := d
  cases read <;> cases write <;> rfl

theorem writes_next (d : Drive) (b : Bank) :
    (b.next d).usage.writes = b.usage.writes + if d.write.isSome then 1 else 0 := by
  obtain ⟨read, write⟩ := d
  cases read <;> cases write <;> rfl

theorem active_next_le (d : Drive) (b : Bank) :
    (b.next d).usage.active ≤ b.usage.active + if d.write.isSome then 1 else 0 := by
  have hwrite : ∀ (w : PortWrite) (b : Bank),
      (b.afterWrite w).usage.active ≤ b.usage.active + 1 := by
    intro w b
    cases h : b.isWritten w.address <;> simp [afterWrite, h]
  obtain ⟨read, write⟩ := d
  cases write with
  | none => cases read <;> exact Nat.le_refl _
  | some w =>
      cases read with
      | none => exact hwrite w b
      | some address => exact hwrite w (b.afterRead address)

/-- The counters of a bank that has ticked at most `n` times. -/
structure CountedBy (n : Nat) (b : Bank) : Prop where
  reads_le : b.usage.reads ≤ n
  writes_le : b.usage.writes ≤ n
  active_le : b.usage.active ≤ b.usage.writes

namespace CountedBy

theorem blank (index depth : Nat) : (blank index depth).CountedBy 0 :=
  ⟨Nat.le_refl 0, Nat.le_refl 0, Nat.le_refl 0⟩

theorem mono {m n : Nat} {b : Bank} (h : b.CountedBy m) (hmn : m ≤ n) : b.CountedBy n :=
  ⟨Nat.le_trans h.reads_le hmn, Nat.le_trans h.writes_le hmn, h.active_le⟩

theorem next {n : Nat} {b : Bank} (h : b.CountedBy n) (d : Drive) :
    (b.next d).CountedBy (n + 1) := by
  obtain ⟨hr, hw, ha⟩ := h
  have hactive := active_next_le d b
  refine ⟨?_, ?_, ?_⟩
  · rw [reads_next]
    split <;> omega
  · rw [writes_next]
    split <;> omega
  · rw [writes_next]
    omega

theorem hasRoom {n : Nat} {b : Bank} (h : b.CountedBy n) (hn : n + 1 < Checked.limit) :
    b.HasRoom := by
  obtain ⟨hr, hw, ha⟩ := h
  refine ⟨?_, ?_, ?_⟩ <;> omega

end CountedBy

end Bank

end Wavefront
