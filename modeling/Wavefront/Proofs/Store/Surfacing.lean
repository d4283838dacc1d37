import Wavefront.Proofs.Store.Diagonal

/-!
# When a written word surfaces

A word that has been written stays in its bank until it is written again, whatever
else the block is asked to do (`word_after`). A stream that begins behind it comes
to its address after as many ticks as the diagonal takes to get there, and in every
cycle again; in those ticks the word is put on the lane. This is
`written_word_surfaces`.
-/

namespace Wavefront

/-- The command of a tick names the given word of a bank. -/
def Inputs.Writes (bank address : Nat) (i : Inputs) : Prop :=
  ∃ w ∈ i.write, w.bank = bank ∧ w.address = address

instance (bank address : Nat) (i : Inputs) : Decidable (i.Writes bank address) :=
  inferInstanceAs (Decidable (∃ w ∈ i.write, w.bank = bank ∧ w.address = address))

theorem modEq_iff_exists_add_mul {n m size : Nat} :
    n ≡ m [MOD size] ↔ ∃ k, n = m % size + k * size := by
  constructor
  · intro h
    refine ⟨n / size, ?_⟩
    rw [← h, Nat.mod_add_div']
  · rintro ⟨k, rfl⟩
    rw [Nat.ModEq, Nat.add_mul_mod_self_right, Nat.mod_mod]

namespace Store

def Request.Writes (bank address : Nat) (r : Request) : Prop :=
  ∃ i ∈ r.inputs, i.Writes bank address

instance (bank address : Nat) (r : Request) : Decidable (r.Writes bank address) :=
  inferInstanceAs (Decidable (∃ i ∈ r.inputs, i.Writes bank address))

variable {c : Config} {s : Store} {lane address : Nat}

/-! ## Words that are not written again -/

theorem word_next_of_not_writes (h : s.WellFormed c) {i : Inputs} (hi : s.Admits i)
    (hw : ¬ i.Writes lane address) :
    (s.next i).word lane address = s.word lane address := by
  rw [word_next h hi]
  cases hwrite : i.write with
  | none => rfl
  | some w => exact if_neg fun hnames => hw ⟨w, hwrite, hnames⟩

theorem lastWrite_eq_none {is : List Inputs} (hw : ∀ i ∈ is, ¬ i.Writes lane address) :
    lastWrite lane address is = none := by
  induction is with
  | nil => rfl
  | cons i is ih =>
      obtain ⟨hi, htail⟩ := List.forall_mem_cons.1 hw
      have hother : i.write.filter (fun w => w.bank = lane ∧ w.address = address) =
          none := by
        rw [Option.filter_eq_none_iff]
        intro w hwrite hnames
        exact hi ⟨w, hwrite, of_decide_eq_true hnames⟩
      rw [lastWrite_cons, ih htail, hother]
      rfl

theorem word_follow_of_not_writes (h : s.WellFormed c) {is : List Inputs}
    (his : ∀ i ∈ is, s.Admits i) (hw : ∀ i ∈ is, ¬ i.Writes lane address) :
    (s.follow is).word lane address = s.word lane address := by
  rw [word_follow h his, lastWrite_eq_none hw, Option.getD_none]

theorem word_final_perform (h : s.WellFormed c) {r : Request}
    (hw : ¬ r.Writes lane address) {log : Array Event}
    (ha : Step.IsAnswer (Step.outcome (perform r ⟨s, log⟩))) :
    (Step.final (perform r ⟨s, log⟩)).state.word lane address =
      s.word lane address := by
  cases hr : r.inputs with
  | none =>
      cases r with
      | resize size =>
          rcases resize_outcome size s log with ⟨-, hok⟩ | ⟨-, cause, herr⟩
          · exact congrArg (fun x => (Step.final x).state.word lane address) hok
          · exact congrArg (fun x => (Step.final x).state.word lane address) herr
      | tick i => exact absurd hr (by simp [Request.inputs])
      | write w => exact absurd hr (by simp [Request.inputs])
  | some i =>
      rw [perform_of_inputs hr] at ha ⊢
      by_cases hi : s.Admits i
      · rw [tick_of_isAnswer h hi ha]
        exact word_next_of_not_writes h hi fun hwi => hw ⟨i, hr, hwi⟩
      · obtain ⟨cause, herr⟩ := tick_of_not_admits hi log
        rw [herr]
        rfl

theorem word_after (h : s.WellFormed c) {rs : List Request}
    (hw : ∀ r ∈ rs, ¬ r.Writes lane address) {log : Array Event}
    (ha : Step.Answered perform rs ⟨s, log⟩) :
    (Step.after perform rs ⟨s, log⟩).state.word lane address = s.word lane address := by
  induction rs generalizing s log with
  | nil => rfl
  | cons r rs ih =>
      obtain ⟨hhead, htail⟩ := List.forall_mem_cons.1 hw
      rw [Step.answered_cons] at ha
      rw [Step.after_cons]
      exact (ih (h.final_perform r log) htail ha.2).trans
        (word_final_perform h hhead ha.1)

theorem word_of_written (h : s.WellFormed c) {i : Inputs} {data : Word}
    (hi : i.write = some ⟨lane, address, data⟩) {log : Array Event} {t : Logged Store}
    (hwrite : tick i ⟨s, log⟩ = .ok () t) {rs : List Request}
    (hrs : Step.Answered perform rs t) (hkept : ∀ r ∈ rs, ¬ r.Writes lane address) :
    lane < c.banks ∧ (Step.after perform rs t).state.WellFormed c ∧
      (Step.after perform rs t).state.word lane address = data := by
  have hok : (Step.outcome (tick i ⟨s, log⟩)).isOk = true := by
    rw [hwrite]
    rfl
  obtain ⟨hadmits, htick⟩ := tick_of_isOk h hok
  obtain rfl : t = ⟨s.next i, _⟩ := (EStateM.Result.ok.inj (hwrite.symm.trans htick)).2
  refine ⟨((admits_iff h i).1 hadmits _ hi).1, wellFormed_after (h.next i) rs _, ?_⟩
  rw [word_after (h.next i) hkept hrs, word_next h hadmits, hi]
  exact if_pos ⟨rfl, rfl⟩

/-! ## The stream behind them -/

theorem WellFormed.readAddress_of_started (h : s.WellFormed c)
    (hstopped : s.sequencer.running = false) (hpos : 0 < s.size) {is : List Inputs}
    (hstart : ∀ i ∈ is.head?, i.start = true) (hreset : ∀ i ∈ is, i.reset = false)
    (lane : Nat) :
    (s.follow is).readAddress lane = some (laneAddress 0 s.size lane is.length) := by
  have hmoving : ∀ i ∈ is.head?, (i.start || s.sequencer.running) = true := by
    intro i hi
    rw [hstart i hi, Bool.true_or]
  rw [h.readAddress_follow hpos hreset hmoving, h.within.stopped hstopped]

/-- A word that is written to address `address` of the bank of a lane, and not
written again before its block is started, surfaces on that lane whenever the lane
is driven with its address: in the ticks that are `address + lane` modulo the size,
first in tick `(address + lane) mod size` and then once in a cycle, until the block
is reset or the word is written again. A command that is presented in such a tick
itself comes too late for it. -/
theorem written_word_surfaces {t t₁ t₂ : Logged Store} (ht : Reachable c t)
    {i₀ : Inputs} {data : Word} (hi₀ : i₀.write = some ⟨lane, address, data⟩)
    (hwrite : tick i₀ t = .ok () t₁) {rs : List Request}
    (ht₂ : t₂ = Step.after perform rs t₁) (hrs : Step.Answered perform rs t₁)
    (hkept : ∀ r ∈ rs, ¬ r.Writes lane address)
    (hstopped : t₂.state.sequencer.running = false) (hsize : address < t₂.state.size)
    {is : List Inputs} (haccepted : Step.Accepted tick is t₂)
    (hstart : ∀ i ∈ is.head?, i.start = true) {k : Nat} (hk : k < is.length)
    (hquiet : ∀ i ∈ is.take k, i.reset = false ∧ ¬ i.Writes lane address) :
    (∃ addresses, (Step.after tick (is.take k) t₂).state.addresses = .ok addresses ∧
        (addresses[lane]? = some (some address) ↔
          k ≡ address + lane [MOD t₂.state.size])) ∧
      (k ≡ address + lane [MOD t₂.state.size] ↔
        ∃ n, k = (address + lane) % t₂.state.size + n * t₂.state.size) ∧
      (k ≡ address + lane [MOD t₂.state.size] →
        (Step.after tick (is.take (k + 1)) t₂).state.outputs[lane]? = some data) := by
  obtain ⟨hlane, hwell, hword⟩ := word_of_written ht.wellFormed hi₀ hwrite hrs hkept
  rw [← ht₂] at hwell hword
  have hread : (t₂.state.follow (is.take k)).readAddress lane =
      some (laneAddress 0 t₂.state.size lane k) := by
    rw [hwell.readAddress_of_started hstopped (Nat.zero_lt_of_lt hsize)
      (fun i hi => hstart i (mem_head?_of_take hi)) (fun i hi => (hquiet i hi).1),
      List.length_take_of_le (Nat.le_of_lt hk)]
  have hdriven : laneAddress 0 t₂.state.size lane k = address ↔
      k ≡ address + lane [MOD t₂.state.size] := laneAddress_zero_eq_iff hsize k
  obtain ⟨hadmits, hafter⟩ := after_tick_of_accepted hwell (haccepted.take k)
  refine ⟨⟨(List.range c.banks).map (t₂.state.follow (is.take k)).readAddress, ?_, ?_⟩,
    modEq_iff_exists_add_mul, ?_⟩
  · rw [hafter, (hwell.follow (is.take k)).addresses_eq]
  · rw [List.getElem?_map, List.getElem?_range hlane, Option.map_some, hread,
      Option.some.injEq, Option.some.injEq, hdriven]
  · intro hmod
    have hlast : (t₂.state.follow (is.take (k + 1))).output lane = data := by
      rw [List.take_succ_eq_append_getElem hk, follow_append, follow_cons, follow_nil,
        output_next, hread, hdriven.2 hmod, Option.elim_some,
        word_follow_of_not_writes hwell hadmits fun i hi => (hquiet i hi).2, hword]
    rw [(after_tick_of_accepted hwell (haccepted.take (k + 1))).2,
      outputs_eq (hwell.follow _), List.getElem?_map, List.getElem?_range hlane,
      Option.map_some, hlast]

/-- The word at address 2 of bank 1 surfaces for the second time in the fourth tick
of a stream of three words. A write to the lane beside it and a new word for its
place, which comes just then, do not show. -/
theorem surfaces_in_second_cycle :
    let t := Step.after perform [] ⟨initial ⟨3, 4, .sequential, false⟩, #[]⟩
    let t₁ := Step.final (write ⟨1, 2, 7⟩ t)
    let t₂ :=
      Step.after perform [.write ⟨1, 1, 5⟩, .tick ⟨none, false, true⟩, .resize 3] t₁
    let is : List Inputs :=
      [⟨none, true, false⟩, ⟨some ⟨0, 2, 9⟩, false, false⟩, .idle, .ofWrite ⟨1, 2, 8⟩]
    (Step.after tick (is.take 4) t₂).state.outputs[1]? = some 7 := by
  intro t t₁ t₂ is
  have ht : Reachable ⟨3, 4, .sequential, false⟩ t := ⟨_, [], #[], rfl, rfl⟩
  have hwrite : tick (.ofWrite ⟨1, 2, 7⟩) t = .ok () t₁ := rfl
  have ht₂ : t₂ =
      Step.after perform [.write ⟨1, 1, 5⟩, .tick ⟨none, false, true⟩, .resize 3] t₁ :=
    rfl
  have haccepted : Step.Accepted tick is t₂ := by decide +kernel
  obtain ⟨-, -, hsurfaces⟩ :=
    written_word_surfaces ht rfl hwrite ht₂ (by decide +kernel) (by decide)
    (by decide +kernel) (by decide +kernel) haccepted (by decide)
      (show 3 < is.length by decide)
    (by decide)
  exact hsurfaces (by decide +kernel)

end Store

end Wavefront
