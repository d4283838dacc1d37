import Wavefront.Proofs.Bank.Accounts
import Wavefront.Proofs.Requests

/-!
# A bank under arbitrary drives

The ports of a bank can be driven with any addresses, in range or not, the same or
different ones. A drive that does not fit is rejected before anything has happened
(`tick_of_not_fits`). So a run of a bank is the run of those of its drives that fit,
`Bank.follow` (`after_tick`), and what it comes to can be read off them: at an
address the word that was written there last (`word_follow`), and in the statistics
how often each port was driven and how many addresses were written
(`Accounts.follow`). `port_contract` puts this together.
-/

namespace Wavefront

def Drive.Fits (depth : Nat) (d : Drive) : Prop :=
  (∀ address ∈ d.read, address < depth) ∧ ∀ w ∈ d.write, w.address < depth

instance (depth : Nat) : DecidablePred (Drive.Fits depth) :=
  fun _ => inferInstanceAs (Decidable (_ ∧ _))

theorem Drive.not_fits_iff (depth : Nat) (d : Drive) :
    ¬ d.Fits depth ↔
      (∃ address ∈ d.read, depth ≤ address) ∨ ∃ w ∈ d.write, depth ≤ w.address := by
  simp only [Fits, not_and_or, Classical.not_forall, Nat.not_lt, exists_prop]

namespace Bank

variable {b : Bank} {d : Drive} {ds : List Drive} {address depth : Nat}

/-! ## One tick -/

theorem takes_of_fits (hb : b.depth = depth) (h : d.Fits depth) : b.Takes d := by
  subst hb
  exact h

/-- A drive that does not fit is refused for its read address, if that is the one
out of range, and for its write address otherwise. -/
theorem tick_of_not_fits (hb : b.depth = depth) (h : ¬ d.Fits depth)
    (log : Array Event) :
    ∃ cause, tick d ⟨b, log⟩ = .error (.rejected cause) ⟨b, log⟩ := by
  subst hb
  obtain ⟨read, write⟩ := d
  by_cases hread : ∀ address ∈ read, address < b.depth
  · simp only [Drive.Fits, not_and, Classical.not_forall] at h
    obtain ⟨w, hw, hle⟩ := h hread
    obtain rfl : write = some w := hw
    exact ⟨_, tick_of_write (Nat.not_lt.1 hle) hread log⟩
  · simp only [Classical.not_forall] at hread
    obtain ⟨address, haddress, hle⟩ := hread
    obtain rfl : read = some address := haddress
    exact ⟨_, tick_of_read (Nat.not_lt.1 hle) write log⟩

theorem rejected_iff_not_fits (hb : b.depth = depth) (log : Array Event) :
    (∃ cause t, tick d ⟨b, log⟩ = .error (.rejected cause) t) ↔ ¬ d.Fits depth := by
  constructor
  · rintro ⟨cause, t, htick⟩ hfits
    exact tick_ne_rejected (takes_of_fits hb hfits) log cause t htick
  · intro hfits
    obtain ⟨cause, herr⟩ := tick_of_not_fits hb hfits log
    exact ⟨cause, _, herr⟩

theorem tick_of_isAnswer (hb : b.depth = depth) (h : d.Fits depth) {log : Array Event}
    (ha : Step.IsAnswer (Step.outcome (tick d ⟨b, log⟩))) :
    tick d ⟨b, log⟩ = .ok (b.next d).output ⟨b.next d, log⟩ := by
  rcases tick_outcome (takes_of_fits hb h) log with hok | ⟨-, b', herr, -⟩
  · exact hok
  · rw [herr] at ha
    exact ha.elim

theorem peek_of_mem_read (hb : b.depth = depth) (h : d.Fits depth)
    (ha : address ∈ d.read) :
    b.peek address = .ok (b.next d).output := by
  have hread : d.read = some address := ha
  have hlt : address < b.depth := hb ▸ h.1 address ha
  rw [peek_of_lt hlt, output_next, hread, Option.elim_some]

theorem depth_final_tick (d : Drive) (b : Bank) (log : Array Event) :
    (Step.final (tick d ⟨b, log⟩)).state.depth = b.depth := by
  by_cases h : d.Fits b.depth
  · rcases tick_outcome (takes_of_fits rfl h) log with hok | ⟨-, b', herr, halike⟩
    · rw [hok]
      exact b.depth_next d
    · rw [herr]
      exact halike.depth_eq
  · obtain ⟨cause, herr⟩ := tick_of_not_fits rfl h log
    rw [herr]
    rfl

theorem depth_after (ds : List Drive) (b : Bank) (log : Array Event) :
    (Step.after tick ds ⟨b, log⟩).state.depth = b.depth :=
  Step.after_induction (I := fun t : Logged Bank => t.state.depth = b.depth) rfl
    (fun d t ht => (depth_final_tick d t.state t.log).trans ht) ds

theorem answered_of_lt {n : Nat} (hn : b.CountedBy n) (ds : List Drive)
    (hlt : n + ds.length < Checked.limit) (log : Array Event) :
    (Step.after tick ds ⟨b, log⟩).state.CountedBy (n + ds.length) ∧
      Step.Answered tick ds ⟨b, log⟩ := by
  induction ds generalizing b n log with
  | nil => exact ⟨hn, Step.answered_nil tick ⟨b, log⟩⟩
  | cons d ds ih =>
      rw [List.length_cons, Nat.add_comm ds.length, ← Nat.add_assoc] at *
      rw [Step.answered_cons, Step.after_cons]
      by_cases hd : d.Fits b.depth
      · rcases tick_outcome (takes_of_fits rfl hd) log with hok | ⟨hfull, -⟩
        · obtain ⟨hcount, hanswered⟩ := ih (hn.next d) hlt log
          rw [hok]
          exact ⟨hcount, trivial, hanswered⟩
        · exact absurd (hn.hasRoom (by omega)) hfull
      · obtain ⟨cause, herr⟩ := tick_of_not_fits rfl hd log
        obtain ⟨hcount, hanswered⟩ := ih (hn.mono (Nat.le_succ n)) hlt log
        rw [herr]
        exact ⟨hcount, trivial, hanswered⟩

/-! ## Runs -/

def follow : List Drive → Bank → Bank
  | [], b => b
  | d :: ds, b => follow ds (b.next d)

@[simp] theorem follow_nil (b : Bank) : b.follow [] = b := rfl

theorem follow_cons (d : Drive) (ds : List Drive) (b : Bank) :
    b.follow (d :: ds) = (b.next d).follow ds := rfl

theorem after_tick (hb : b.depth = depth) {log : Array Event}
    (ha : Step.Answered tick ds ⟨b, log⟩) :
    (Step.after tick ds ⟨b, log⟩).state =
      b.follow (ds.filter fun d => d.Fits depth) := by
  induction ds generalizing b log with
  | nil => rfl
  | cons d ds ih =>
      obtain ⟨hd, hds⟩ := (Step.answered_cons tick d ds ⟨b, log⟩).1 ha
      rw [Step.after_cons]
      by_cases hfits : d.Fits depth
      · rw [tick_of_isAnswer hb hfits hd] at hds ⊢
        rw [List.filter_cons, if_pos (decide_eq_true hfits), follow_cons]
        exact ih ((b.depth_next d).trans hb) hds
      · obtain ⟨cause, herr⟩ := tick_of_not_fits hb hfits log
        rw [herr] at hds ⊢
        rw [List.filter_cons, if_neg (by simpa using hfits)]
        exact ih hb hds

theorem Accounts.follow {reads : Nat} {addresses : List Nat}
    (h : b.Accounts reads addresses) (hds : ∀ d ∈ ds, d.Fits b.depth) :
    (b.follow ds).Accounts (reads + ds.countP fun d => d.read.isSome)
      (addresses ++ (ds.filterMap Drive.write).map PortWrite.address) := by
  induction ds generalizing b reads addresses with
  | nil => simpa using h
  | cons d ds ih =>
      obtain ⟨hd, htail⟩ := List.forall_mem_cons.1 hds
      have hfirst := h.next (takes_of_fits rfl hd)
      have hrest := ih hfirst (b.depth_next d ▸ htail)
      have hwrites : (d :: ds).filterMap Drive.write =
          d.write.toList ++ ds.filterMap Drive.write := by
        cases hw : d.write <;> simp [hw]
      rw [follow_cons, List.countP_cons, hwrites, List.map_append, ← List.append_assoc,
        Nat.add_comm (List.countP _ ds), ← Nat.add_assoc]
      exact hrest

theorem word_follow (hds : ∀ d ∈ ds, d.Fits b.depth) (address : Nat) :
    (b.follow ds).word address =
      (((ds.filterMap Drive.write).filter fun w => w.address = address).map
        PortWrite.data).getLastD (b.word address) := by
  induction ds generalizing b with
  | nil => rfl
  | cons d ds ih =>
      obtain ⟨hd, htail⟩ := List.forall_mem_cons.1 hds
      rw [follow_cons, ih (b.depth_next d ▸ htail), word_next (takes_of_fits rfl hd)]
      cases hw : d.write with
      | none => rw [List.filterMap_cons_none hw, Option.elim_none]
      | some w =>
          rw [List.filterMap_cons_some hw, Option.elim_some]
          by_cases haddress : w.address = address
          · rw [if_pos haddress.symm, List.filter_cons,
              if_pos (decide_eq_true haddress), List.map_cons, List.getLastD_cons]
          · rw [if_neg (Ne.symm haddress), List.filter_cons,
              if_neg (by simpa using haddress)]

/-- A bank under any drives, one after the other. A call is refused exactly when an
address of it is out of range; the refusal names the read address if that one is,
and the write address otherwise, and nothing has changed. Any other call is carried
out: it returns and registers the word that stood at the read address before it, or
the word registered before if nothing is read. After the run every address holds the
word of the last accepted write to it, or zero, and the statistics count the
accepted calls that drove each port, and the different addresses written. A call
stops short of an answer only when a counter has run out, for which it takes as many
calls as a counter can count. -/
theorem port_contract {index : Nat} {b₀ : Bank} (h : new index depth = .ok b₀)
    (ds : List Drive) (log : Array Event) :
    let t := Step.after tick ds ⟨b₀, log⟩
    let accepted := ds.filter fun d => d.Fits depth
    let written := accepted.filterMap Drive.write
    (∀ d : Drive,
      ((∃ cause u, tick d t = .error (.rejected cause) u) ↔
        (∃ address ∈ d.read, depth ≤ address) ∨ ∃ w ∈ d.write, depth ≤ w.address) ∧
      (∀ address ∈ d.read, depth ≤ address →
        tick d t = .error (.rejected (.addressOutOfRange address depth)) t) ∧
      (∀ w ∈ d.write, depth ≤ w.address → (∀ address ∈ d.read, address < depth) →
        tick d t = .error (.rejected (.addressOutOfRange w.address depth)) t) ∧
      (d.Fits depth →
        (∃ word u, tick d t = .ok word u ∧ u.state.output = word ∧
          (∀ address ∈ d.read, t.state.peek address = .ok word) ∧
          (d.read = none → word = t.state.output)) ∨
        Checked.limit ≤ ds.length + 1 ∧ ∃ u, tick d t = .error (.overflow .add) u)) ∧
    (ds.length < Checked.limit → Step.Answered tick ds ⟨b₀, log⟩) ∧
    (Step.Answered tick ds ⟨b₀, log⟩ →
      (∀ address < depth, t.state.peek address =
        .ok (((written.filter fun w => w.address = address).map
          PortWrite.data).getLastD 0)) ∧
      (∀ address, depth ≤ address →
        t.state.peek address = .error (.rejected (.addressOutOfRange address depth))) ∧
      t.state.usage.reads = (accepted.countP fun d => d.read.isSome) ∧
      t.state.usage.writes = (accepted.countP fun d => d.write.isSome) ∧
      t.state.usage.active = (written.map PortWrite.address).toFinset.card ∧
      t.state.usage.active ≤ depth) := by
  obtain ⟨-, rfl⟩ := new_eq_ok_iff.1 h
  intro t accepted written
  have hdepth : t.state.depth = depth :=
    (depth_after ds (blank index depth) log).trans (by simp)
  refine ⟨fun d => ⟨?_, ?_, ?_, ?_⟩, ?_, ?_⟩
  · exact (rejected_iff_not_fits hdepth t.log).trans (d.not_fits_iff depth)
  · obtain ⟨read, write⟩ := d
    intro address hread haddress
    obtain rfl : read = some address := hread
    rw [← hdepth] at haddress ⊢
    exact tick_of_read haddress write t.log
  · obtain ⟨read, write⟩ := d
    intro w hwrite haddress hread
    obtain rfl : write = some w := hwrite
    rw [← hdepth] at haddress hread ⊢
    exact tick_of_write haddress hread t.log
  · intro hd
    rcases tick_outcome (takes_of_fits hdepth hd) t.log with hok | ⟨hfull, b', herr, -⟩
    · refine .inl ⟨_, _, hok, rfl, fun address => peek_of_mem_read hdepth hd,
        fun hread => ?_⟩
      rw [output_next, hread, Option.elim_none]
    · refine .inr ⟨?_, _, herr⟩
      rcases Nat.lt_or_ge (ds.length + 1) Checked.limit with hlt | hle
      · have hcount := (answered_of_lt (.blank index depth) ds (by omega) log).1
        rw [Nat.zero_add] at hcount
        exact absurd (hcount.hasRoom hlt) hfull
      · exact hle
  · intro hlt
    exact (answered_of_lt (.blank index depth) ds (by omega) log).2
  · intro ha
    have hfits : ∀ d ∈ accepted, d.Fits depth :=
      fun d hd => by simpa using (List.mem_filter.1 hd).2
    have hafter : t.state = (blank index depth).follow accepted :=
      after_tick (by simp) ha
    have haccounts : t.state.Accounts (0 + accepted.countP fun d => d.read.isSome)
        ([] ++ written.map PortWrite.address) := by
      rw [hafter]
      exact (Accounts.blank index depth).follow (by simpa using hfits)
    rw [Nat.zero_add, List.nil_append] at haccounts
    refine ⟨fun address haddress => ?_, fun address haddress => ?_, haccounts.reads_eq,
      ?_, haccounts.active_eq, ?_⟩
    · rw [peek_of_lt (hdepth ▸ haddress), hafter, word_follow (by simpa using hfits),
        word_blank]
    · rw [← hdepth] at haddress ⊢
      exact peek_of_le haddress
    · rw [haccounts.writes_eq, List.length_map, List.length_filterMap_eq_countP]
    · exact hdepth ▸ haccounts.active_le_depth

/-- Two words are written to an address, the second while it is read, and then ports
are driven out of range. -/
theorem ports_around_refusals :
    let ds : List Drive :=
      [⟨none, some ⟨1, 7⟩⟩, ⟨some 1, some ⟨1, 8⟩⟩, ⟨some 4, some ⟨0, 9⟩⟩,
        ⟨some 0, some ⟨5, 9⟩⟩, ⟨none, none⟩]
    let t := Step.after tick ds ⟨blank 2 4, #[]⟩
    tick ⟨some 6, some ⟨5, 9⟩⟩ t = .error (.rejected (.addressOutOfRange 6 4)) t ∧
      t.state.peek 1 = .ok 8 ∧ t.state.peek 0 = .ok 0 ∧ t.state.usage.reads = 1 ∧
      t.state.usage.writes = 2 ∧ t.state.usage.active = 1 := by
  intro ds t
  have hnew : new 2 4 = .ok (blank 2 4) := rfl
  obtain ⟨hcall, hanswered, hrun⟩ := port_contract hnew ds #[]
  obtain ⟨hpeek, -, hreads, hwrites, hactive, -⟩ := hrun (hanswered (by decide))
  refine ⟨(hcall ⟨some 6, some ⟨5, 9⟩⟩).2.1 6 rfl (by decide),
    (hpeek 1 (by decide)).trans ?_,
    (hpeek 0 (by decide)).trans ?_, hreads.trans ?_, hwrites.trans ?_, hactive.trans ?_⟩
  all_goals decide +kernel

end Bank

end Wavefront
