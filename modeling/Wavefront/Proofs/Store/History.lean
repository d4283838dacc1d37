import Wavefront.Proofs.Store.Invariant

/-!
# The ticks of a run

`Store.history` lists the ticks that the requests of a run carry out, in order, each
with what it sampled and with the streaming size in force, and `Store.moves` lists
them with what they have done to the sequencer. A request that is answered has done
one of three things (`perform_of_isAnswer`): it was refused and changed nothing, it
changed the size, or it was a tick of the history. So what is kept by ticks and
changes of the size, and may speak of the moves so far, holds of every run that is
answered and of its log (`moves_induction`). Where the log and the sequencer do not
matter, `history_induction` says the same of the ticks.
-/

namespace Wavefront

namespace Store

/-- A tick that was carried out: what it sampled, and the streaming size in
force. -/
structure Ticked where
  inputs : Inputs
  size : Nat
deriving DecidableEq

/-- The tick that a request carries out, if it asks for one and does not fail. -/
def Request.ticked (r : Request) (s : Logged Store) : List Ticked :=
  match r.inputs with
  | none => []
  | some i =>
      match Store.tick i s with
      | .ok _ _ => [⟨i, s.state.size⟩]
      | .error _ _ => []

/-- The ticks that the requests of a run carry out, in order. -/
def history : List Request → Logged Store → List Ticked
  | [], _ => []
  | r :: rs, s => r.ticked s ++ history rs (Step.final (perform r s))

@[simp] theorem history_nil (s : Logged Store) : history [] s = [] := rfl

theorem history_cons (r : Request) (rs : List Request) (s : Logged Store) :
    history (r :: rs) s = r.ticked s ++ history rs (Step.final (perform r s)) := rfl

/-- A tick that was carried out, where it found the sequencer, and where it left
it. -/
structure Move where
  before : Sequencer
  after : Sequencer
  tick : Ticked
deriving DecidableEq

/-- The ticks that the requests of a run carry out, in order, with what they do to
the sequencer. -/
def moves : List Request → Logged Store → List Move
  | [], _ => []
  | r :: rs, s =>
      (r.ticked s).map (fun x =>
        ⟨s.state.sequencer, (Step.final (perform r s)).state.sequencer, x⟩) ++
        moves rs (Step.final (perform r s))

@[simp] theorem moves_nil (s : Logged Store) : moves [] s = [] := rfl

theorem moves_cons (r : Request) (rs : List Request) (s : Logged Store) :
    moves (r :: rs) s =
      (r.ticked s).map (fun x =>
        ⟨s.state.sequencer, (Step.final (perform r s)).state.sequencer, x⟩) ++
        moves rs (Step.final (perform r s)) := rfl

theorem map_tick_moves (rs : List Request) (s : Logged Store) :
    (moves rs s).map Move.tick = history rs s := by
  induction rs generalizing s with
  | nil => rfl
  | cons r rs ih =>
      rw [moves_cons, history_cons, List.map_append, List.map_map, ih]
      exact congrArg (· ++ _) (List.map_id _)

/-- What a tick with these inputs does, if it is carried out. -/
def move (i : Inputs) (s : Store) : Move :=
  ⟨s.sequencer, (s.next i).sequencer, ⟨i, s.size⟩⟩

variable {c : Config} {s : Store}

/-- The three things that an answered request can have done, and what it has
reported. -/
theorem perform_of_isAnswer (h : s.WellFormed c) {r : Request} {log : Array Event}
    (ha : Step.IsAnswer (Step.outcome (perform r ⟨s, log⟩))) :
    ((∃ cause, perform r ⟨s, log⟩ = .error (.rejected cause) ⟨s, log⟩) ∧
      r.ticked ⟨s, log⟩ = []) ∨
      (∃ size, r = .resize size ∧ size ≤ s.depth ∧ s.sequencer.running = false ∧
        perform r ⟨s, log⟩ =
          .ok () ⟨{ s with size := size }, log.push (.resized s.size size)⟩ ∧
        r.ticked ⟨s, log⟩ = []) ∨
      ∃ i, r.inputs = some i ∧ s.Admits i ∧
        perform r ⟨s, log⟩ = .ok () ⟨s.next i, log ++ (s.events i).toArray⟩ ∧
        r.ticked ⟨s, log⟩ = [⟨i, s.size⟩] := by
  cases hr : r.inputs with
  | none =>
      cases r with
      | tick i => exact absurd hr (by simp [Request.inputs])
      | write w => exact absurd hr (by simp [Request.inputs])
      | resize size =>
          rcases resize_outcome size s log with ⟨⟨hle, hrunning⟩, hok⟩ | ⟨-, hrefused⟩
          · exact .inr (.inl ⟨size, rfl, hle, hrunning, hok, rfl⟩)
          · exact .inl ⟨hrefused, rfl⟩
  | some i =>
      rw [perform_of_inputs hr] at ha ⊢
      by_cases hi : s.Admits i
      · have htick := tick_of_isAnswer h hi ha
        exact .inr (.inr ⟨i, rfl, hi, htick, by simp only [Request.ticked, hr, htick]⟩)
      · obtain ⟨cause, herr⟩ := tick_of_not_admits hi log
        exact .inl ⟨⟨cause, herr⟩, by simp only [Request.ticked, hr, herr]⟩

/-- What every tick keeps as it is carried out and reported, and every change of the
size as it is reported, an answered run keeps. -/
theorem moves_induction {I : List Move → Logged Store → Prop} (ms : List Move)
    (h : s.WellFormed c) {log : Array Event} (hs : I ms ⟨s, log⟩)
    (hresize : ∀ ms s log size, I ms ⟨s, log⟩ →
      I ms ⟨{ s with size := size }, log.push (.resized s.size size)⟩)
    (hnext : ∀ ms s log i, s.WellFormed c → s.Admits i → I ms ⟨s, log⟩ →
      I (ms ++ [s.move i]) ⟨s.next i, log ++ (s.events i).toArray⟩)
    {rs : List Request} (ha : Step.Answered perform rs ⟨s, log⟩) :
    I (ms ++ moves rs ⟨s, log⟩) (Step.after perform rs ⟨s, log⟩) := by
  induction rs generalizing s ms log with
  | nil => simpa using hs
  | cons r rs ih =>
      obtain ⟨hr, hrs⟩ := (Step.answered_cons perform r rs ⟨s, log⟩).1 ha
      rw [moves_cons, Step.after_cons, ← List.append_assoc]
      rcases perform_of_isAnswer h hr with ⟨⟨cause, hperform⟩, hticked⟩ |
          ⟨size, rfl, hle, hrunning, hperform, hticked⟩ |
            ⟨i, -, hi, hperform, hticked⟩ <;>
        rw [hperform] at hrs ⊢ <;> rw [hticked]
      · rw [List.map_nil, List.append_nil]
        exact ih ms h hs hrs
      · rw [List.map_nil, List.append_nil]
        exact ih ms (h.resize (h.storeDepth_eq ▸ hle) hrunning)
          (hresize ms s log size hs) hrs
      · exact ih _ (h.next i) (hnext ms s log i h hi hs) hrs

theorem history_induction {I : List Ticked → Store → Prop} (ticks : List Ticked)
    (h : s.WellFormed c) (hs : I ticks s)
    (hresize : ∀ ticks s size, I ticks s → I ticks { s with size := size })
    (hnext : ∀ ticks s i, s.WellFormed c → s.Admits i → I ticks s →
      I (ticks ++ [⟨i, s.size⟩]) (s.next i))
    {rs : List Request} {log : Array Event} (ha : Step.Answered perform rs ⟨s, log⟩) :
    I (ticks ++ history rs ⟨s, log⟩) (Step.after perform rs ⟨s, log⟩).state := by
  rw [← map_tick_moves]
  refine moves_induction (I := fun ms t => I (ticks ++ ms.map Move.tick) t.state)
    [] h ?_ ?_ ?_ ha
  · rw [List.map_nil, List.append_nil]
    exact hs
  · exact fun ms s log size => hresize _ s size
  · intro ms s log i hwell hi hticks
    rw [List.map_append, ← List.append_assoc]
    exact hnext _ s i hwell hi hticks

end Store

end Wavefront
