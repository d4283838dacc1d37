import Mathlib.Data.List.Induction
import Wavefront.Proofs.Engine.Run
import Wavefront.Proofs.Layout.Placement

/-!
# Loading a filter

A filter that does not fit is refused (`load_of_lt`), and one that fits if the block
is running (`load_of_running`); either way nothing has changed. Otherwise it is
loaded: its write commands are queued and the block is set to the number of its rows
(`load_of_stopped`). Once the commands have been carried out, the word
`address * banks + bank` of the filter is the one that was written last at an
address of a bank (`lastWrite_writes`).
-/

namespace Wavefront

def Config.layout (c : Config) : Layout := ⟨c.banks, c.depth⟩

def Layout.writes (l : Layout) (words : List Word) : List Inputs :=
  (words.mapIdx l.place).map Inputs.ofWrite

@[simp] theorem Layout.length_writes (l : Layout) (words : List Word) :
    (l.writes words).length = words.length := by
  simp [writes]

theorem Layout.mem_writes {l : Layout} {words : List Word} {i : Inputs}
    (hi : i ∈ l.writes words) :
    ∃ w < words.length, ∃ data, i = .ofWrite (l.place w data) := by
  rw [writes, List.mem_map] at hi
  obtain ⟨command, hcommand, rfl⟩ := hi
  obtain ⟨w, hw, rfl⟩ := List.mem_mapIdx.1 hcommand
  exact ⟨w, hw, words[w], rfl⟩

theorem Inputs.filterMap_ofWrite (ws : List Write) :
    (ws.map Inputs.ofWrite).filterMap Inputs.write = ws := by
  rw [List.filterMap_map]
  exact List.filterMap_some

theorem Layout.filterMap_writes (l : Layout) (words : List Word) :
    (l.writes words).filterMap Inputs.write = words.mapIdx l.place := by
  rw [writes, Inputs.filterMap_ofWrite]

theorem Layout.lastWrite_writes {l : Layout} {bank : Nat} (hb : bank < l.banks)
    (address : Nat) (words : List Word) :
    Store.lastWrite bank address (l.writes words) =
      words[address * l.banks + bank]? := by
  induction words using List.reverseRecOn with
  | nil => rfl
  | append_singleton words data ih =>
      -- The last word of the filter is also the last to be written.
      have hsplit : l.writes (words ++ [data]) =
          l.writes words ++ [.ofWrite (l.place words.length data)] := by
        simp [writes]
      have hplace := place_eq_iff hb words.length address data
      rw [hsplit, Store.lastWrite_append, ih, Store.lastWrite_cons, Store.lastWrite_nil,
        Option.none_or]
      by_cases hw : words.length = address * l.banks + bank
      · have hhit := hplace.2 hw
        simp [Inputs.ofWrite, Option.filter, hhit, ← hw]
      · have hmiss := mt hplace.1 hw
        simp only [Inputs.ofWrite, Option.filter, hmiss, decide_false,
          Bool.false_eq_true, if_false, Option.map_none, Option.none_or]
        rcases Nat.lt_or_ge (address * l.banks + bank) words.length with hlt | hge
        · rw [List.getElem?_append_left hlt]
        · rw [List.getElem?_eq_none hge, List.getElem?_eq_none]
          rw [List.length_append, List.length_singleton]
          omega

namespace Engine

variable {c : Config} {e : Engine}

theorem layout_eq (h : e.store.WellFormed c) : e.layout = c.layout := by
  rw [layout, h.width_eq, h.storeDepth_eq]
  rfl

def loaded (c : Config) (words : List Word) (e : Engine) : Engine :=
  { e with
    store := { e.store with size := c.layout.rows words.length }
    queue := e.queue ++ c.layout.writes words }

theorem pending_loaded (c : Config) (words : List Word) (e : Engine) :
    (e.loaded c words).pending = words.length + e.queue.length := by
  show (e.queue ++ c.layout.writes words).length = _
  rw [List.length_append, Layout.length_writes, Nat.add_comm]

variable {words : List Word}

theorem rows_le_depth (hb : 0 < c.banks) (hw : words.length ≤ c.banks * c.depth) :
    c.layout.rows words.length ≤ c.depth :=
  (Layout.rows_le_iff hb).2 hw

theorem wellFormed_loaded (h : e.store.WellFormed c)
    (hr : e.store.sequencer.running = false) (hw : words.length ≤ c.banks * c.depth) :
    (e.loaded c words).store.WellFormed c :=
  h.resize (rows_le_depth h.buildable.banks_pos hw) hr

theorem admits_writes {s : Store} (h : s.WellFormed c)
    (hw : words.length ≤ c.banks * c.depth) :
    ∀ i ∈ c.layout.writes words, s.Admits i := by
  intro i hi
  obtain ⟨w, hlt, data, rfl⟩ := Layout.mem_writes hi
  have hb : 0 < c.layout.banks := h.buildable.banks_pos
  rw [Store.admits_iff h]
  intro command hcommand
  obtain rfl : c.layout.place w data = command := Option.some.inj hcommand
  refine ⟨Layout.bank_place_lt hb w data, ?_⟩
  exact Nat.lt_of_lt_of_le (Layout.address_place_lt hb hlt data)
    (rows_le_depth h.buildable.banks_pos hw)

theorem admits_loaded (h : e.store.WellFormed c) (hq : ∀ i ∈ e.queue, e.store.Admits i)
    (hw : words.length ≤ c.banks * c.depth) :
    ∀ i ∈ (e.loaded c words).queue, (e.loaded c words).store.Admits i := by
  show ∀ i ∈ e.queue ++ c.layout.writes words, e.store.Admits i
  exact List.forall_mem_append.2 ⟨hq, admits_writes h hw⟩

theorem load_layout_of_le (h : e.store.WellFormed c)
    (hc : c.banks * c.depth < Checked.limit) (hw : words.length ≤ c.banks * c.depth) :
    e.layout.load words =
      .ok ⟨words.mapIdx c.layout.place, c.layout.rows words.length⟩ ∧
      c.layout.rows words.length ≤ e.store.depth := by
  rw [layout_eq h, h.storeDepth_eq]
  exact ⟨Layout.load_of_le (Nat.ne_of_gt h.buildable.banks_pos) hc hw,
    rows_le_depth h.buildable.banks_pos hw⟩

theorem load_of_lt (h : e.store.WellFormed c) (hc : c.banks * c.depth < Checked.limit)
    (hw : c.banks * c.depth < words.length) (log : Array Event) :
    load words ⟨e, log⟩ =
      .error (.rejected (.filterTooLarge words.length (c.banks * c.depth)))
        ⟨e, log⟩ := by
  have hload : e.layout.load words =
      .error (.rejected (.filterTooLarge words.length (c.banks * c.depth))) := by
    rw [layout_eq h]
    exact Layout.load_of_lt (Nat.ne_of_gt h.buildable.banks_pos) hc hw
  simp only [load, Step.bind_apply, Step.query_apply, hload]

theorem load_of_running (h : e.store.WellFormed c)
    (hr : e.store.sequencer.running = true) (hc : c.banks * c.depth < Checked.limit)
    (hw : words.length ≤ c.banks * c.depth) (log : Array Event) :
    load words ⟨e, log⟩ = .error (.rejected .sizeChangeWhileRunning) ⟨e, log⟩ := by
  obtain ⟨hload, hsize⟩ := load_layout_of_le h hc hw
  have hresize := Store.resize_of_running hsize hr log
  simp only [load, Step.bind_apply, Step.query_apply, hload, onStore, Step.within_apply,
    takeStore, hresize]

theorem load_of_stopped (h : e.store.WellFormed c)
    (hr : e.store.sequencer.running = false) (hc : c.banks * c.depth < Checked.limit)
    (hw : words.length ≤ c.banks * c.depth) (log : Array Event) :
    ∃ log', load words ⟨e, log⟩ =
      .ok (c.layout.rows words.length) ⟨e.loaded c words, log'⟩ := by
  obtain ⟨hload, hsize⟩ := load_layout_of_le h hc hw
  have hresize := Store.resize_of_stopped hsize hr log
  refine ⟨(log.push (.resized e.store.size (c.layout.rows words.length))).push
    (.queued (words.mapIdx c.layout.place).length (c.layout.rows words.length)), ?_⟩
  simp only [load, Step.bind_apply, Step.query_apply, hload, onStore, Step.within_apply,
    takeStore, hresize, Step.emit_apply, Step.update_apply, Step.pure_apply]
  rfl

end Engine

end Wavefront
