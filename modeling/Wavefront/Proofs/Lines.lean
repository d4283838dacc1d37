import Mathlib.Data.List.Infix
import Wavefront.Event

/-!
# The lines of a log

`line_eq` has the wording of every line in full. A log shows lines and no events, so
the kind of event that a line is about can only be read off its beginning. All lines
of a kind begin with the same words, `Kind.opening`, and the openings are a prefix
code (`Kind.eq_of_prefix`). So a line opens like one kind only, that of its event
(`opens_line`), and looking for the lines that open like a kind finds the lines of
its events, all of them and in order (`filter_opens`).
-/

namespace Wavefront

namespace Event

/-- The digits that a word is written with, the highest place first. -/
def digits (data : Word) : String :=
  String.ofList
    ([0x10000000, 0x1000000, 0x100000, 0x10000, 0x1000, 0x100, 0x10, 1].map fun place =>
      (data.toNat / place % 16).digitChar)

theorem hex_toNat (data : Word) : Text.hex 8 data.toNat = "0x" ++ digits data := by
  have hhighest : data.toNat / 0x10000000 < 16 := Nat.div_lt_of_lt_mul data.toNat_lt
  simp only [Text.hex, Text.hexDigits_add_two, Nat.div_div_eq_div_mul, Nat.reduceMul]
  rw [Text.hexDigits_of_lt hhighest, digits]
  simp [Nat.mod_eq_of_lt hhighest]

/-- What a log says of an event. -/
theorem line_eq (e : Event) :
    e.line =
      match e with
      | resized a b => s!"DEBUG filter store: size {a} -> {b}"
      | reset ⟨p, r⟩ => s!"INFO filter store: reset at position {p} (running: {r})"
      | started size lanes =>
          s!"INFO filter store: start, streaming {size} words across {lanes} banks"
      | startedEmpty =>
          "WARN filter store: start with size 0, read ports stay idle and lanes hold"
      | routed ⟨b, a, data⟩ =>
          s!"TRACE write demux: bank {b} addr {a} <- 0x{digits data}"
      | moved ⟨p, r⟩ ⟨q, t⟩ =>
          s!"DEBUG filter store: position {p} -> {q}, running {r} -> {t}"
      | cycle number => s!"DEBUG === Filter Cycle {number} ==="
      | queued writes size =>
          s!"DEBUG cycle engine: queued {writes} filter writes, size {size}" := by
  -- Only what stands in the braces is not literal text, and the level joins on to
  -- what is.
  have hliteral : ∀ s : String, toString s = s := fun _ => rfl
  have hmark : " <- 0x" = " <- " ++ "0x" := by decide +kernel
  unfold line text level Level.label
  cases e with
  | routed w =>
      simp only [hliteral, hex_toNat, ← String.append_assoc, String.reduceAppend]
      rw [hmark, ← String.append_assoc]
  | _ => simp only [hliteral, ← String.append_assoc, String.reduceAppend]

/-- What an event is about, without what it says about it. -/
inductive Kind where
  | resized
  | reset
  | started
  | startedEmpty
  | routed
  | moved
  | cycle
  | queued
deriving DecidableEq

def kind : Event → Kind
  | resized _ _ => .resized
  | reset _ => .reset
  | started _ _ => .started
  | startedEmpty => .startedEmpty
  | routed _ => .routed
  | moved _ _ => .moved
  | cycle _ => .cycle
  | queued _ _ => .queued

namespace Kind

/-- The words that begin every line of the kind. -/
def opening : Kind → String
  | resized => "DEBUG filter store: size "
  | reset => "INFO filter store: reset at position "
  | started => "INFO filter store: start, streaming "
  | startedEmpty => "WARN filter store: start with size 0"
  | routed => "TRACE write demux: bank "
  | moved => "DEBUG filter store: position "
  | cycle => "DEBUG === Filter Cycle "
  | queued => "DEBUG cycle engine: queued "

def opens (k : Kind) (line : String) : Bool := line.startsWith k.opening

def all : List Kind :=
  [resized, reset, started, startedEmpty, routed, moved, cycle, queued]

theorem mem_all (k : Kind) : k ∈ all := by
  cases k <;> decide

/-- No opening begins another one. -/
theorem eq_of_prefix {k k' : Kind} (h : k.opening.toList <+: k'.opening.toList) :
    k = k' := by
  have hcode : ∀ k ∈ all, ∀ k' ∈ all, k.opening.toList <+: k'.opening.toList →
      k = k' := by
    decide +kernel
  exact hcode k k.mem_all k' k'.mem_all h

end Kind

theorem line_eq_opening_append (e : Event) :
    ∃ rest, e.line = e.kind.opening ++ rest := by
  rw [line_eq]
  cases e with
  | startedEmpty => exact ⟨", read ports stay idle and lanes hold", by decide +kernel⟩
  | _ =>
      -- The line is put together from strings, of which the opening is the first.
      simp only [String.append_assoc]
      exact ⟨_, rfl⟩

theorem opens_line (k : Kind) (e : Event) : k.opens e.line = decide (e.kind = k) := by
  obtain ⟨rest, hrest⟩ := e.line_eq_opening_append
  have hline : e.line.toList = e.kind.opening.toList ++ rest.toList := by
    rw [hrest, String.toList_append]
  have hkind : e.kind.opening.toList <+: e.line.toList := ⟨rest.toList, hline.symm⟩
  rw [Bool.eq_iff_iff, Kind.opens, String.startsWith_string_iff, decide_eq_true_eq]
  constructor
  · intro hk
    rcases List.prefix_or_prefix_of_prefix hkind hk with h | h
    · exact Kind.eq_of_prefix h
    · exact (Kind.eq_of_prefix h).symm
  · rintro rfl
    exact hkind

theorem filter_opens (k : Kind) (events : List Event) :
    (events.map line).filter k.opens =
      (events.filter fun e => e.kind = k).map line := by
  rw [List.filter_map]
  congr 1
  exact List.filter_congr fun e _ => opens_line k e

theorem countP_opens (k : Kind) (events : List Event) :
    (events.map line).countP k.opens = events.countP fun e => e.kind = k := by
  rw [List.countP_map]
  exact List.countP_congr fun e _ => by rw [Function.comp_apply, opens_line]

end Event

end Wavefront
