import Wavefront.Proofs.Engine.InRange
import Wavefront.Trace.Parting

/-!
# What is stored is read back unchanged

`ReadsBack` says of a type what its JSON is good for: what is written for a value is
read as this value, and a value that was read from some other form of it loses
nothing when it is written in turn. Both come from the law of `Faithful`. A trace
that is stored and read again is therefore the same trace, and does not part from
the one it was stored from.
-/

namespace Wavefront

/-- The values of a type are kept by their JSON. -/
structure ReadsBack (α : Type) [Encode α] [Decode α] [Sized α] : Prop where
  /-- What is written for a value that fits is read as this value. -/
  written : ∀ a : α, Fits a → decode? (encode a) = some a
  /-- The forms of what is written for values that fit are accepted, and nothing
  else is. -/
  accepted : ∀ (j : Json) (a : α), decode? j = some a ↔ Fits a ∧ (encode a).Form j
  /-- Whatever a value was read from, what is written for it is read as this value
  again. -/
  again : ∀ (j : Json) (a : α), decode? j = some a → decode? (encode a) = some a

theorem Faithful.readsBack {α : Type} [Encode α] [Decode α] [Sized α] [Faithful α] :
    ReadsBack α where
  written _ h := decode?_encode h
  accepted := decode?_eq_some_iff
  again _ _ h := decode?_encode (fits h)

/-- Storing keeps commands, inputs, configurations, the registers of the sequencer,
records and traces: they are read back from what is written for them, however long
the lists in them are, as long as their quantities fit. They are read from other
forms as well, and what has been read is kept from then on. So a trace that fits
never parts from what is read back of it, whichever of the two is compared with the
other, and every trace that an engine records fits. -/
theorem read_back_unchanged :
    (ReadsBack Write ∧ ReadsBack Inputs ∧ ReadsBack Config ∧ ReadsBack Sequencer ∧
      ReadsBack Record ∧ ReadsBack Trace) ∧
      (∀ t : Trace, Fits t →
        ∃ u, decode? (encode t) = some u ∧ t.partsAt? u = none ∧ u.partsAt? t = none) ∧
      ∀ (c : Config) (s : Logged Engine), Engine.Reachable c s →
        ∀ t ∈ s.state.trace, Fits t := by
  refine ⟨⟨Faithful.readsBack, Faithful.readsBack, Faithful.readsBack,
    Faithful.readsBack, Faithful.readsBack, Faithful.readsBack⟩,
    fun t ht => ?_, fun c s hs => hs.inRange.fits⟩
  have hsame : t.partsAt? t = none := (Trace.partsAt?_eq_none_iff t t).2 rfl
  exact ⟨t, Faithful.decode?_encode ht, hsame, hsame⟩

/-- A configuration and a trace at the limits of their quantities and inputs without
a command, none of them as it is written: keys in another order and keys that are no
fields, fields without their names, and names as keys. -/
theorem other_forms_read_back :
    let geometry : Json :=
      .object [("trace_enabled", .bool true), ("comment", .string "big"),
        ("concurrency_mode", .object [("Rayon", .null)]),
        ("depth", .int 0xffffffffffffffff), ("num_banks", .int 0)]
    let start : Json := .object [("reset", .bool false), ("start", .bool true)]
    let stored : Json :=
      .object [("version", .int 2),
        ("records", .array
          [.array [.int 0xffffffffffffffff, .object [("Streaming", .null)], .int 2,
            .bool true, .array [.int 2, .null], .array [.int 0xffffffff, .int 7]]])]
    let c : Config := ⟨0, 0xffffffffffffffff, .parallel, true⟩
    let i : Inputs := ⟨none, true, false⟩
    let t : Trace :=
      ⟨#[⟨0xffffffffffffffff, .streaming, 2, true, [some 2, none], [0xffffffff, 7]⟩]⟩
    (decode? geometry = some c ∧ decode? (encode c) = some c) ∧
      (decode? start = some i ∧ decode? (encode i) = some i) ∧
      decode? stored = some t ∧
        ∃ u, decode? (encode t) = some u ∧ t.partsAt? u = none ∧
          u.partsAt? t = none := by
  intro geometry start stored c i t
  obtain ⟨⟨-, hinputs, hconfig, -, -, htrace⟩, hparts, -⟩ := read_back_unchanged
  have hc : decode? geometry = some c := by decide
  have hi : decode? start = some i := by decide
  have ht : decode? stored = some t := by decide
  exact ⟨⟨hc, hconfig.again _ _ hc⟩, ⟨hi, hinputs.again _ _ hi⟩, ht,
    hparts t ((htrace.accepted _ _).1 ht).1⟩

end Wavefront
