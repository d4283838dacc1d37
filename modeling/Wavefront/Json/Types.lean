import Wavefront.Config
import Wavefront.Bank.Usage
import Wavefront.Json.Codec
import Wavefront.Sequencer
import Wavefront.Trace.Basic

/-!
# The JSON forms of the library's types

Each type is written under its own field names, and read back from whatever
`Json.fields?` and `Json.name?` accept as its form. All fields must be there except
the write command of a tick's inputs.
-/

namespace Wavefront

instance : Encode Write :=
  ⟨fun w => .object [("store", encode w.bank), ("addr", encode w.address),
    ("data", encode w.data)]⟩

instance : Decode Write where
  decode? j := do
    let [bank, address, data] ← j.fields? ["store", "addr", "data"] | none
    return ⟨← Json.required bank, ← Json.required address, ← Json.required data⟩

instance : Encode Inputs :=
  ⟨fun i => .object [("write", encode i.write), ("start", encode i.start),
    ("reset", encode i.reset)]⟩

instance : Decode Inputs where
  decode? j := do
    let [write, start, reset] ← j.fields? ["write", "start", "reset"] | none
    return ⟨← Json.optional write, ← Json.required start, ← Json.required reset⟩

namespace Phase

def name : Phase → String
  | idle => "Idle"
  | priming => "Priming"
  | streaming => "Streaming"

def ofName? (name : String) : Option Phase :=
  [idle, priming, streaming].find? fun p => p.name == name

@[simp] theorem ofName?_name (p : Phase) : ofName? p.name = some p := by
  cases p <;> decide

end Phase

instance : Encode Phase := ⟨fun p => .string p.name⟩

instance : Decode Phase := ⟨fun j => j.name?.bind Phase.ofName?⟩

namespace Concurrency

def name : Concurrency → String
  | sequential => "Sequential"
  | parallel => "Rayon"

def ofName? (name : String) : Option Concurrency :=
  [sequential, parallel].find? fun c => c.name == name

@[simp] theorem ofName?_name (c : Concurrency) : ofName? c.name = some c := by
  cases c <;> decide

end Concurrency

instance : Encode Concurrency := ⟨fun c => .string c.name⟩

instance : Decode Concurrency := ⟨fun j => j.name?.bind Concurrency.ofName?⟩

instance : Encode Config where
  encode c := .object
    [("num_banks", encode c.banks), ("depth", encode c.depth),
      ("concurrency_mode", encode c.concurrency), ("trace_enabled", encode c.traced)]

instance : Decode Config where
  decode? j := do
    let [banks, depth, concurrency, traced] ←
      j.fields? ["num_banks", "depth", "concurrency_mode", "trace_enabled"] | none
    return ⟨← Json.required banks, ← Json.required depth, ← Json.required concurrency,
      ← Json.required traced⟩

instance : Encode Sequencer :=
  ⟨fun s => .object [("position", encode s.position), ("running", encode s.running)]⟩

instance : Decode Sequencer where
  decode? j := do
    let [position, running] ← j.fields? ["position", "running"] | none
    return ⟨← Json.required position, ← Json.required running⟩

instance : Encode Usage where
  encode u := .object
    [("total_addresses", encode u.total), ("active_addresses", encode u.active),
      ("memory_usage_bytes", encode u.bytes), ("read_count", encode u.reads),
      ("write_count", encode u.writes)]

instance : Encode Record where
  encode r := .object
    [("cycle", encode r.cycle), ("phase", encode r.phase),
      ("position", encode r.position), ("running", encode r.running),
      ("addresses", encode r.addresses), ("values_out", encode r.outputs)]

instance : Decode Record where
  decode? j := do
    let [cycle, phase, position, running, addresses, outputs] ←
      j.fields? ["cycle", "phase", "position", "running", "addresses", "values_out"]
      | none
    return ⟨← Json.required cycle, ← Json.required phase, ← Json.required position,
      ← Json.required running, ← Json.required addresses, ← Json.required outputs⟩

instance : Encode Trace := ⟨fun t => .object [("records", encode t.toList)]⟩

instance : Decode Trace where
  decode? j := do
    let [records] ← j.fields? ["records"] | none
    let records : List Record ← Json.required records
    return ⟨records.toArray⟩

end Wavefront
