import Wavefront.Json.Types
import Wavefront.Proofs.Json.Faithful

/-!
# The library's types and their JSON

Every type of the library that can be read is `Faithful`, on the ground of what it
is put together from: a record fits if all of its fields do. Fields in another order
than they are written in, fields without their names and keys that are no fields
make no difference to what is read, as `Faithful.of_fields` shows once and for all
of them. What is left for each record is that it has its own fields under its own
names.
-/

namespace Wavefront

/-! ## Enumerations -/

instance : Sized Phase := ⟨fun _ => True⟩

instance : Sized Concurrency := ⟨fun _ => True⟩

instance : Present Phase := ⟨nofun⟩

instance : Present Concurrency := ⟨nofun⟩

instance : Faithful Phase :=
  .of_names (fun _ => rfl) (fun _ => rfl) (fun _ => trivial) Phase.ofName?_name

instance : Faithful Concurrency :=
  .of_names (fun _ => rfl) (fun _ => rfl) (fun _ => trivial) Concurrency.ofName?_name

/-! ## Records -/

instance : Sized Write := ⟨fun w => Fits w.bank ∧ Fits w.address ∧ Fits w.data⟩

instance : Sized Inputs := ⟨fun i => Fits i.write ∧ Fits i.start ∧ Fits i.reset⟩

instance : Sized Config :=
  ⟨fun c => Fits c.banks ∧ Fits c.depth ∧ Fits c.concurrency ∧ Fits c.traced⟩

instance : Sized Sequencer := ⟨fun s => Fits s.position ∧ Fits s.running⟩

instance : Sized Record where
  Fits r := Fits r.cycle ∧ Fits r.phase ∧ Fits r.position ∧ Fits r.running ∧
    Fits r.addresses ∧ Fits r.outputs

instance : Sized Trace := ⟨fun t => Fits t.toList⟩

instance : Present Write := ⟨nofun⟩

-- In what follows the fields that were found are read one after the other. A record
-- comes out if each of them is in a form of the field that is written for it, and
-- what remains is to collect the bounds of the fields.

instance : Faithful Write := by
  refine .of_fields (fun _ => rfl) (fun _ => rfl) (fun _ => rfl) (by decide)
    fun found w hlength => ?_
  obtain ⟨b, a, d⟩ := w
  match found, hlength with
  | [bank, address, data], _ =>
      simp [Option.bind_eq_some_iff, Fits, and_assoc, and_left_comm]

instance : Faithful Inputs := by
  refine .of_fields (fun _ => rfl) (fun _ => rfl) (fun _ => rfl) (by decide)
    fun found i hlength => ?_
  obtain ⟨w, s, r⟩ := i
  match found, hlength with
  | [write, start, reset], _ =>
      simp [Option.bind_eq_some_iff, Fits, and_assoc, and_left_comm]

instance : Faithful Config := by
  refine .of_fields (fun _ => rfl) (fun _ => rfl) (fun _ => rfl) (by decide)
    fun found c hlength => ?_
  obtain ⟨b, d, m, t⟩ := c
  match found, hlength with
  | [banks, depth, concurrency, traced], _ =>
      simp [Option.bind_eq_some_iff, Fits, and_assoc, and_left_comm]

instance : Faithful Sequencer := by
  refine .of_fields (fun _ => rfl) (fun _ => rfl) (fun _ => rfl) (by decide)
    fun found s hlength => ?_
  obtain ⟨p, r⟩ := s
  match found, hlength with
  | [position, running], _ =>
      simp [Option.bind_eq_some_iff, Fits, and_assoc, and_left_comm]

instance : Faithful Record := by
  refine .of_fields (fun _ => rfl) (fun _ => rfl) (fun _ => rfl) (by decide)
    fun found r hlength => ?_
  obtain ⟨n, ph, po, ru, as, os⟩ := r
  match found, hlength with
  | [cycle, phase, position, running, addresses, outputs], _ =>
      simp [Option.bind_eq_some_iff, Fits, and_assoc, and_left_comm]

theorem Trace.mk_toArray_eq_iff (records : List Record) (t : Trace) :
    Trace.mk records.toArray = t ↔ records = t.toList := by
  constructor
  · rintro rfl
    rfl
  · rintro rfl
    exact eq_of_toList_eq rfl

instance : Faithful Trace := by
  refine .of_fields (fun _ => rfl) (fun _ => rfl) (fun _ => rfl) (by decide)
    fun found t hlength => ?_
  match found, hlength with
  | [records], _ => simp [Option.bind_eq_some_iff, Trace.mk_toArray_eq_iff, Fits]

end Wavefront
