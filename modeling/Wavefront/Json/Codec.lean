import Wavefront.Arith.Checked
import Wavefront.Inputs
import Wavefront.Json.Basic

/-!
# Writing and reading values as JSON

`Encode` writes a value and `Decode` reads one, or refuses. This module covers the
values that the library's types are put together from: quantities of 64 bits, words
of 32 bits, truth values, values that may be absent, and lists. An absent value is
written as null.
-/

namespace Wavefront

class Encode (α : Type) where
  encode : α → Json

class Decode (α : Type) where
  decode? : Json → Option α

export Encode (encode)
export Decode (decode?)

namespace Json

variable {α : Type}

def required [Decode α] (field : Option Json) : Option α := field.bind decode?

/-- A field whose value may be absent, and which then may be missing altogether. -/
def optional [Decode (Option α)] : Option Json → Option (Option α)
  | none => some none
  | some value => decode? value

@[simp] theorem required_some [Decode α] (value : Json) :
    (required (some value) : Option α) = decode? value := rfl

@[simp] theorem optional_some [Decode (Option α)] (value : Json) :
    (optional (some value) : Option (Option α)) = decode? value := rfl

end Json

instance : Encode Nat := ⟨fun n => .int n⟩

instance : Decode Nat := ⟨Json.nat? Checked.limit⟩

instance : Encode Word := ⟨fun w => .int w.toNat⟩

instance : Decode Word := ⟨fun j => (j.nat? UInt32.size).map UInt32.ofNat⟩

instance : Encode Bool := ⟨.bool⟩

instance : Decode Bool := ⟨Json.bool?⟩

instance {α : Type} [Encode α] : Encode (Option α) := ⟨fun x => x.elim .null encode⟩

instance {α : Type} [Decode α] : Decode (Option α) where
  decode?
    | .null => some none
    | j => (decode? j).map some

instance {α : Type} [Encode α] : Encode (List α) := ⟨fun xs => .array (xs.map encode)⟩

instance {α : Type} [Decode α] : Decode (List α) :=
  ⟨fun j => j.items?.bind fun xs => xs.mapM decode?⟩

end Wavefront
