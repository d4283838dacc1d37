/-!
# JSON values

`Json` is the tree of a JSON document. Integers are kept apart from numbers written
with a fraction or an exponent: no quantity of this library is ever read from the
latter.

A record is written as an object. It may be read from an object, in which keys that
are not fields are passed over, or from an array that gives all fields in order;
`Json.fields?` covers both. An enumeration is written as the name of its value and
may also be read from an object whose only key is that name, with the value null;
this is `Json.name?`.
-/

namespace Wavefront

inductive Json where
  | null
  | bool (value : Bool)
  | int (value : Int)
  /-- A number written with a fraction or an exponent, as it is written. -/
  | real (literal : String)
  | string (value : String)
  | array (items : List Json)
  | object (fields : List (String × Json))

namespace Json

def bool? : Json → Option Bool
  | bool b => some b
  | _ => none

def nat? (bound : Nat) : Json → Option Nat
  | int (.ofNat n) => if n < bound then some n else none
  | _ => none

def items? : Json → Option (List Json)
  | array items => some items
  | _ => none

/-- The fields of a record, each absent where an object does not have it. -/
def fields? (names : List String) : Json → Option (List (Option Json))
  | object fields => some (names.map fun name => fields.lookup name)
  | array items => if items.length = names.length then some (items.map some) else none
  | _ => none

def name? : Json → Option String
  | string name => some name
  | object [(name, null)] => some name
  | _ => none

@[simp] theorem bool?_bool (b : Bool) : bool? (bool b) = some b := rfl

theorem nat?_of_lt {bound n : Nat} (h : n < bound) :
    nat? bound (int n) = some n :=
  if_pos h

@[simp] theorem items?_array (items : List Json) :
    items? (array items) = some items :=
  rfl

@[simp] theorem fields?_object (names : List String) (fields : List (String × Json)) :
    fields? names (object fields) =
      some (names.map fun name => fields.lookup name) := rfl

@[simp] theorem name?_string (name : String) : name? (string name) = some name := rfl

end Json

end Wavefront
