import Mathlib.Data.List.Forall2
import Wavefront.Json.Basic

/-!
# The forms of a JSON value

A value is written in one way, but it may be read from more than what is written.
`Json.Form` says which forms those are, whatever the type of the value: the items of
an array may take forms of their own, a name may stand as the only key of an object,
and the fields of a record may be given in order without their names, or under their
names in any order and among other keys. In the latter case a null need not be given
at all.

Numbers, truth values and null have no form but themselves (`form_iff_of_isAtom`). A
record is in one of its forms when each of its fields is in one where `Json.fields?`
finds it (`form_object_iff`).
-/

namespace Wavefront

namespace Json

/-- The second value is a form of the first one, which is as it is written. -/
inductive Form : Json → Json → Prop
  | refl (written : Json) : Form written written
  | array {items items' : List Json} (h : List.Forall₂ Form items items') :
      Form (array items) (array items')
  | name (name : String) : Form (string name) (object [(name, null)])
  | ordered {fields : List (String × Json)} {items : List Json}
      (h : List.Forall₂ (fun field item => Form field.2 item) fields items) :
      Form (object fields) (array items)
  | keyed {fields fields' : List (String × Json)}
      (present : ∀ field ∈ fields, ∀ value, fields'.lookup field.1 = some value →
        Form field.2 value)
      (absent : ∀ field ∈ fields, fields'.lookup field.1 = none → field.2 = null) :
      Form (object fields) (object fields')

/-! ## Values that are not put together -/

def IsAtom : Json → Prop
  | null | bool _ | int _ | real _ => True
  | string _ | array _ | object _ => False

theorem form_iff_of_isAtom (written : Json) (h : written.IsAtom) (j : Json) :
    Form written j ↔ j = written := by
  constructor
  · intro hform
    cases hform with
    | refl => rfl
    | array | name | ordered | keyed => exact h.elim
  · rintro rfl
    exact .refl j

theorem form_null_right_iff (written : Json) : Form written null ↔ written = null := by
  constructor
  · intro hform
    cases hform
    rfl
  · rintro rfl
    exact .refl null

theorem bool?_eq_some_iff (j : Json) (b : Bool) :
    j.bool? = some b ↔ (bool b).Form j := by
  rw [form_iff_of_isAtom (bool b) trivial]
  cases j <;> simp [bool?]

theorem nat?_eq_some_iff (bound : Nat) (j : Json) (n : Nat) :
    j.nat? bound = some n ↔ n < bound ∧ (int n).Form j := by
  rw [form_iff_of_isAtom (int n) trivial]
  constructor
  · intro h
    unfold nat? at h
    split at h
    · simp only [Option.ite_none_right_eq_some, Option.some.injEq] at h
      obtain ⟨hlt, rfl⟩ := h
      exact ⟨hlt, rfl⟩
    · exact nomatch h
  · rintro ⟨hlt, rfl⟩
    exact nat?_of_lt hlt

/-! ## Names and arrays -/

theorem name?_eq_some_iff (j : Json) (name : String) :
    j.name? = some name ↔ (string name).Form j := by
  constructor
  · intro h
    unfold name? at h
    split at h
    · obtain rfl := Option.some.inj h
      exact .refl _
    · obtain rfl := Option.some.inj h
      exact .name _
    · exact nomatch h
  · intro hform
    cases hform <;> rfl

theorem form_array_iff (items : List Json) (j : Json) :
    Form (array items) j ↔
      ∃ items', j.items? = some items' ∧ List.Forall₂ Form items items' := by
  constructor
  · intro hform
    cases hform with
    | refl => exact ⟨items, rfl, List.forall₂_same.2 fun item _ => .refl item⟩
    | array h => exact ⟨_, rfl, h⟩
  · rintro ⟨items', hitems, h⟩
    cases j with
    | array items =>
        obtain rfl := Option.some.inj hitems
        exact .array h
    | null | bool _ | int _ | real _ | string _ | object _ => exact nomatch hitems

/-! ## Records -/

/-- The field is in one of its forms where it was found. A null need not be
found. -/
def Found (written : Json) : Option Json → Prop
  | some j => Form written j
  | none => written = null

theorem length_of_fields? {names : List String} {j : Json} {found : List (Option Json)}
    (h : j.fields? names = some found) : found.length = names.length := by
  cases j with
  | object fields =>
      obtain rfl := Option.some.inj h
      exact List.length_map _
  | array items =>
      simp only [fields?, Option.ite_none_right_eq_some, Option.some.injEq] at h
      obtain ⟨hlength, rfl⟩ := h
      rw [List.length_map, hlength]
  | null | bool _ | int _ | real _ | string _ => exact nomatch h

theorem lookup_eq_of_mem {fields : List (String × Json)}
    (h : (fields.map Prod.fst).Nodup) {field : String × Json}
    (hfield : field ∈ fields) : fields.lookup field.1 = some field.2 := by
  obtain ⟨before, after, rfl⟩ := List.append_of_mem hfield
  rw [List.map_append, List.nodup_append] at h
  refine List.lookup_eq_some_iff.2
    ⟨before, after, rfl, fun other hother => bne_iff_ne.2 fun heq => ?_⟩
  exact h.2.2 other.1 (List.mem_map_of_mem hother) field.1 (by simp) heq.symm

theorem form_object_object_iff {fields : List (String × Json)}
    (h : (fields.map Prod.fst).Nodup) (fields' : List (String × Json)) :
    Form (object fields) (object fields') ↔
      ∀ field ∈ fields, Found field.2 (fields'.lookup field.1) := by
  constructor
  · intro hform field hfield
    cases hform with
    | refl =>
        rw [lookup_eq_of_mem h hfield]
        exact .refl field.2
    | keyed present absent =>
        cases hlookup : fields'.lookup field.1 with
        | none => exact absent field hfield hlookup
        | some value => exact present field hfield value hlookup
  · intro hfound
    refine .keyed (fun field hfield value hlookup => ?_) fun field hfield hlookup => ?_
    · have hform := hfound field hfield
      rwa [hlookup] at hform
    · have hnull := hfound field hfield
      rwa [hlookup] at hnull

theorem form_object_array_iff (fields : List (String × Json)) (items : List Json) :
    Form (object fields) (array items) ↔
      List.Forall₂ (fun field item => Form field.2 item) fields items := by
  constructor
  · intro hform
    cases hform with
    | ordered h => exact h
  · exact .ordered

theorem form_object_iff {fields : List (String × Json)}
    (h : (fields.map Prod.fst).Nodup) (j : Json) :
    Form (object fields) j ↔ ∃ found, j.fields? (fields.map Prod.fst) = some found ∧
      List.Forall₂ (fun field => Found field.2) fields found := by
  cases j with
  | object fields' =>
      rw [form_object_object_iff h]
      simp [List.forall₂_map_right_iff, List.forall₂_same]
  | array items =>
      rw [form_object_array_iff]
      constructor
      · intro hitems
        refine ⟨items.map some, if_pos ?_, List.forall₂_map_right_iff.2 hitems⟩
        rw [List.length_map, hitems.length_eq]
      · rintro ⟨found, hfields, hfound⟩
        simp only [fields?, Option.ite_none_right_eq_some, Option.some.injEq] at hfields
        obtain ⟨-, rfl⟩ := hfields
        rwa [List.forall₂_map_right_iff] at hfound
  | null | bool _ | int _ | real _ | string _ =>
      constructor
      · nofun
      · rintro ⟨found, hfields, -⟩
        exact nomatch hfields

end Json

end Wavefront
