import Wavefront.Json.Codec
import Wavefront.Proofs.Json.Form

/-!
# Reading and writing keep values

Quantities are natural numbers, but only those below `Checked.limit` are ever read.
`Fits` says of a value that all of its quantities are among them. `Faithful` is the
law that ties reading to writing: a value is read from precisely the forms of what
is written for it, provided that it fits. From this law alone it follows that a
value that fits is read back (`Faithful.decode?_encode`) and that whatever is read
fits (`Faithful.fits`).

The law holds of the values that the library's types are put together from, and it
is handed on to values that may be absent, to lists, to enumerations
(`Faithful.of_names`) and to records (`Faithful.of_fields`). An absent value is
written as null; it can be told from one that is there since nothing else is
(`Present`).
-/

namespace Wavefront

/-- Types with the values whose quantities can all be read. -/
class Sized (α : Type) where
  Fits : α → Prop

export Sized (Fits)

/-- A value is read from the forms of what is written for it, and from nothing
else. -/
class Faithful (α : Type) [Encode α] [Decode α] [Sized α] : Prop where
  decode?_eq_some_iff : ∀ (j : Json) (a : α), decode? j = some a ↔
    Fits a ∧ (encode a).Form j

class Present (α : Type) [Encode α] : Prop where
  encode_ne_null : ∀ a : α, encode a ≠ .null

namespace Faithful

variable {α : Type} [Encode α] [Decode α] [Sized α] [Faithful α]

theorem decode?_encode {a : α} (h : Fits a) : decode? (encode a) = some a :=
  (decode?_eq_some_iff _ a).2 ⟨h, .refl _⟩

theorem fits {j : Json} {a : α} (h : decode? j = some a) : Fits a :=
  ((decode?_eq_some_iff j a).1 h).1

end Faithful

/-! ## Quantities, words and truth values -/

instance : Sized Nat := ⟨fun n => n < Checked.limit⟩

instance : Sized Word := ⟨fun _ => True⟩

instance : Sized Bool := ⟨fun _ => True⟩

instance : Present Nat := ⟨nofun⟩

instance : Present Word := ⟨nofun⟩

instance : Present Bool := ⟨nofun⟩

instance : Faithful Nat := ⟨Json.nat?_eq_some_iff Checked.limit⟩

instance : Faithful Word where
  decode?_eq_some_iff j w := by
    show (j.nat? UInt32.size).map UInt32.ofNat = some w ↔
      True ∧ (Json.int w.toNat).Form j
    rw [Option.map_eq_some_iff, true_and]
    constructor
    · rintro ⟨n, hn, rfl⟩
      obtain ⟨hlt, hform⟩ := (Json.nat?_eq_some_iff _ j n).1 hn
      rwa [UInt32.toNat_ofNat_of_lt' hlt]
    · intro hform
      exact ⟨w.toNat, (Json.nat?_eq_some_iff _ j _).2 ⟨w.toNat_lt, hform⟩,
        UInt32.ofNat_toNat⟩

instance : Faithful Bool where
  decode?_eq_some_iff j b := by
    show j.bool? = some b ↔ True ∧ (Json.bool b).Form j
    rw [Json.bool?_eq_some_iff, true_and]

/-! ## Values that may be absent, and lists -/

instance {α : Type} [Sized α] : Sized (Option α) := ⟨fun o => ∀ a ∈ o, Fits a⟩

instance {α : Type} [Sized α] : Sized (List α) := ⟨fun as => ∀ a ∈ as, Fits a⟩

instance {α : Type} [Encode α] : Present (List α) := ⟨nofun⟩

theorem decode?_option_null {α : Type} [Decode α] :
    (decode? .null : Option (Option α)) = some none := rfl

theorem decode?_option {α : Type} [Decode α] {j : Json} (h : j ≠ .null) :
    (decode? j : Option (Option α)) = (decode? j).map some := by
  cases j with
  | null => exact absurd rfl h
  | bool _ | int _ | real _ | string _ | array _ | object _ => rfl

section

variable {α : Type} [Encode α] [Decode α] [Sized α] [Faithful α]

instance [Present α] : Faithful (Option α) where
  decode?_eq_some_iff j o := by
    -- Null is read before anything else, and so it must not be a form of a value
    -- that is there.
    by_cases hj : j = .null
    · subst hj
      rw [decode?_option_null, Json.form_null_right_iff]
      cases o with
      | none => simp [Fits, encode]
      | some a =>
          have hne : encode (some a) ≠ .null := Present.encode_ne_null a
          simp [hne]
    · rw [decode?_option hj]
      cases o with
      | none =>
          show _ ↔ (∀ a ∈ none, Fits a) ∧ Json.Form .null j
          simp [Json.form_iff_of_isAtom .null trivial, hj]
      | some a =>
          show _ ↔ (∀ b ∈ some a, Fits b) ∧ (encode a).Form j
          simp [Faithful.decode?_eq_some_iff]

theorem mapM_decode?_eq_some_iff (items : List Json) (as : List α) :
    items.mapM decode? = some as ↔
      (∀ a ∈ as, Fits a) ∧ List.Forall₂ Json.Form (as.map encode) items := by
  induction items generalizing as with
  | nil => cases as <;> simp
  | cons item items ih =>
      cases as with
      | nil => simp [List.mapM_cons, Option.bind_eq_some_iff]
      | cons a as =>
          simp only [List.mapM_cons, Option.bind_eq_bind, Option.bind_eq_some_iff,
            Option.pure_def, Option.some.injEq, List.cons.injEq, ih,
            Faithful.decode?_eq_some_iff, List.forall_mem_cons, List.map_cons,
            List.forall₂_cons]
          constructor
          · rintro ⟨_, ⟨hfits, hform⟩, _, ⟨hfits', hforms⟩, rfl, rfl⟩
            exact ⟨⟨hfits, hfits'⟩, hform, hforms⟩
          · rintro ⟨⟨hfits, hfits'⟩, hform, hforms⟩
            exact ⟨a, ⟨hfits, hform⟩, as, ⟨hfits', hforms⟩, rfl, rfl⟩

instance : Faithful (List α) where
  decode?_eq_some_iff j as := by
    show (j.items?.bind fun items => items.mapM decode?) = some as ↔
      (∀ a ∈ as, Fits a) ∧ (Json.array (as.map encode)).Form j
    rw [Json.form_array_iff, Option.bind_eq_some_iff]
    simp only [mapM_decode?_eq_some_iff]
    constructor
    · rintro ⟨items, hitems, hfits, hforms⟩
      exact ⟨hfits, items, hitems, hforms⟩
    · rintro ⟨hfits, items, hitems, hforms⟩
      exact ⟨items, hitems, hfits, hforms⟩

end

/-! ## Enumerations and records -/

section

variable {α : Type} [Encode α] [Decode α] [Sized α]

/-- The values of an enumeration go by their names, if these tell them apart. -/
theorem Faithful.of_names {name : α → String} {as : List α}
    (hencode : ∀ a, encode a = .string (name a))
    (hdecode : ∀ j, decode? j = j.name?.bind fun s => as.find? fun a => name a == s)
    (hfits : ∀ a : α, Fits a)
    (hnames : ∀ a, (as.find? fun b => name b == name a) = some a) :
    Faithful α where
  decode?_eq_some_iff j a := by
    have hname : ∀ s, (as.find? fun b => name b == s) = some a ↔ s = name a := by
      intro s
      constructor
      · intro h
        have heq := List.find?_some h
        exact (eq_of_beq heq).symm
      · rintro rfl
        exact hnames a
    rw [hdecode, hencode, Option.bind_eq_some_iff]
    simp only [Json.name?_eq_some_iff, hname, hfits, true_and, exists_eq_right]

namespace Json

@[simp] theorem required_eq_some_iff [Faithful α] [Present α] (found : Option Json)
    (a : α) :
    required found = some a ↔ Fits a ∧ (encode a).Found found := by
  cases found with
  | some j => exact Faithful.decode?_eq_some_iff j a
  | none => exact ⟨nofun, fun h => absurd h.2 (Present.encode_ne_null a)⟩

@[simp] theorem optional_eq_some_iff [Faithful α] [Present α] (found : Option Json)
    (o : Option α) :
    optional found = some o ↔ Fits o ∧ (encode o).Found found := by
  cases found with
  | some j => exact Faithful.decode?_eq_some_iff j o
  | none =>
      -- Without the field the value is absent, as it is with the field null.
      have hnull := Faithful.decode?_eq_some_iff .null o
      rwa [form_null_right_iff] at hnull

end Json

/-- A record is read field by field, if each field is read where it is found. -/
theorem Faithful.of_fields {fields : α → List (String × Json)} {names : List String}
    {read : List (Option Json) → Option α}
    (hencode : ∀ a, encode a = .object (fields a))
    (hdecode : ∀ j, decode? j = (j.fields? names).bind read)
    (hnames : ∀ a, (fields a).map Prod.fst = names) (hnodup : names.Nodup)
    (hread : ∀ (found : List (Option Json)) (a : α), found.length = names.length →
      (read found = some a ↔
        Fits a ∧ List.Forall₂ (fun field => Json.Found field.2) (fields a) found)) :
    Faithful α where
  decode?_eq_some_iff j a := by
    have hdistinct : ((fields a).map Prod.fst).Nodup := (hnames a).symm ▸ hnodup
    rw [hdecode, hencode, Json.form_object_iff hdistinct, hnames,
      Option.bind_eq_some_iff]
    constructor
    · rintro ⟨found, hfound, hsome⟩
      obtain ⟨hfits, hforms⟩ := (hread found a (Json.length_of_fields? hfound)).1 hsome
      exact ⟨hfits, found, hfound, hforms⟩
    · rintro ⟨hfits, found, hfound, hforms⟩
      exact ⟨found, hfound,
        (hread found a (Json.length_of_fields? hfound)).2 ⟨hfits, hforms⟩⟩

end

end Wavefront
