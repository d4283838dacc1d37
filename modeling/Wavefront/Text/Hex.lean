/-!
# Numbers in base sixteen

`hex width n` writes `n` in lower-case hexadecimal digits behind `0x`, padded on the
left with zeros to `width` digits. A number with more digits is written out in full.
The last digit is split off by `hexDigits_add_two`.
-/

namespace Wavefront

namespace Text

/-- The digits of `n` in base sixteen, at least `width` of them. -/
def hexDigits (width n : Nat) : List Char :=
  let digits := Nat.toDigits 16 n
  List.replicate (width - digits.length) '0' ++ digits

/-- The number in base sixteen, marked as such. -/
def hex (width n : Nat) : String := "0x" ++ String.ofList (hexDigits width n)

theorem hexDigits_of_lt {n : Nat} (h : n < 16) (width : Nat) :
    hexDigits (width + 1) n = List.replicate width '0' ++ [n.digitChar] := by
  simp [hexDigits, Nat.toDigits_of_lt_base h]

theorem hexDigits_add_two (width n : Nat) :
    hexDigits (width + 2) n = hexDigits (width + 1) (n / 16) ++
      [(n % 16).digitChar] := by
  rcases Nat.lt_or_ge n 16 with hlt | hle
  · rw [hexDigits_of_lt hlt, Nat.div_eq_of_lt hlt, Nat.mod_eq_of_lt hlt,
      hexDigits_of_lt (Nat.succ_pos 15), List.replicate_succ']
    rfl
  · simp [hexDigits, Nat.toDigits_of_base_le (by decide) hle]

end Text

end Wavefront
