import Wavefront.Layout.Basic

/-!
# Filters of several output channels

A filter larger than the banks is loaded in parts. Its words belong to output
channels of one width, a part carries whole channels, and as many of them as fit, in
groups of `channelGroup` (`Layout.channelCapacity`). `Layout.loads` cuts the filter
into these parts and lays out each from the first bank on.
-/

namespace Wavefront

/-- The list cut into pieces of `n` items, the last of which may be shorter. No
piece is empty: for `n = 0` every item is a piece of its own. -/
def chunks {α : Type} (n : Nat) : List α → List (List α)
  | [] => []
  | x :: xs => (x :: xs.take (n - 1)) :: chunks n (xs.drop (n - 1))
termination_by xs => xs.length
decreasing_by
  simp only [List.length_drop, List.length_cons]
  omega

@[simp] theorem chunks_nil {α : Type} (n : Nat) : chunks n ([] : List α) = [] := by
  rw [chunks]

theorem chunks_cons {α : Type} (n : Nat) (x : α) (xs : List α) :
    chunks n (x :: xs) = (x :: xs.take (n - 1)) :: chunks n (xs.drop (n - 1)) := by
  rw [chunks]

theorem flatten_chunks {α : Type} (n : Nat) (xs : List α) :
    (chunks n xs).flatten = xs := by
  fun_induction chunks n xs with
  | case1 => rfl
  | case2 x xs ih =>
      rw [List.flatten_cons, ih, List.cons_append, List.take_append_drop]

namespace Layout

def channelGroup : Nat := 4

/-- The channels of `width` words that one load carries: as many whole groups as
fit, and at least one. The width is checked first. -/
def channelCapacity (l : Layout) (width : Nat) : Except Fault Nat :=
  if width = 0 then .error (.rejected (.invalidConfig .emptyChannel))
  else do
    let capacity ← l.capacity
    let channels := capacity / width / channelGroup * channelGroup
    if channels = 0 then
      let words ← Checked.mul channelGroup width
      .error (.rejected (.filterTooLarge words capacity))
    else
      return channels

def loads (l : Layout) (words : List Word) (width : Nat) :
    Except Fault (List Load) := do
  let channels ← l.channelCapacity width
  if words.length % width ≠ 0 then
    .error (.rejected (.invalidConfig (.partialChannel words.length width)))
  let size ← Checked.mul channels width
  (chunks size words).mapM l.load

end Layout

end Wavefront
