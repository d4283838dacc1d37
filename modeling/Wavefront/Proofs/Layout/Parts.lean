import Mathlib.Algebra.Order.Floor.Div
import Wavefront.Proofs.Layout.Capacity
import Wavefront.Proofs.Layout.Columns

/-!
# The parts of a filter

A filter of channels that all have the same width is cut into pieces, and each piece
is laid out by itself. A piece has as many channels as a load carries, so it finds
room (`load_piece`), and it ends where a channel ends: the piece of the filter that
is a channel is a piece of one of the larger ones (`piece_piece`). The last of these
has what is left, and that is whole channels too (`length_piece_of_dvd`).

`Layout.Parted` says what the loads of all pieces are together, and `parted_loads`
that a filter of whole channels has such loads as soon as one of them can carry a
channel at all.
-/

namespace Wavefront

/-! ## Pieces of a list -/

section Pieces

variable {α : Type} {n : Nat}

/-- Piece number `k` of a list that is cut into pieces of `n` items. -/
def piece (n k : Nat) (xs : List α) : List α := (xs.drop (k * n)).take n

theorem chunks_of_pos (hn : 0 < n) {xs : List α} (h : xs ≠ []) :
    chunks n xs = xs.take n :: chunks n (xs.drop n) := by
  obtain ⟨m, rfl⟩ := Nat.exists_eq_succ_of_ne_zero (Nat.ne_of_gt hn)
  cases xs with
  | nil => exact absurd rfl h
  | cons x xs =>
      rw [chunks_cons, Nat.succ_sub_one, List.take_succ_cons, List.drop_succ_cons]

theorem getElem?_chunks (hn : 0 < n) (xs : List α) (k : Nat) :
    (chunks n xs)[k]? = if k * n < xs.length then some (piece n k xs) else none := by
  induction k generalizing xs with
  | zero =>
      cases xs with
      | nil => simp
      | cons x xs => simp [chunks_of_pos hn, piece]
  | succ k ih =>
      by_cases hxs : xs = []
      · simp [hxs]
      · have hpiece : piece n k (xs.drop n) = piece n (k + 1) xs := by
          rw [piece, piece, List.drop_drop, Nat.succ_mul, Nat.add_comm]
        have hbound : k * n < (xs.drop n).length ↔ (k + 1) * n < xs.length := by
          rw [List.length_drop, Nat.succ_mul]
          omega
        rw [chunks_of_pos hn hxs, List.getElem?_cons_succ, ih, hpiece]
        simp only [hbound]

theorem mem_chunks (hn : 0 < n) {xs ys : List α} :
    ys ∈ chunks n xs ↔ ∃ k, k * n < xs.length ∧ piece n k xs = ys := by
  rw [List.mem_iff_getElem?]
  refine exists_congr fun k => ?_
  rw [getElem?_chunks hn]
  split <;> simp [*]

theorem length_chunks (hn : 0 < n) (xs : List α) :
    (chunks n xs).length = xs.length ⌈/⌉ n := by
  refine eq_of_forall_lt_iff fun k => ?_
  rw [← not_le, ← not_le, ceilDiv_le_iff_le_mul hn, ← List.getElem?_eq_none_iff,
    getElem?_chunks hn, Nat.mul_comm k]
  simp

theorem piece_piece {m : Nat} (hm : 0 < m) (k : Nat) (xs : List α) :
    piece n (k % m) (piece (m * n) (k / m) xs) = piece n k xs := by
  have hstart : k / m * (m * n) + k % m * n = k * n := by
    rw [← Nat.mul_assoc, ← Nat.add_mul, Nat.div_add_mod']
  have hend : n ≤ m * n - k % m * n := by
    rw [← Nat.sub_mul]
    exact Nat.le_mul_of_pos_left n (Nat.sub_pos_of_lt (Nat.mod_lt k hm))
  rw [piece, piece, List.drop_take, List.take_take, List.drop_drop, hstart,
    Nat.min_eq_left hend]
  rfl

theorem start_lt (hn : 0 < n) {k : Nat} {xs : List α} (hk : k < xs.length / n)
    (m : Nat) :
    k / m * (m * n) < xs.length := by
  calc
    k / m * (m * n)
    _ = k / m * m * n := (Nat.mul_assoc _ _ _).symm
    _ ≤ k * n := Nat.mul_le_mul_right _ (Nat.div_mul_le_self _ _)
    _ < xs.length / n * n := Nat.mul_lt_mul_of_pos_right hk hn
    _ ≤ xs.length := Nat.div_mul_le_self _ _

theorem length_piece (n k : Nat) (xs : List α) :
    (piece n k xs).length = min n (xs.length - k * n) := by
  rw [piece, List.length_take, List.length_drop]

theorem length_piece_of_le {k : Nat} {xs : List α} (h : (k + 1) * n ≤ xs.length) :
    (piece n k xs).length = n := by
  rw [Nat.succ_mul] at h
  rw [length_piece]
  omega

theorem length_piece_of_dvd {m k : Nat} (hm : 0 < m) {xs : List α} (hd : n ∣ xs.length)
    (hk : k * (m * n) < xs.length) :
    ∃ j, 0 < j ∧ j ≤ m ∧ (piece (m * n) k xs).length = j * n := by
  obtain ⟨q, hq⟩ := hd
  rw [hq, ← Nat.mul_assoc, Nat.mul_comm n q] at hk
  have hrest : 0 < q - k * m := Nat.sub_pos_of_lt (Nat.lt_of_mul_lt_mul_right hk)
  refine ⟨min m (q - k * m), Nat.lt_min.2 ⟨hm, hrest⟩, Nat.min_le_left _ _, ?_⟩
  rw [length_piece, hq, ← Nat.mul_assoc, Nat.mul_comm n q, ← Nat.sub_mul,
    Nat.mul_min_mul_right]

end Pieces

namespace Layout

variable {l : Layout} {words : List Word} {width channels : Nat}

/-! ## Cutting the filter -/

theorem loads_of_error {fault : Fault} (h : l.channelCapacity width = .error fault)
    (words : List Word) : l.loads words width = .error fault := by
  rw [loads, h, error_bind]

theorem loads_of_not_dvd (h : l.channelCapacity width = .ok channels)
    (hd : ¬ width ∣ words.length) :
    l.loads words width =
      .error (.rejected (.invalidConfig (.partialChannel words.length width))) := by
  have hrest : words.length % width ≠ 0 := fun h => hd (Nat.dvd_of_mod_eq_zero h)
  rw [loads, h, ok_bind, if_pos hrest, error_bind]

theorem load_piece (h : l.channelCapacity width = .ok channels) (words : List Word)
    (k : Nat) :
    l.load (piece (channels * width) k words) =
      .ok (l.layOut (piece (channels * width) k words)) := by
  obtain ⟨hw, hchannels, hc, hfits⟩ := of_channelCapacity_eq_ok h
  have hbanks : 0 < l.banks :=
    Nat.pos_of_mul_pos_right (Nat.lt_of_lt_of_le (Nat.mul_pos hchannels hw) hfits)
  refine load_eq_ok_iff.2 ⟨⟨hbanks, hc, ?_⟩, rfl⟩
  rw [length_piece]
  exact Nat.le_trans (Nat.min_le_left _ _) hfits

theorem loads_of_dvd (h : l.channelCapacity width = .ok channels)
    (hd : width ∣ words.length) :
    l.loads words width = .ok ((chunks (channels * width) words).map l.layOut) := by
  obtain ⟨hw, hchannels, hc, hfits⟩ := of_channelCapacity_eq_ok h
  have hrest : ¬ words.length % width ≠ 0 := not_not.2 (Nat.mod_eq_zero_of_dvd hd)
  rw [loads, h, ok_bind, if_neg hrest, Checked.mul_of_lt (Nat.lt_of_le_of_lt hfits hc),
    ok_bind]
  refine mapM_eq_ok fun chunk hchunk => ?_
  obtain ⟨k, -, rfl⟩ := (mem_chunks (Nat.mul_pos hchannels hw)).1 hchunk
  exact load_piece h words k

/-! ## The parts -/

/-- The loads of a filter whose channels have `width` words, cut so that a load
carries `channels` of them. Every load is that of its own piece, from the first
place on, and together they have all words in their order. A channel is found whole
in one of them, and only the last can have fewer channels than it could carry. -/
structure Parted (l : Layout) (words : List Word) (width channels : Nat)
    (parts : List Load) : Prop where
  length_eq : parts.length = words.length ⌈/⌉ (channels * width)
  data_eq : (parts.flatMap Load.commands).map Write.data = words
  load_eq : ∀ k part, parts[k]? = some part →
    l.load (piece (channels * width) k words) = .ok part
  head_eq : ∀ part ∈ parts, ∃ data, part.commands.head? = some ⟨0, 0, data⟩
  channel_eq : ∀ k < words.length / width, ∃ part, parts[k / channels]? = some part ∧
    piece width (k % channels) (part.commands.map Write.data) = piece width k words
  full : ∀ k part, parts[k]? = some part → k + 1 < parts.length →
    part.commands.length = channels * width
  whole : ∀ part ∈ parts, ∃ n, 0 < n ∧ n ≤ channels ∧ part.commands.length = n * width
  size_le : ∀ part ∈ parts, part.size ≤ l.depth
  in_range : ∀ part ∈ parts, ∀ w ∈ part.commands, w.bank < l.banks ∧
    w.address < part.size

theorem length_layOut (l : Layout) (words : List Word) :
    (l.layOut words).commands.length = words.length := by
  rw [commands_layOut, List.length_mapIdx]

theorem head?_layOut (l : Layout) (hw : words ≠ []) :
    ∃ data, (l.layOut words).commands.head? = some ⟨0, 0, data⟩ := by
  obtain ⟨data, rest, rfl⟩ := List.exists_cons_of_ne_nil hw
  refine ⟨data, ?_⟩
  rw [commands_layOut, List.mapIdx_cons, List.head?_cons, place, Nat.zero_mod,
    Nat.zero_div]

theorem data_map_chunks (l : Layout) (n : Nat) (words : List Word) :
    (((chunks n words).map l.layOut).flatMap Load.commands).map Write.data = words := by
  rw [List.flatMap_map, List.map_flatMap]
  simp only [data_layOut]
  rw [List.flatMap_id', flatten_chunks]

theorem getElem?_map_chunks {n k : Nat} (hn : 0 < n) {part : Load} :
    ((chunks n words).map l.layOut)[k]? = some part ↔
      k * n < words.length ∧ l.layOut (piece n k words) = part := by
  rw [List.getElem?_map, getElem?_chunks hn]
  split <;> simp [*]

theorem parted_chunks (h : l.channelCapacity width = .ok channels)
    (hd : width ∣ words.length) :
    l.Parted words width channels ((chunks (channels * width) words).map l.layOut) := by
  obtain ⟨hw, hchannels, -, -⟩ := of_channelCapacity_eq_ok h
  have hsize : 0 < channels * width := Nat.mul_pos hchannels hw
  refine ⟨?_, data_map_chunks l _ words, ?_, ?_, ?_, ?_, ?_, ?_, ?_⟩
  · rw [List.length_map, length_chunks hsize]
  · intro k part hpart
    obtain ⟨-, rfl⟩ := (getElem?_map_chunks hsize).1 hpart
    exact load_piece h words k
  · refine List.forall_mem_map.2 fun chunk hchunk => ?_
    obtain ⟨k, hk, rfl⟩ := (mem_chunks hsize).1 hchunk
    obtain ⟨j, hj, -, hpiece⟩ := length_piece_of_dvd hchannels hd hk
    refine head?_layOut l (List.ne_nil_of_length_pos ?_)
    rw [hpiece]
    exact Nat.mul_pos hj hw
  · intro k hk
    refine ⟨_, (getElem?_map_chunks hsize).2 ⟨start_lt hw hk channels, rfl⟩, ?_⟩
    rw [data_layOut, piece_piece hchannels]
  · intro k part hpart hnext
    obtain ⟨-, rfl⟩ := (getElem?_map_chunks hsize).1 hpart
    obtain ⟨hlt, -⟩ := (getElem?_map_chunks hsize).1 (List.getElem?_eq_getElem hnext)
    rw [length_layOut, length_piece_of_le (Nat.le_of_lt hlt)]
  · refine List.forall_mem_map.2 fun chunk hchunk => ?_
    obtain ⟨k, hk, rfl⟩ := (mem_chunks hsize).1 hchunk
    rw [length_layOut]
    exact length_piece_of_dvd hchannels hd hk
  · refine List.forall_mem_map.2 fun chunk hchunk => ?_
    obtain ⟨k, -, rfl⟩ := (mem_chunks hsize).1 hchunk
    exact (laysOut_of_load (load_piece h words k)).size_le
  · refine List.forall_mem_map.2 fun chunk hchunk w hmem => ?_
    obtain ⟨k, -, rfl⟩ := (mem_chunks hsize).1 hchunk
    have hlays := laysOut_of_load (load_piece h words k)
    exact ⟨hlays.bank_lt w hmem, hlays.address_lt w hmem⟩

/-- A filter comes to parts if a load can carry a channel of it and it has whole
channels only. If no load can, the reason is returned for the filter. Otherwise the
words of a full load can be counted, every part is laid out, and together the parts
are the filter. -/
theorem parted_loads (l : Layout) (words : List Word) (width : Nat) :
    (∀ fault, l.channelCapacity width = .error fault →
      l.loads words width = .error fault) ∧
    ∀ channels, l.channelCapacity width = .ok channels →
      Checked.mul channels width = .ok (channels * width) ∧
      (l.loads words width =
          .error (.rejected (.invalidConfig (.partialChannel words.length width))) ↔
        ¬ width ∣ words.length) ∧
      (width ∣ words.length →
        ∃ parts, l.loads words width = .ok parts ∧
          l.Parted words width channels parts) := by
  refine ⟨fun fault h => loads_of_error h words, fun channels h => ?_⟩
  obtain ⟨-, -, hc, hfits⟩ := of_channelCapacity_eq_ok h
  refine ⟨Checked.mul_of_lt (Nat.lt_of_le_of_lt hfits hc),
    ⟨fun herr hd => ?_, loads_of_not_dvd h⟩,
    fun hd => ⟨_, loads_of_dvd h hd, parted_chunks h hd⟩⟩
  rw [loads_of_dvd h hd] at herr
  exact absurd herr (by simp)

/-- Eleven channels of three words: eight of them fill a load of four banks of eight
words, and three are left. -/
theorem eleven_channels_in_two_parts :
    ∃ first last,
      (⟨4, 8⟩ : Layout).loads ((List.range 33).map UInt32.ofNat) 3 = .ok [first, last] ∧
      first.commands.length = 24 ∧ last.size ≤ 8 ∧
      piece 3 2 (last.commands.map Write.data) = [30, 31, 32] := by
  obtain ⟨-, hok⟩ := parted_loads ⟨4, 8⟩ ((List.range 33).map UInt32.ofNat) 3
  obtain ⟨-, -, hparts⟩ := hok 8 (by decide)
  obtain ⟨parts, hloads, hparted⟩ := hparts (by decide)
  obtain ⟨first, last, rfl⟩ :=
    List.length_eq_two.1 (hparted.length_eq.trans (by decide))
  obtain ⟨part, hpart, hchannel⟩ := hparted.channel_eq 10 (by decide)
  obtain rfl : last = part := Option.some.inj hpart
  exact ⟨first, last, hloads, hparted.full 0 first rfl (Nat.lt_succ_self 1),
    hparted.size_le last (by simp), hchannel.trans (by decide)⟩

end Layout

end Wavefront
