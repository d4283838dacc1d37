import Mathlib.Order.Bounds.Basic
import Wavefront.Layout.Channels

/-!
# How many channels a load carries

The channels that a load carries are counted by rounding down twice, to whole
channels and to whole groups of them. That is the largest number of whole groups
that fits (`isGreatest_groups`), and it is zero exactly if a single group does not
fit (`groups_eq_zero_iff`). `channelCapacity_eq` lists the ways in which this can
go: an empty channel is found first, then banks that hold more words than can be
counted, and a group that does not fit is refused, unless its own words cannot be
counted. `optimal_channelCapacity` puts the two together.
-/

namespace Wavefront

namespace Layout

variable {l : Layout} {width channels : Nat}

/-! ## Whole groups -/

section Groups

variable {group capacity : Nat}

/-- Rounding down to channels and then to groups gives the largest number of whole
groups that fits. -/
theorem isGreatest_groups (hg : 0 < group) (hw : 0 < width) (capacity : Nat) :
    IsGreatest {n | group ∣ n ∧ n * width ≤ capacity}
      (capacity / width / group * group) := by
  constructor
  · refine ⟨Nat.dvd_mul_left group _, ?_⟩
    calc
      capacity / width / group * group * width
      _ ≤ capacity / width * width := Nat.mul_le_mul_right _ (Nat.div_mul_le_self _ _)
      _ ≤ capacity := Nat.div_mul_le_self _ _
  · rintro n ⟨⟨q, rfl⟩, hfits⟩
    have hchannels : group * q ≤ capacity / width := (Nat.le_div_iff_mul_le hw).2 hfits
    rw [Nat.mul_comm] at hchannels ⊢
    exact Nat.mul_le_mul_right _ ((Nat.le_div_iff_mul_le hg).2 hchannels)

theorem lt_of_isGreatest (hg : 0 < group)
    (h : IsGreatest {n | group ∣ n ∧ n * width ≤ capacity} channels) :
    capacity < (channels + group) * width := by
  rw [← Nat.not_le]
  intro hfits
  have hle := h.2 ⟨Nat.dvd_add h.1.1 (Nat.dvd_refl group), hfits⟩
  omega

theorem groups_eq_zero_iff (hg : 0 < group) (hw : 0 < width) (capacity : Nat) :
    capacity / width / group * group = 0 ↔ capacity < group * width := by
  have hgreatest := isGreatest_groups hg hw capacity
  constructor
  · intro hzero
    have hlt := lt_of_isGreatest hg hgreatest
    rwa [hzero, Nat.zero_add] at hlt
  · intro hlt
    rw [← Nat.not_le] at hlt
    obtain ⟨hdvd, hfits⟩ := hgreatest.1
    -- A number of groups other than zero would have the first of them fit.
    refine Nat.eq_zero_of_not_pos fun hpos => hlt ?_
    exact Nat.le_trans (Nat.mul_le_mul_right width (Nat.le_of_dvd hpos hdvd)) hfits

end Groups

/-! ## The outcome -/

theorem channelCapacity_of_limit_le (hw : 0 < width)
    (hc : Checked.limit ≤ l.banks * l.depth) :
    l.channelCapacity width = .error (.overflow .mul) := by
  rw [channelCapacity, if_neg (Nat.ne_of_gt hw), capacity, Checked.mul_of_le hc,
    error_bind]

theorem channelCapacity_of_lt (hw : 0 < width)
    (hc : l.banks * l.depth < Checked.limit) :
    l.channelCapacity width =
      if l.banks * l.depth / width / 4 * 4 = 0 then do
        let words ← Checked.mul 4 width
        .error (.rejected (.filterTooLarge words (l.banks * l.depth)))
      else .ok (l.banks * l.depth / width / 4 * 4) := by
  rw [channelCapacity, if_neg (Nat.ne_of_gt hw), capacity, Checked.mul_of_lt hc,
    ok_bind]
  rfl

/-- The five ways in which the channels of a load can be counted. -/
theorem channelCapacity_eq (l : Layout) (width : Nat) :
    l.channelCapacity width =
      if width = 0 then .error (.rejected (.invalidConfig .emptyChannel))
      else if Checked.limit ≤ l.banks * l.depth then .error (.overflow .mul)
      else if 4 * width ≤ l.banks * l.depth then .ok (l.banks * l.depth / width / 4 * 4)
      else if Checked.limit ≤ 4 * width then .error (.overflow .mul)
      else .error (.rejected (.filterTooLarge (4 * width) (l.banks * l.depth))) := by
  split
  next hw => exact if_pos hw
  next hw =>
    have hpos := Nat.pos_of_ne_zero hw
    have hnone := groups_eq_zero_iff (Nat.succ_pos 3) hpos (l.banks * l.depth)
    split
    next hc => exact channelCapacity_of_limit_le hpos hc
    next hc =>
      rw [channelCapacity_of_lt hpos (Nat.not_le.1 hc)]
      split
      next hzero =>
        rw [if_neg (Nat.not_le.2 (hnone.1 hzero))]
        split
        next hlimit =>
          rw [Checked.mul_of_le hlimit, error_bind]
        next hlimit =>
          rw [Checked.mul_of_lt (Nat.not_le.1 hlimit), ok_bind]
      next hsome => exact (if_pos (Nat.not_lt.1 (mt hnone.2 hsome))).symm

theorem channelCapacity_eq_ok_iff :
    l.channelCapacity width = .ok channels ↔
      (0 < width ∧ l.banks * l.depth < Checked.limit ∧ 4 * width ≤ l.banks * l.depth) ∧
        channels = l.banks * l.depth / width / 4 * 4 := by
  rw [channelCapacity_eq]
  split_ifs with hw hc hfits hlimit
  · simp [hw]
  · simp [Nat.not_lt.2 hc]
  · simp [Nat.pos_of_ne_zero hw, Nat.not_le.1 hc, hfits, eq_comm]
  · simp [hfits]
  · simp [hfits]

theorem of_channelCapacity_eq_ok (h : l.channelCapacity width = .ok channels) :
    0 < width ∧ 0 < channels ∧ l.banks * l.depth < Checked.limit ∧
      channels * width ≤ l.banks * l.depth := by
  obtain ⟨⟨hw, hc, hfits⟩, rfl⟩ := channelCapacity_eq_ok_iff.1 h
  refine ⟨hw, Nat.pos_of_ne_zero fun hzero => ?_, hc,
    (isGreatest_groups (Nat.succ_pos 3) hw _).1.2⟩
  exact Nat.not_le.2 ((groups_eq_zero_iff (Nat.succ_pos 3) hw _).1 hzero) hfits

/-- Whatever the geometry and the width, a load carries as many channels as fit in
groups of four. A width of zero is found first, then banks that hold more words than
can be counted. If four channels fit, their number is the largest multiple of four
that does, and four more would not. If they do not, the filter that they would be is
too large, and its words are counted for that, which may fail in its turn. -/
theorem optimal_channelCapacity (l : Layout) (width : Nat) :
    (l.channelCapacity width = .error (.rejected (.invalidConfig .emptyChannel)) ↔
      width = 0) ∧
      (l.channelCapacity width = .error (.overflow .mul) ↔
        0 < width ∧ (Checked.limit ≤ l.banks * l.depth ∨
          l.banks * l.depth < 4 * width ∧ Checked.limit ≤ 4 * width)) ∧
      (l.channelCapacity width =
          .error (.rejected (.filterTooLarge (4 * width) (l.banks * l.depth))) ↔
        0 < width ∧ l.banks * l.depth < Checked.limit ∧ l.banks * l.depth < 4 * width ∧
          4 * width < Checked.limit) ∧
      ((∃ channels, l.channelCapacity width = .ok channels) ↔
        0 < width ∧ l.banks * l.depth < Checked.limit ∧ 4 * width ≤ l.banks * l.depth) ∧
      ∀ channels, l.channelCapacity width = .ok channels →
        IsGreatest {n | 4 ∣ n ∧ n * width ≤ l.banks * l.depth} channels ∧ 4 ≤ channels ∧
          l.banks * l.depth < (channels + 4) * width := by
  have heq := channelCapacity_eq l width
  refine ⟨?_, ?_, ?_, ?_, fun channels hok => ?_⟩
  · rw [heq]
    split_ifs with hw <;> simp [hw]
  · rw [heq]
    split_ifs with hw hc hfits hlimit
    · simp [hw]
    · simp [hc, Nat.pos_of_ne_zero hw]
    · simp [hc, Nat.not_lt.2 hfits]
    · simp [hlimit, Nat.not_le.1 hfits, Nat.pos_of_ne_zero hw]
    · simp [hc, hlimit]
  · rw [heq]
    split_ifs with hw hc hfits hlimit
    · simp [hw]
    · simp [Nat.not_lt.2 hc]
    · simp [Nat.not_lt.2 hfits]
    · simp [Nat.not_lt.2 hlimit]
    · simp [Nat.pos_of_ne_zero hw, Nat.not_le.1 hc, Nat.not_le.1 hfits,
        Nat.not_le.1 hlimit]
  · simp [channelCapacity_eq_ok_iff]
  · obtain ⟨⟨hw, -, hfits⟩, rfl⟩ := channelCapacity_eq_ok_iff.1 hok
    have hgreatest := isGreatest_groups (Nat.succ_pos 3) hw (l.banks * l.depth)
    exact ⟨hgreatest, hgreatest.2 ⟨Nat.dvd_refl 4, hfits⟩,
      lt_of_isGreatest (Nat.succ_pos 3) hgreatest⟩

end Layout

end Wavefront
