import Mathlib.Order.Bounds.Basic
import SharedMesh.Proofs.Bisection.Halving
import SharedMesh.Proofs.Bisection.Levels
import SharedMesh.Proofs.Network.Returning

/-!
# Halving isolates the ranks

A rank finds its group at each level by itself, from the group before (`halvedGroup`), also in
the course of a bisection, whatever messages it gets (`bisectLevels_group`). The groups are
blocks of consecutive ranks at every level, and all ranks agree on them (`inBlocks_halvedGroup`):
the halves of a block are blocks (`Group.IsBlock.next`).

Groups on one level may differ in size, and some ranks are alone before others. But each level
that halves a group leaves one halving less to do (`halvings_next_le`), and as many levels as it
takes to halve all ranks, which is the logarithm of the least power of two that is no less than
their number, isolate every rank (`halvedGroup_isolates`).
-/

namespace SharedMesh

-- Powers are those of core, also beside Mathlib.
attribute [local instance (high)] instPowNat

variable {κ α : Type} {n r start stop : Nat}

/-! ## The number of levels -/

/-- `k` levels are enough for `2 ^ k` ranks, and not for more. -/
theorem halvings_le_iff {k : Nat} : halvings n ≤ k ↔ n ≤ 2 ^ k := by
  rcases Nat.lt_or_ge 1 n with hn | hn
  · rw [halvings_succ_log2 hn, Nat.succ_le_iff, Nat.log2_lt (by omega)]
    omega
  · rw [halvings_of_le_one hn]
    exact ⟨fun _ => hn.trans Nat.one_le_two_pow, fun _ => Nat.zero_le k⟩

theorem isLeast_two_pow_halvings (n : Nat) :
    IsLeast {p | n ≤ p ∧ p.isPowerOfTwo} (2 ^ halvings n) := by
  refine ⟨⟨halvings_le_iff.1 (Nat.le_refl _), halvings n, rfl⟩, ?_⟩
  rintro _ ⟨hle, k, rfl⟩
  exact Nat.pow_le_pow_right Nat.two_pos (halvings_le_iff.2 hle)

/-- The larger half needs all levels but one. -/
theorem halvings_larger_half (n : Nat) : halvings (n - n / 2) = halvings n - 1 := by
  have hiff : ∀ k, halvings (n - n / 2) ≤ k ↔ halvings n ≤ k + 1 := fun k => by
    rw [halvings_le_iff, halvings_le_iff, Nat.pow_succ]
    omega
  refine Nat.le_antisymm ((hiff _).2 (by omega)) ?_
  have := (hiff _).1 (Nat.le_refl _)
  omega

/-! ## Blocks -/

namespace Group

theorem mem_ofRange : r ∈ (ofRange start stop).ranks ↔ start ≤ r ∧ r < stop := by
  rw [ofRange, List.mem_range'_1]
  omega

theorem size_ofRange (start stop : Nat) : (ofRange start stop).size = stop - start :=
  List.length_range'

theorem ofRange_append {mid : Nat} (hstart : start ≤ mid) (hstop : mid ≤ stop) :
    (ofRange start mid).ranks ++ (ofRange mid stop).ranks = (ofRange start stop).ranks := by
  have happend := List.range'_append_1 (s := start) (m := mid - start) (n := stop - mid)
  rwa [Nat.add_sub_cancel' hstart, ← Nat.add_comm, Nat.sub_add_sub_cancel hstop hstart] at happend

/-- Where the second half of a block starts. -/
theorem middle_le (h : start ≤ stop) : start + (stop - start) / 2 ≤ stop := by omega

theorem low_ofRange (h : start ≤ stop) :
    (ofRange start stop).low = ofRange start (start + (stop - start) / 2) := by
  rw [low, ← ofRange_append (Nat.le_add_right ..) (middle_le h)]
  refine congrArg Group.mk (List.take_left' ?_)
  rw [size_ofRange, ← Group.size, size_ofRange, Nat.add_sub_cancel_left]

theorem high_ofRange (h : start ≤ stop) :
    (ofRange start stop).high = ofRange (start + (stop - start) / 2) stop := by
  rw [high, ← ofRange_append (Nat.le_add_right ..) (middle_le h)]
  refine congrArg Group.mk (List.drop_left' ?_)
  rw [size_ofRange, ← Group.size, size_ofRange, Nat.add_sub_cancel_left]

/-- A group of consecutive ranks of `n`, one of which is `r`. -/
def IsBlock (n r : Nat) (g : Group) : Prop :=
  ∃ start stop, g = ofRange start stop ∧ start ≤ r ∧ r < stop ∧ stop ≤ n

namespace IsBlock

variable {g : Group}

theorem all (hr : r < n) : IsBlock n r (Group.all (Seat.of r n)) :=
  ⟨0, n, rfl, Nat.zero_le r, hr, Nat.le_refl n⟩

/-- The half of a block that a rank is in is a block. -/
theorem next (h : g.IsBlock n r) : (g.next r).IsBlock n r := by
  obtain ⟨start, stop, rfl, hstart, hstop, hn⟩ := h
  have hle : start ≤ stop := hstart.trans hstop.le
  have hmiddle := middle_le hle
  rw [Group.next, halfOf, low_ofRange hle, high_ofRange hle]
  split
  · exact ⟨start, stop, rfl, hstart, hstop, hn⟩
  split
  · next hlow =>
    obtain ⟨-, hlow⟩ := mem_ofRange.1 (List.contains_iff_mem.1 hlow)
    exact ⟨start, _, rfl, hstart, hlow, hmiddle.trans hn⟩
  · next hlow =>
    refine ⟨_, stop, rfl, Nat.le_of_not_lt fun hlt => hlow ?_, hstop, hn⟩
    exact List.contains_iff_mem.2 (mem_ofRange.2 ⟨hstart, hlt⟩)

theorem eq_singleton (h : g.IsBlock n r) (hsize : g.size ≤ 1) : g = ⟨[r]⟩ := by
  obtain ⟨start, stop, rfl, hstart, hstop, -⟩ := h
  rw [size_ofRange] at hsize
  obtain rfl : r = start := by omega
  obtain rfl : stop = r + 1 := by omega
  rw [ofRange, Nat.add_sub_cancel_left]
  rfl

end IsBlock

/-- A halving of several ranks leaves one halving less to do. -/
theorem halvings_next_le (g : Group) (r : Nat) :
    halvings (g.next r).size ≤ halvings g.size - 1 := by
  rw [next_eq]
  split
  · next hsize => exact (halvings_of_le_one hsize).trans_le (Nat.zero_le _)
  · next hsize =>
    exact Nat.le_sub_one_of_lt (halvings_half_lt (Nat.lt_of_not_le hsize) (g.size_half_le _))

end Group

/-! ## All levels -/

/-- All ranks are in blocks of consecutive ranks, and agree on them. -/
structure InBlocks (n : Nat) (groups : Nat → Group) : Prop where
  block : ∀ r < n, (groups r).IsBlock n r
  same : ∀ r < n, ∀ s ∈ (groups r).ranks, groups s = groups r
  apart : ∀ r < n, ∀ s < n, groups r = groups s ∨ (groups r).ranks.Disjoint (groups s).ranks

/-- The group of a rank of `n` after some levels. -/
def halvedGroup (n : Nat) : Nat → Nat → Group
  | 0, r => Group.all (Seat.of r n)
  | level + 1, r => (halvedGroup n level r).next r

theorem arranged_halvedGroup (n level : Nat) : Arranged n (halvedGroup n level) := by
  induction level with
  | zero => exact .all n
  | succ level ih => exact ih.next

theorem isBlock_halvedGroup (hr : r < n) (level : Nat) : (halvedGroup n level r).IsBlock n r := by
  induction level with
  | zero => exact .all hr
  | succ level ih => exact ih.next

theorem inBlocks_halvedGroup (n level : Nat) : InBlocks n (halvedGroup n level) := by
  have harranged := arranged_halvedGroup n level
  refine ⟨fun r hr => isBlock_halvedGroup hr level, fun r hr s hs => harranged.same hr hs,
    fun r hr s hs => or_iff_not_imp_right.2 fun hmeet => ?_⟩
  obtain ⟨q, hqr, hqs⟩ : ∃ q, q ∈ (halvedGroup n level r).ranks ∧
      q ∈ (halvedGroup n level s).ranks := by
    simpa [List.Disjoint] using hmeet
  exact (harranged.same hr hqr).symm.trans (harranged.same hs hqs)

/-- Each level leaves one halving less to do. -/
theorem halvings_halvedGroup_le (n level r : Nat) :
    halvings (halvedGroup n level r).size ≤ halvings n - level := by
  induction level with
  | zero => exact (congrArg halvings (Group.size_ofRange 0 n)).le
  | succ level ih => exact (Group.halvings_next_le _ r).trans (Nat.sub_le_sub_right ih 1)

theorem halvedGroup_halvings (hr : r < n) : halvedGroup n (halvings n) r = ⟨[r]⟩ := by
  refine (isBlock_halvedGroup hr _).eq_singleton ?_
  have := halvings_halvedGroup_le n (halvings n) r
  rwa [Nat.sub_self, halvings_le_iff, Nat.pow_zero] at this

/-- The last rank is always in a larger half, so it is alone at the last level only. -/
theorem halvedGroup_last (hn : 0 < n) (level : Nat) : ∃ start < n,
    halvedGroup n level (n - 1) = Group.ofRange start n ∧
      halvings (n - start) = halvings n - level := by
  induction level with
  | zero => exact ⟨0, hn, rfl, rfl⟩
  | succ level ih =>
    obtain ⟨start, hstart, hgroup, hlevels⟩ := ih
    rw [halvedGroup, hgroup, Group.next, Group.size_ofRange]
    split
    · next hsize =>
      refine ⟨start, hstart, rfl, ?_⟩
      rw [halvings_of_le_one hsize] at hlevels ⊢
      omega
    · next hsize =>
      refine ⟨start + (n - start) / 2, by omega, ?_, ?_⟩
      · rw [Group.halfOf, Group.low_ofRange hstart.le, Group.high_ofRange hstart.le]
        refine if_neg fun hlow => ?_
        have := Group.mem_ofRange.1 (List.contains_iff_mem.1 hlow)
        omega
      · rw [← Nat.sub_sub, halvings_larger_half, hlevels, Nat.sub_sub]

theorem one_lt_size_halvedGroup_last {level : Nat} (h : level < halvings n) :
    1 < (halvedGroup n level (n - 1)).size := by
  have hn : 0 < n := Nat.pos_of_ne_zero fun hzero => by
    rw [hzero] at h
    cases h
  obtain ⟨start, -, hgroup, hlevels⟩ := halvedGroup_last hn level
  rw [hgroup, Group.size_ofRange]
  refine Nat.lt_of_not_le fun hsize => ?_
  rw [halvings_of_le_one hsize] at hlevels
  omega

/-! ## In a bisection -/

section

variable [Alphabet κ] [Layout κ α] [Scalar α] [AxisSolver α] {seat : Seat} {tolerance : α}
  {steps levels : Nat} {h last : Holding α}

/-- The group after a level does not depend on any message. -/
theorem bisectLevel_group
    (hlast : (bisectLevel seat tolerance steps h : Proc κ _).toProgram.MayReturn (.ok last)) :
    last.group = h.group.next seat.rank := by
  obtain ⟨slots, -, hlast⟩ := Proc.mayReturn_bind hlast
  obtain ⟨route, -, hlast⟩ := Proc.mayReturn_bind hlast
  obtain ⟨records, -, hlast⟩ := Proc.mayReturn_bind hlast
  cases hlast
  rfl

theorem bisectLevels_group {level : Nat} (hgroup : h.group = halvedGroup n level r)
    (hlast : (bisectLevels (Seat.of r n) tolerance steps levels h :
      Proc κ _).toProgram.MayReturn (.ok last)) :
    last.group = halvedGroup n (level + levels) r := by
  induction levels generalizing level h with
  | zero =>
    cases hlast
    exact hgroup
  | succ levels ih =>
    obtain ⟨next, hnext, hlast⟩ := Proc.mayReturn_bind hlast
    rw [Nat.add_comm levels 1, ← Nat.add_assoc]
    refine ih ?_ hlast
    rw [bisectLevel_group hnext, hgroup]
    rfl

variable (κ α) in
/-- For any number of ranks, the groups are blocks at every level, and single ranks at the last
    one but not before. The number of levels is the logarithm of the least power of two that is
    no less than the number of ranks. In a bisection, the groups are these. -/
theorem halvedGroup_isolates (n : Nat) :
    (∀ level, InBlocks n (halvedGroup n level)) ∧
      (∀ r < n, halvedGroup n (halvings n) r = ⟨[r]⟩) ∧
      (∀ level < halvings n, 1 < (halvedGroup n level (n - 1)).size) ∧
      IsLeast {p | n ≤ p ∧ p.isPowerOfTwo} (2 ^ halvings n) ∧
      ∀ (r levels : Nat) (tolerance : α) (steps : Nat) (points : List (Point α)) (last : Holding α),
        (bisectLevels (Seat.of r n) tolerance steps levels ⟨Group.all (Seat.of r n), points, []⟩ :
          Proc κ _).toProgram.MayReturn (.ok last) → last.group = halvedGroup n levels r := by
  refine ⟨inBlocks_halvedGroup n, fun _ => halvedGroup_halvings,
    fun _ => one_lt_size_halvedGroup_last, isLeast_two_pow_halvings n, ?_⟩
  intro r levels tolerance steps points last hlast
  have hgroup : Group.all (Seat.of r n) = halvedGroup n 0 r := rfl
  rw [← Nat.zero_add levels]
  exact bisectLevels_group hgroup hlast

/-- Among five ranks, two are not alone yet after two levels. -/
example : (List.range 5).map (fun r => (halvedGroup 5 2 r).ranks) =
    [[0], [1], [2], [3, 4], [3, 4]] := by decide

end

end SharedMesh
