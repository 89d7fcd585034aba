import Mathlib.Data.List.Basic
import SharedMesh.Proofs.Shares

/-!
# Shares tile their range

Laid end to end in the order of the ranks, the slices are the range (`flatMap_numbers`): no
number is in two of them, and none is left out. A holder can be computed without looking at
any slice, and yet the place that it gives is the one at which the number is found in the
slices (`Tiling.holder_eq_ok_iff`). This holds for every range and any number of ranks
(`deal_tiles`), also where there are fewer numbers than ranks, so that some slices are empty.
-/

namespace SharedMesh

/-- The numbers of a slice, in order. -/
def Slice.numbers (s : Slice) : List Nat := List.range' s.start s.size

theorem Slice.mem_numbers {s : Slice} {g : Nat} : g ∈ s.numbers ↔ s.start ≤ g ∧ g < s.stop := by
  rw [numbers, List.mem_range'_1, size]
  omega

namespace Shares

variable {s : Shares} {g rank : Nat}

/-- The slices of all ranks tile the range, and the holders of numbers agree with them. -/
structure Tiling (s : Shares) (slices : Nat → Slice) : Prop where
  slice_eq : ∀ r < s.size, s.slice r = .ok (slices r)
  count_eq : ∀ r < s.size, s.count r = .ok (slices r).size
  /-- The slices follow each other, from zero to the total. -/
  start_zero : (slices 0).start = 0
  start_succ : ∀ r, r + 1 < s.size → (slices (r + 1)).start = (slices r).stop
  stop_last : (slices (s.size - 1)).stop = s.total
  flatMap_numbers : (List.range s.size).flatMap (fun r => (slices r).numbers) = List.range s.total
  disjoint : ∀ r < s.size, ∀ r' < s.size, r ≠ r' → (slices r).numbers.Disjoint (slices r').numbers
  /-- The longer slices come first, by one number at most. -/
  size_le : ∀ r r', r ≤ r' → r' < s.size → (slices r').size ≤ (slices r).size
  size_le_succ : ∀ r < s.size, ∀ r' < s.size, (slices r).size ≤ (slices r').size + 1
  /-- Just the numbers beyond the range have no holder. -/
  holder_eq_error : ∀ g, s.total ≤ g → s.holder g = .error (.globalRange g s.total)
  exists_holder : ∀ g < s.total, ∃ p, s.holder g = .ok p
  /-- A number is held where it is found in the slices, and nowhere else. -/
  holder_eq_ok_iff : ∀ g p, s.holder g = .ok p ↔
    p.rank < s.size ∧ p.index < (slices p.rank).size ∧ (slices p.rank).start + p.index = g

/-- The slice of a rank, from the first number that it holds. -/
def sliceOf (s : Shares) (rank : Nat) : Slice := ⟨s.first rank, s.first rank + s.length rank⟩

@[simp] theorem start_sliceOf (s : Shares) (rank : Nat) : (s.sliceOf rank).start = s.first rank :=
  rfl

theorem stop_sliceOf (s : Shares) (rank : Nat) : (s.sliceOf rank).stop = s.first (rank + 1) :=
  (first_succ s rank).symm

@[simp] theorem size_sliceOf (s : Shares) (rank : Nat) : (s.sliceOf rank).size = s.length rank :=
  Nat.add_sub_cancel_left ..

theorem length_le {rank' : Nat} (h : rank ≤ rank') : s.length rank' ≤ s.length rank := by
  rw [length, length]
  split <;> split <;> omega

theorem length_le_succ (s : Shares) (rank rank' : Nat) :
    s.length rank ≤ s.length rank' + 1 := by
  rw [length, length]
  split <;> split <;> omega

/-- The slices of the first ranks are the numbers before the next slice. -/
theorem flatMap_numbers (s : Shares) (rank : Nat) :
    (List.range rank).flatMap (fun r => (s.sliceOf r).numbers) = List.range (s.first rank) := by
  induction rank with
  | zero => simp
  | succ rank ih =>
    rw [List.range_succ, List.flatMap_append, List.flatMap_singleton, ih, first_succ,
      Slice.numbers, start_sliceOf, size_sliceOf, List.range_eq_range', List.range_eq_range']
    have := List.range'_append_1 (s := 0) (m := s.first rank) (n := s.length rank)
    rwa [Nat.zero_add] at this

theorem disjoint_numbers {rank' : Nat} (h : rank < rank') :
    (s.sliceOf rank).numbers.Disjoint (s.sliceOf rank').numbers := by
  intro g hg hg'
  have hmono : s.first (rank + 1) ≤ s.first rank' := first_mono h
  rw [Slice.mem_numbers, stop_sliceOf] at hg
  rw [Slice.mem_numbers, start_sliceOf] at hg'
  omega

/-- The place of a number is the only one at which it is found in the slices. -/
theorem place_eq_iff (hsize : 0 < s.size) (h : g < s.total) {p : Place} :
    s.place g = p ↔ p.rank < s.size ∧ p.index < s.length p.rank ∧ s.first p.rank + p.index = g := by
  constructor
  · rintro rfl
    exact ⟨rank_lt_size hsize h, index_lt_length h, s.first_add_index g⟩
  · rintro ⟨hrank, hindex, rfl⟩
    exact place_first_add hrank hindex

/-- The shares of any range among any ranks tile it. -/
theorem deal_tiles (total size : Nat) (hsize : 0 < size) (htotal : total < 2 ^ 64 - 1) :
    deal total size = .ok ⟨total, size⟩ ∧ ∃ slices, Tiling ⟨total, size⟩ slices := by
  refine ⟨if_neg (Nat.ne_of_gt hsize), sliceOf ⟨total, size⟩, ?_⟩
  let s : Shares := ⟨total, size⟩
  have hword : s.total + 1 < 2 ^ 64 := Nat.add_lt_of_lt_sub htotal
  have hlast : s.first s.size = s.total := first_size hsize
  constructor
  case slice_eq => exact fun r hr => slice_eq_ok hr (Nat.lt_of_succ_lt hword)
  case count_eq =>
    intro r hr
    rw [size_sliceOf]
    exact count_eq_ok hr (Nat.lt_of_succ_lt hword)
  case start_zero => exact first_zero s
  case start_succ => exact fun r _ => (stop_sliceOf s r).symm
  case stop_last => rw [stop_sliceOf, Nat.sub_add_cancel hsize, hlast]
  case flatMap_numbers => rw [flatMap_numbers, hlast]
  case disjoint =>
    intro r _ r' _ hne
    rcases Nat.lt_or_gt_of_ne hne with hlt | hgt
    · exact disjoint_numbers hlt
    · exact fun _ hg hg' => disjoint_numbers hgt hg' hg
  case size_le =>
    intro r r' hle _
    rw [size_sliceOf, size_sliceOf]
    exact length_le hle
  case size_le_succ =>
    intro r _ r' _
    rw [size_sliceOf, size_sliceOf]
    exact length_le_succ s r r'
  case holder_eq_error => exact fun g hg => if_pos hg
  case exists_holder => exact fun g hg => ⟨s.place g, holder_eq_ok hsize hg hword⟩
  case holder_eq_ok_iff =>
    intro g p
    rw [start_sliceOf, size_sliceOf]
    by_cases hg : g < s.total
    · rw [holder_eq_ok hsize hg hword, Except.ok.injEq]
      exact place_eq_iff hsize hg
    · -- no slice goes beyond the range
      rw [holder, if_pos (Nat.le_of_not_lt hg)]
      refine ⟨fun h => (by cases h), fun h => absurd ?_ hg⟩
      obtain ⟨hrank, hindex, hnumber⟩ := h
      calc g
          = s.first p.rank + p.index := hnumber.symm
        _ < s.first p.rank + s.length p.rank := Nat.add_lt_add_left hindex _
        _ ≤ s.total := first_add_length_le hrank

/-- Two numbers among four ranks: the last two ranks hold none. -/
theorem deal_tiles_twoAmongFour : (0 < 4 ∧ 2 < 2 ^ 64 - 1) ∧ deal 2 4 = .ok ⟨2, 4⟩ ∧
    ∃ slices, Tiling ⟨2, 4⟩ slices ∧
      (List.range 4).map slices = [⟨0, 1⟩, ⟨1, 2⟩, ⟨2, 2⟩, ⟨2, 2⟩] := by
  obtain ⟨hdeal, slices, htiling⟩ := deal_tiles 2 4 (by decide) (by decide)
  refine ⟨by decide, hdeal, slices, htiling, ?_⟩
  have hslice : ∀ r < 4, ∀ slice, (⟨2, 4⟩ : Shares).slice r = .ok slice → slices r = slice :=
    fun r hr _ hslice => Except.ok.inj ((htiling.slice_eq r hr).symm.trans hslice)
  calc (List.range 4).map slices
      = [slices 0, slices 1, slices 2, slices 3] := rfl
    _ = _ := by
      rw [hslice 0 (by decide) ⟨0, 1⟩ rfl, hslice 1 (by decide) ⟨1, 2⟩ rfl,
        hslice 2 (by decide) ⟨2, 2⟩ rfl, hslice 3 (by decide) ⟨2, 2⟩ rfl]

end Shares

end SharedMesh
