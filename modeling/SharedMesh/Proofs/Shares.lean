import SharedMesh.Proofs.Checked
import SharedMesh.Record.Rows
import SharedMesh.Shares

/-!
# Shares hold every number once

The slices of a range of numbers follow each other (`Shares.first_succ`), so each number is
in one of them: its holder, at the index that is its distance from the start of the
slice (`Shares.first_add_index`). None of the intermediate values is too large for a word.
-/

namespace SharedMesh.Shares

variable {s : Shares} {g rank : Nat}

/-- The first number that a rank holds. -/
def first (s : Shares) (rank : Nat) : Nat := s.quotient * rank + min rank s.remainder

/-- How many numbers a rank holds. -/
def length (s : Shares) (rank : Nat) : Nat :=
  if rank < s.remainder then s.quotient + 1 else s.quotient

/-- How many numbers the longer slices hold together. -/
def split (s : Shares) : Nat := (s.quotient + 1) * s.remainder

/-- The holder of a number, and the index there. -/
def place (s : Shares) (g : Nat) : Place :=
  if g < s.split then ⟨g / (s.quotient + 1), g % (s.quotient + 1)⟩
  else ⟨(g - s.split) / s.quotient + s.remainder, (g - s.split) % s.quotient⟩

/-! ## Slices -/

theorem total_eq (s : Shares) : s.total = s.quotient * s.size + s.remainder := by
  rw [quotient, remainder, Nat.mul_comm]
  exact (Nat.div_add_mod s.total s.size).symm

theorem remainder_lt (h : 0 < s.size) : s.remainder < s.size := Nat.mod_lt _ h

@[simp] theorem first_zero (s : Shares) : s.first 0 = 0 := by simp [first]

theorem first_succ (s : Shares) (rank : Nat) :
    s.first (rank + 1) = s.first rank + s.length rank := by
  rw [first, first, length, Nat.mul_succ]
  split <;> omega

/-- A slice starts where the slices before it end. -/
theorem sum_length (s : Shares) (rank : Nat) :
    ((List.range rank).map s.length).sum = s.first rank := by
  induction rank with
  | zero => simp
  | succ rank ih => rw [List.range_succ, List.map_append, List.sum_append, ih, first_succ]; simp

theorem first_size (h : 0 < s.size) : s.first s.size = s.total := by
  rw [first, Nat.min_eq_right (Nat.le_of_lt (remainder_lt h)), ← total_eq]

theorem first_size_le (s : Shares) : s.first s.size ≤ s.total := by
  rcases Nat.eq_zero_or_pos s.size with h | h
  · simp [h]
  · exact Nat.le_of_eq (first_size h)

theorem first_mono {rank rank' : Nat} (h : rank ≤ rank') : s.first rank ≤ s.first rank' := by
  induction h with
  | refl => exact Nat.le_refl _
  | step _ ih =>
    rw [Nat.succ_eq_add_one, first_succ]
    exact Nat.le_add_right_of_le ih

theorem first_add_length_le (h : rank < s.size) : s.first rank + s.length rank ≤ s.total := by
  rw [← first_succ, ← first_size (Nat.zero_lt_of_lt h)]
  exact first_mono h

/-- The slice of a rank. -/
theorem slice_eq_ok (h : rank < s.size) (ht : s.total < 2 ^ 64) :
    s.slice rank = .ok ⟨s.first rank, s.first rank + s.length rank⟩ := by
  have hle := first_add_length_le h
  rw [slice, if_neg (Nat.ne_of_gt (Nat.zero_lt_of_lt h))]
  by_cases hr : rank < s.remainder
  · have hfirst : s.first rank = s.quotient * rank + rank := by
      rw [first, Nat.min_eq_left (Nat.le_of_lt hr)]
    have hlength : s.length rank = s.quotient + 1 := if_pos hr
    rw [if_pos hr]
    rw [hfirst, hlength] at hle ⊢
    refine (bind_of_ok (word_eq_ok (by omega)) _).trans ?_
    exact bind_of_ok (word_eq_ok (by omega)) _
  · have hfirst : s.first rank = s.quotient * rank + s.remainder := by
      rw [first, Nat.min_eq_right (Nat.le_of_not_lt hr)]
    have hlength : s.length rank = s.quotient := if_neg hr
    rw [if_neg hr]
    rw [hfirst, hlength] at hle ⊢
    refine (bind_of_ok (word_eq_ok (by omega)) _).trans ?_
    exact bind_of_ok (word_eq_ok (by omega)) _

theorem count_eq_ok (h : rank < s.size) (ht : s.total < 2 ^ 64) :
    s.count rank = .ok (s.length rank) := by
  refine (bind_of_ok (slice_eq_ok h ht) _).trans (congrArg Except.ok ?_)
  exact Nat.add_sub_cancel_left ..

/-! ## Holders -/

theorem quotient_pos (h : g < s.total) (hg : s.split ≤ g) : 0 < s.quotient := by
  rcases Nat.eq_zero_or_pos s.quotient with hq | hq
  · have := s.total_eq
    simp only [split, hq, Nat.zero_mul, Nat.zero_add, Nat.one_mul] at this hg
    omega
  · exact hq

/-- A number is found at its index after the start of its holder's slice. -/
theorem first_add_index (s : Shares) (g : Nat) :
    s.first (s.place g).rank + (s.place g).index = g := by
  rw [place]
  split
  · next hg =>
    -- among the longer slices
    have hrank : g / (s.quotient + 1) < s.remainder :=
      Nat.div_lt_of_lt_mul hg
    have := Nat.div_add_mod g (s.quotient + 1)
    simp only [first, Nat.min_eq_left (Nat.le_of_lt hrank)]
    rw [Nat.succ_mul] at this
    omega
  · next hg =>
    have := Nat.div_add_mod (g - s.split) s.quotient
    simp only [first, Nat.min_eq_right (Nat.le_add_left ..), Nat.mul_add]
    rw [split, Nat.succ_mul] at *
    omega

theorem index_lt_length (h : g < s.total) : (s.place g).index < s.length (s.place g).rank := by
  rw [place]
  split
  · next hg =>
    have hrank : g / (s.quotient + 1) < s.remainder :=
      Nat.div_lt_of_lt_mul hg
    simp only [length, if_pos hrank]
    exact Nat.mod_lt _ (Nat.succ_pos _)
  · next hg =>
    simp only [length, if_neg (Nat.not_lt.2 (Nat.le_add_left ..))]
    exact Nat.mod_lt _ (quotient_pos h (Nat.le_of_not_lt hg))

theorem rank_lt_size (hsize : 0 < s.size) (h : g < s.total) : (s.place g).rank < s.size := by
  refine Nat.lt_of_not_le fun hge => ?_
  have := first_mono (s := s) hge
  rw [first_size hsize] at this
  have := s.first_add_index g
  omega

/-- Different numbers are held in different places. -/
theorem place_injective {g' : Nat} (h : s.place g = s.place g') : g = g' := by
  rw [← s.first_add_index g, ← s.first_add_index g', h]

/-- The numbers of a slice, counted from its start. -/
theorem place_first_add {i : Nat} (hrank : rank < s.size) (hi : i < s.length rank) :
    s.place (s.first rank + i) = ⟨rank, i⟩ := by
  have hlt : s.first rank + i < s.total := by
    have := first_add_length_le hrank
    omega
  have hindex := index_lt_length hlt
  have hnumber := s.first_add_index (s.first rank + i)
  generalize s.place (s.first rank + i) = p at hindex hnumber
  obtain ⟨rank', j⟩ := p
  simp only at hindex hnumber
  -- slices that follow each other have no number in common
  rcases Nat.lt_trichotomy rank' rank with h | rfl | h
  · have hmono := first_mono (s := s) h
    rw [Nat.succ_eq_add_one, first_succ] at hmono
    omega
  · simpa using hnumber
  · have hmono := first_mono (s := s) h
    rw [Nat.succ_eq_add_one, first_succ] at hmono
    omega

theorem split_le_total (hsize : 0 < s.size) : s.split ≤ s.total := by
  have hmul : s.quotient * s.remainder ≤ s.quotient * s.size :=
    Nat.mul_le_mul_left _ (Nat.le_of_lt (remainder_lt hsize))
  rw [split, Nat.succ_mul, total_eq]
  omega

/-- Every number below the total has a holder, if the length of the longer slices is a word. -/
theorem holder_eq_ok_of_longer (hsize : 0 < s.size) (h : g < s.total) (ht : s.total < 2 ^ 64)
    (hlonger : s.quotient + 1 < 2 ^ 64) : s.holder g = .ok (s.place g) := by
  have hsplit := split_le_total hsize
  rw [holder, if_neg (Nat.not_le.2 h), if_neg (Nat.ne_of_gt hsize)]
  refine (bind_of_ok (word_eq_ok hlonger) _).trans ?_
  refine (bind_of_ok (word_eq_ok (n := s.split) (by omega)) _).trans ?_
  rw [place]
  split
  · rfl
  · next hg =>
    have hdiv : (g - s.split) / s.quotient ≤ g - s.split := Nat.div_le_self ..
    have hremainder : s.remainder ≤ s.split := Nat.le_mul_of_pos_left _ (Nat.succ_pos _)
    -- the shorter slices are not empty, as a number is left for them
    rw [if_neg (Nat.ne_of_gt (quotient_pos h (Nat.le_of_not_lt hg)))]
    exact bind_of_ok (word_eq_ok (by omega)) _

/-- Every number below the total has a holder. -/
theorem holder_eq_ok (hsize : 0 < s.size) (h : g < s.total) (ht : s.total + 1 < 2 ^ 64) :
    s.holder g = .ok (s.place g) := by
  have hquotient : s.quotient ≤ s.total := Nat.div_le_self ..
  exact holder_eq_ok_of_longer hsize h (by omega) (by omega)

theorem holders_eq_ok (hsize : 0 < s.size) {numbers : List Nat} (h : ∀ g ∈ numbers, g < s.total)
    (ht : s.total + 1 < 2 ^ 64) : s.holders numbers = .ok (numbers.map s.place) :=
  mapM_eq_ok fun g hg => holder_eq_ok hsize (h g hg) ht

end SharedMesh.Shares

/-! ## Records dealt out -/

namespace SharedMesh

variable {β : Type} {n width count : Nat} {values : List β}

/-- The record with the number `g`. -/
def recordAt (width : Nat) (values : List β) (g : Nat) : List β :=
  (values.drop (g * width)).take width

theorem rows_eq_map_recordAt (hw : 0 < width) (hwhole : values.length = count * width) :
    rows width values = (List.range count).map (recordAt width values) := by
  refine List.ext_getElem (by simp [hwhole, hw]) fun i hi _ => ?_
  rw [length_rows] at hi
  have hrow : (rows width values)[i]? = some (recordAt width values i) :=
    getElem?_takeRows width _ values hi
  simpa using (List.getElem?_eq_some_iff.1 hrow).2

theorem length_recordAt (hw : 0 < width) (hwhole : values.length = count * width) {g : Nat}
    (hg : g < count) : (recordAt width values g).length = width := by
  refine length_of_mem_rows hw hwhole _ ?_
  rw [rows_eq_map_recordAt hw hwhole]
  exact List.mem_map_of_mem (List.mem_range.2 hg)

/-- The values of a rank, if records of `width` values are dealt out to `n` ranks. -/
def dealtRecords (n width : Nat) (values : List β) (r : Nat) : List β :=
  let shares : Shares := ⟨values.length / width, n⟩
  (values.drop (shares.first r * width)).take (shares.length r * width)

theorem length_dealtRecords (hw : 0 < width) (hwhole : values.length = count * width) {r : Nat}
    (hr : r < n) :
    (dealtRecords n width values r).length = (⟨count, n⟩ : Shares).length r * width := by
  have hle : (⟨count, n⟩ : Shares).first r + (⟨count, n⟩ : Shares).length r ≤ count :=
    Shares.first_add_length_le hr
  have hmul := Nat.mul_le_mul_right width hle
  rw [Nat.add_mul] at hmul
  rw [dealtRecords, hwhole, Nat.mul_div_cancel _ hw, List.length_take, List.length_drop, hwhole]
  omega

theorem rows_dealtRecords (hw : 0 < width) (hwhole : values.length = count * width) {r : Nat}
    (hr : r < n) : rows width (dealtRecords n width values r) =
      ((rows width values).drop ((⟨count, n⟩ : Shares).first r)).take
        ((⟨count, n⟩ : Shares).length r) := by
  rw [dealtRecords, hwhole, Nat.mul_div_cancel _ hw]
  exact rows_slice hw hwhole (Shares.first_add_length_le (s := ⟨count, n⟩) hr)

/-- A rank has the records from the first number of its share on. -/
theorem dealtRecords_eq_flatMap (hw : 0 < width) (hwhole : values.length = count * width) {r : Nat}
    (hr : r < n) : dealtRecords n width values r =
      (List.range ((⟨count, n⟩ : Shares).length r)).flatMap fun i =>
        recordAt width values ((⟨count, n⟩ : Shares).first r + i) := by
  have hle : (⟨count, n⟩ : Shares).first r + (⟨count, n⟩ : Shares).length r ≤ count :=
    Shares.first_add_length_le hr
  rw [← flatten_rows hw (length_dealtRecords hw hwhole hr), rows_dealtRecords hw hwhole hr,
    rows_eq_map_recordAt hw hwhole, ← List.map_drop, ← List.map_take, List.flatMap_def]
  refine congrArg List.flatten (List.ext_getElem ?_ fun i hi _ => by simp)
  rw [List.length_map, List.length_map, List.length_take, List.length_drop, List.length_range,
    List.length_range]
  omega

/-- The slices of the ranks are the records, in order. -/
theorem flatMap_rows_dealtRecords (hn : 0 < n) (hw : 0 < width)
    (hwhole : values.length = count * width) :
    (List.range n).flatMap (fun r => rows width (dealtRecords n width values r)) =
      rows width values := by
  let shares : Shares := ⟨count, n⟩
  -- the slices of the first ranks are the records before the next slice
  have hinitial : ∀ k ≤ n, (List.range k).flatMap (fun r =>
      rows width (dealtRecords n width values r)) =
        (rows width values).take (shares.first k) := by
    intro k hk
    induction k with
    | zero => simp
    | succ k ih =>
      rw [List.range_succ, List.flatMap_append, List.flatMap_singleton, ih (Nat.le_of_succ_le hk),
        rows_dealtRecords hw hwhole hk, Shares.first_succ, List.take_add]
  rw [hinitial n (Nat.le_refl n), Shares.first_size hn]
  have hlength : (rows width values).length = count := by
    rw [length_rows, hwhole, Nat.mul_div_cancel _ hw]
  exact List.take_of_length_le (Nat.le_of_eq hlength)

end SharedMesh
