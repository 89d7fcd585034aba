/-!
# Rows

Connectivity, coordinates and message payloads are flat lists that hold records of
a fixed number of values, their *width*. `rows` cuts such a list into its records.
-/

namespace SharedMesh

/-- The first `count` records of `width` values. -/
def takeRows {α : Type} (width : Nat) : Nat → List α → List (List α)
  | 0, _ => []
  | count + 1, xs => xs.take width :: takeRows width count (xs.drop width)

/-- The whole records of `width` values in a flat list. -/
def rows {α : Type} (width : Nat) (xs : List α) : List (List α) :=
  takeRows width (xs.length / width) xs

@[simp] theorem length_takeRows {α : Type} (width count : Nat) (xs : List α) :
    (takeRows width count xs).length = count := by
  induction count generalizing xs with
  | zero => rfl
  | succ n ih => simp [takeRows, ih]

@[simp] theorem length_rows {α : Type} (width : Nat) (xs : List α) :
    (rows width xs).length = xs.length / width :=
  length_takeRows ..

/-- Nothing is lost of a list that holds whole records. -/
theorem flatten_takeRows {α : Type} (width count : Nat) (xs : List α)
    (h : xs.length = count * width) : (takeRows width count xs).flatten = xs := by
  induction count generalizing xs with
  | zero => simp_all [takeRows]
  | succ n ih =>
    rw [takeRows, List.flatten_cons, ih (xs.drop width), List.take_append_drop]
    rw [List.length_drop, h, Nat.succ_mul, Nat.add_sub_cancel]

theorem flatten_rows {α : Type} {width count : Nat} (hw : 0 < width) {xs : List α}
    (h : xs.length = count * width) : (rows width xs).flatten = xs :=
  flatten_takeRows width _ xs (by rw [h, Nat.mul_div_cancel _ hw])

/-- Rows that were put one after the other are found again. -/
theorem takeRows_flatten {α : Type} {width : Nat} {records : List (List α)}
    (h : ∀ record ∈ records, record.length = width) :
    takeRows width records.length records.flatten = records := by
  induction records with
  | nil => rfl
  | cons record rest ih =>
    have hw : record.length = width := h record List.mem_cons_self
    rw [List.length_cons, takeRows, List.flatten_cons, List.take_left' hw, List.drop_left' hw,
      ih fun r hr => h r (List.mem_cons_of_mem _ hr)]

theorem length_flatten_of_width {α : Type} {width : Nat} {records : List (List α)}
    (h : ∀ record ∈ records, record.length = width) :
    records.flatten.length = records.length * width := by
  induction records with
  | nil => simp
  | cons record rest ih =>
    rw [List.flatten_cons, List.length_append, h record List.mem_cons_self,
      ih fun r hr => h r (List.mem_cons_of_mem _ hr), List.length_cons, Nat.succ_mul,
      Nat.add_comm]

theorem rows_flatten {α : Type} {width : Nat} (hw : 0 < width) {records : List (List α)}
    (h : ∀ record ∈ records, record.length = width) :
    rows width records.flatten = records := by
  rw [rows, length_flatten_of_width h, Nat.mul_div_cancel _ hw, takeRows_flatten h]

theorem length_of_mem_rows {α : Type} {width : Nat} (hw : 0 < width) {count : Nat} {xs : List α}
    (h : xs.length = count * width) : ∀ record ∈ rows width xs, record.length = width := by
  rw [rows, h, Nat.mul_div_cancel _ hw]
  induction count generalizing xs with
  | zero => intro record hr; cases hr
  | succ n ih =>
    have hlen : (xs.drop width).length = n * width := by
      rw [List.length_drop, h, Nat.succ_mul, Nat.add_sub_cancel]
    intro record hr
    rcases List.mem_cons.1 hr with rfl | hr
    · rw [List.length_take, h, Nat.succ_mul]
      exact Nat.min_eq_left (Nat.le_add_left ..)
    · exact ih hlen record hr

theorem takeRows_map {α β : Type} (f : α → β) (width count : Nat) (xs : List α) :
    takeRows width count (xs.map f) = (takeRows width count xs).map (List.map f) := by
  induction count generalizing xs with
  | zero => rfl
  | succ n ih => simp only [takeRows, List.map_cons, List.map_take, ← ih, List.map_drop]

theorem rows_map {α β : Type} (f : α → β) (width : Nat) (xs : List α) :
    rows width (xs.map f) = (rows width xs).map (List.map f) := by
  rw [rows, List.length_map, takeRows_map, rows]

/-- Where a row starts. -/
theorem getElem?_takeRows {α : Type} (width count : Nat) (xs : List α) {i : Nat} (hi : i < count) :
    (takeRows width count xs)[i]? = some ((xs.drop (i * width)).take width) := by
  induction count generalizing xs i with
  | zero => cases hi
  | succ n ih =>
    cases i with
    | zero => simp [takeRows]
    | succ i =>
      rw [takeRows, List.getElem?_cons_succ, ih _ (Nat.lt_of_succ_lt_succ hi), List.drop_drop,
        Nat.succ_mul, Nat.add_comm]

/-- Some rows that follow each other. -/
theorem rows_slice {α : Type} {width count start size : Nat} (hw : 0 < width) {xs : List α}
    (h : xs.length = count * width) (hle : start + size ≤ count) :
    rows width ((xs.drop (start * width)).take (size * width)) =
      ((rows width xs).drop start).take size := by
  have hend : start * width + size * width ≤ count * width := by
    rw [← Nat.add_mul]
    exact Nat.mul_le_mul_right _ hle
  have hlength : ((xs.drop (start * width)).take (size * width)).length = size * width := by
    rw [List.length_take, List.length_drop, h]
    omega
  rw [rows, hlength, rows, h, Nat.mul_div_cancel _ hw, Nat.mul_div_cancel _ hw]
  refine List.ext_getElem? fun i => ?_
  by_cases hi : i < size
  · have hrow : i * width + width ≤ size * width := by
      rw [← Nat.succ_mul]
      exact Nat.mul_le_mul_right _ hi
    rw [getElem?_takeRows _ _ _ hi, List.getElem?_take_of_lt hi, List.getElem?_drop,
      getElem?_takeRows _ _ _ (by omega), List.drop_take, List.take_take, List.drop_drop,
      Nat.min_eq_left (by omega), Nat.add_mul]
  · rw [List.getElem?_eq_none (by simpa using Nat.le_of_not_lt hi),
      List.getElem?_eq_none (by rw [List.length_take]; omega)]

/-- Records of records, if each number has a record of `width` values. -/
theorem rows_flatMap {α : Type} {degree width count : Nat} (hdegree : 0 < degree)
    (hwidth : 0 < width) {numbers : List Nat} (hwhole : numbers.length = count * degree)
    {record : Nat → List α} (h : ∀ g ∈ numbers, (record g).length = width) :
    (rows (degree * width) (numbers.flatMap record)).map (rows width) =
      (rows degree numbers).map fun element => element.map record := by
  have hrecords : ∀ element ∈ rows degree numbers, ∀ x ∈ element.map record, x.length = width := by
    intro element helement x hx
    obtain ⟨g, hg, rfl⟩ := List.mem_map.1 hx
    rw [← flatten_rows hdegree hwhole] at h
    exact h g (List.mem_flatten_of_mem helement hg)
  have hlength : ∀ values ∈ (rows degree numbers).map fun element => (element.map record).flatten,
      values.length = degree * width := by
    intro values hvalues
    obtain ⟨element, helement, rfl⟩ := List.mem_map.1 hvalues
    rw [length_flatten_of_width (hrecords element helement), List.length_map,
      length_of_mem_rows hdegree hwhole element helement]
  have hflat : numbers.flatMap record =
      ((rows degree numbers).map fun element => (element.map record).flatten).flatten := by
    have hnumbers := congrArg (List.flatMap record) (flatten_rows hdegree hwhole)
    rw [← hnumbers, List.flatMap_def, List.map_flatten, List.flatten_flatten, List.map_map]
    rfl
  rw [hflat, rows_flatten (Nat.mul_pos hdegree hwidth) hlength, List.map_map]
  exact List.map_congr_left fun element helement => rows_flatten hwidth (hrecords element helement)

/-- Whether a list of `length` values holds whole records of `degree` values. -/
def holdsRecords (degree length : Nat) : Bool :=
  degree ≠ 0 && length % degree == 0

end SharedMesh
