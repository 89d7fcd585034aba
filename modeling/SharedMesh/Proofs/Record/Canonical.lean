import SharedMesh.Proofs.Checked
import SharedMesh.Proofs.Record.Cycle

/-!
# Canonical records of a mesh

`Canonical.ofRecords` accepts records of local vertices if there are whole records, if all
vertices have a number, and if no record has a number twice (`Acceptable`). Then it yields
the canonical form of every record (`ofRecords_eq_ok_iff`), and otherwise reports one of
the faults of the records (`ofRecords_reports`).
-/

namespace SharedMesh

variable {degree : Nat} {vertices numbers : List Nat}

/-- The global numbers of the vertices of each record. -/
def globalRecords (degree : Nat) (vertices numbers : List Nat) : List (List Nat) :=
  rows degree (vertices.map fun v => numbers.getD v 0)

/-- The keys of records: their canonical global numbers. -/
def recordKeys (degree : Nat) (vertices numbers : List Nat) : List (List Nat) :=
  (globalRecords degree vertices numbers).map (canonicalForm degree)

/-- Records that have a canonical form. -/
structure Acceptable (degree : Nat) (vertices numbers : List Nat) : Prop where
  degree_pos : 0 < degree
  whole : vertices.length = vertices.length / degree * degree
  named : ∀ v ∈ vertices, v < numbers.length
  nodup : ∀ record ∈ globalRecords degree vertices numbers, record.Nodup

theorem firstRepeat?_eq_none_iff {record : List Nat} :
    firstRepeat? record = none ↔ record.Nodup := by
  induction record with
  | nil => simp [firstRepeat?]
  | cons g rest ih =>
    rw [firstRepeat?, List.nodup_cons]
    by_cases h : g ∈ rest
    · simp [h]
    · simp [h, ih]

namespace Acceptable

theorem length_globalRecords (h : Acceptable degree vertices numbers) :
    ∀ record ∈ globalRecords degree vertices numbers, record.length = degree :=
  length_of_mem_rows h.degree_pos ((List.length_map _).trans h.whole)

theorem length_rows_vertices (h : Acceptable degree vertices numbers) :
    ∀ record ∈ rows degree vertices, record.length = degree :=
  length_of_mem_rows h.degree_pos h.whole

theorem length_recordKeys (h : Acceptable degree vertices numbers) :
    ∀ key ∈ recordKeys degree vertices numbers, key.length = degree := by
  intro key hkey
  obtain ⟨record, hrecord, rfl⟩ := List.mem_map.1 hkey
  exact length_canonicalForm (h.length_globalRecords record hrecord)

end Acceptable

/-- The canonical forms of the records, with the turns that lead there. -/
def canonicalRecords (degree : Nat) (vertices numbers : List Nat) : Canonical where
  degree := degree
  turns := (globalRecords degree vertices numbers).map (Turn.toCanonical degree)
  vertices := ((rows degree vertices).map fun record => (Turn.toCanonical degree
    (record.map fun v => numbers.getD v 0)).apply degree record).flatten
  globals := (recordKeys degree vertices numbers).flatten

/-- Every record is turned by its own turn. -/
theorem rows_canonicalRecords (h : Acceptable degree vertices numbers) :
    rows degree (canonicalRecords degree vertices numbers).vertices =
      (rows degree vertices).map fun record => (Turn.toCanonical degree
        (record.map fun v => numbers.getD v 0)).apply degree record := by
  refine rows_flatten h.degree_pos fun row hrow => ?_
  obtain ⟨record, hrecord, rfl⟩ := List.mem_map.1 hrow
  exact Turn.length_apply _ (h.length_rows_vertices record hrecord)

/-- The canonical records, by the numbers of their vertices. -/
theorem map_rows_canonicalRecords (h : Acceptable degree vertices numbers) :
    (rows degree (canonicalRecords degree vertices numbers).vertices).map
      (List.map fun v => numbers.getD v 0) = recordKeys degree vertices numbers := by
  rw [rows_canonicalRecords h, List.map_map, recordKeys, globalRecords, rows_map, List.map_map]
  refine List.map_congr_left fun record _ => ?_
  simp only [Function.comp_apply, ← Turn.apply_map]
  rfl

theorem countRecords_eq_ok {length : Nat} (hpos : 0 < degree)
    (h : length = length / degree * degree) :
    countRecords degree length = .ok (length / degree) := by
  have hmod : length % degree = 0 := by
    have := Nat.div_add_mod length degree
    rw [Nat.mul_comm] at this
    omega
  exact if_pos (by simp [holdsRecords, Nat.ne_of_gt hpos, hmod])

theorem whole_of_countRecords {length count : Nat} (h : countRecords degree length = .ok count) :
    0 < degree ∧ length = length / degree * degree := by
  rw [countRecords] at h
  split at h
  · next hholds =>
    simp only [holdsRecords, Bool.and_eq_true, decide_eq_true_eq, beq_iff_eq] at hholds
    exact ⟨Nat.pos_of_ne_zero hholds.1, (Nat.div_mul_cancel (Nat.dvd_of_mod_eq_zero hholds.2)).symm⟩
  · cases h

theorem canonicalTurns_eq_ok {globals : List Nat} (hpos : 0 < degree)
    (hwhole : globals.length = globals.length / degree * degree)
    (hnodup : ∀ record ∈ rows degree globals, record.Nodup) :
    canonicalTurns degree globals = .ok ((rows degree globals).map (Turn.toCanonical degree)) := by
  rw [canonicalTurns, countRecords_eq_ok hpos hwhole]
  refine (mapM_eq_ok (g := fun x => Turn.toCanonical degree x.1) fun x hx => ?_).trans
    (congrArg _ ?_)
  · simp only [firstRepeat?_eq_none_iff.2 (hnodup _ (List.fst_mem_of_mem_zipIdx hx))]
  · conv_rhs => rw [← List.zipIdx_map_fst 0 (rows degree globals), List.map_map]
    rfl

theorem turnRecords_eq_ok {α : Type} {values : List α} (turns : List Turn) (hpos : 0 < degree)
    (hwhole : values.length = values.length / degree * degree)
    (hturns : turns.length = values.length / degree) :
    turnRecords degree values turns =
      .ok ((rows degree values).zipWith (fun record t => t.apply degree record) turns).flatten := by
  rw [turnRecords, countRecords_eq_ok hpos hwhole]
  simp [bind, Except.bind, hturns, pure, Except.pure]

theorem numberOf_eq_ok {v : Nat} (hv : v < numbers.length) :
    Canonical.numberOf numbers.toArray v = .ok (numbers.getD v 0) := by
  simp [Canonical.numberOf, hv]

theorem numberOf_eq_error {v : Nat} (hv : numbers.length ≤ v) :
    Canonical.numberOf numbers.toArray v =
      .error (.connectivity (.missingVertex v numbers.length)) := by
  simp [Canonical.numberOf, hv]

/-- Acceptable records have canonical forms. -/
theorem ofRecords_eq_ok (h : Acceptable degree vertices numbers) :
    Canonical.ofRecords degree vertices numbers =
      .ok (canonicalRecords degree vertices numbers) := by
  have hwhole : (vertices.map fun v => numbers.getD v 0).length =
      (vertices.map fun v => numbers.getD v 0).length / degree * degree := by
    rw [List.length_map]
    exact h.whole
  have hturns := canonicalTurns_eq_ok h.degree_pos hwhole h.nodup
  have hvertices := turnRecords_eq_ok ((globalRecords degree vertices numbers).map
    (Turn.toCanonical degree)) h.degree_pos h.whole (by simp [globalRecords])
  have hturned := turnRecords_eq_ok ((globalRecords degree vertices numbers).map
    (Turn.toCanonical degree)) h.degree_pos hwhole (by simp [globalRecords])
  refine (bind_of_ok (countRecords_eq_ok h.degree_pos h.whole) _).trans ?_
  refine (bind_of_ok (mapM_eq_ok fun v hv => numberOf_eq_ok (h.named v hv)) _).trans ?_
  refine (bind_of_ok hturns _).trans ?_
  refine (bind_of_ok hvertices _).trans ?_
  refine (bind_of_ok hturned _).trans ?_
  refine congrArg Except.ok ?_
  rw [canonicalRecords, Canonical.mk.injEq]
  refine ⟨rfl, rfl, ?_, ?_⟩
  · rw [globalRecords, rows_map, List.map_map, List.zipWith_map_right, List.zipWith_self]
    rfl
  · rw [← globalRecords, List.zipWith_map_right, List.zipWith_self]
    rfl

/-- Only acceptable records have canonical forms. -/
theorem acceptable_of_ofRecords {c : Canonical}
    (h : Canonical.ofRecords degree vertices numbers = .ok c) :
    Acceptable degree vertices numbers := by
  obtain ⟨_, hcount, h⟩ := bind_eq_ok h
  obtain ⟨globals, hglobals, h⟩ := bind_eq_ok h
  obtain ⟨turns, hturns, _⟩ := bind_eq_ok h
  obtain ⟨hpos, hwhole⟩ := whole_of_countRecords hcount
  have hnamed : ∀ v ∈ vertices, v < numbers.length := by
    intro v hv
    obtain ⟨g, hg⟩ := ok_of_mapM hglobals v hv
    by_contra hge
    rw [numberOf_eq_error (Nat.le_of_not_lt hge)] at hg
    cases hg
  have hnumbers : globals = vertices.map fun v => numbers.getD v 0 :=
    Except.ok.inj (hglobals.symm.trans (mapM_eq_ok fun v hv => numberOf_eq_ok (hnamed v hv)))
  refine ⟨hpos, hwhole, hnamed, fun record hrecord => ?_⟩
  obtain ⟨_, _, hturns⟩ := bind_eq_ok hturns
  obtain ⟨i, hi⟩ := List.mem_iff_getElem?.1 hrecord
  rw [globalRecords, ← hnumbers] at hi
  obtain ⟨t, ht⟩ := ok_of_mapM hturns (record, i) (List.mem_zipIdx_iff_getElem?.2 hi)
  cases hrepeat : firstRepeat? record with
  | none => exact firstRepeat?_eq_none_iff.1 hrepeat
  | some g => simp [hrepeat] at ht

/-- The records that have a canonical form, and that form. -/
theorem ofRecords_eq_ok_iff {c : Canonical} :
    Canonical.ofRecords degree vertices numbers = .ok c ↔
      Acceptable degree vertices numbers ∧ c = canonicalRecords degree vertices numbers := by
  constructor
  · intro h
    have hacceptable := acceptable_of_ofRecords h
    rw [ofRecords_eq_ok hacceptable, Except.ok.injEq] at h
    exact ⟨hacceptable, h.symm⟩
  · rintro ⟨h, rfl⟩
    exact ofRecords_eq_ok h

/-! ## What may be wrong with records -/

/-- The records that list a number twice. -/
def repeatFaults (records : List (List Nat)) : List MeshError :=
  records.zipIdx.flatMap fun (record, e) => ((firstRepeat? record).map (.degenerate e)).toList

/-- What may be wrong with records. If they are whole, and of vertices that are there, then all
    of them that list a number twice are at fault. -/
def recordFaults (degree : Nat) (vertices numbers : List Nat) : List MeshError :=
  if ¬ holdsRecords degree vertices.length then
    [.connectivity (.brokenRecords vertices.length degree)]
  else match vertices.find? (numbers.length ≤ ·) with
    | some v => [.connectivity (.missingVertex v numbers.length)]
    | none => repeatFaults (globalRecords degree vertices numbers)

theorem repeatFaults_eq_nil_iff {records : List (List Nat)} :
    repeatFaults records = [] ↔ ∀ record ∈ records, record.Nodup := by
  rw [repeatFaults, List.flatMap_eq_nil_iff]
  constructor
  · intro h record hrecord
    obtain ⟨e, he⟩ := List.mem_iff_getElem?.1 hrecord
    have := h (record, e) (List.mem_zipIdx_iff_getElem?.2 he)
    exact firstRepeat?_eq_none_iff.1 (by simpa using this)
  · intro h x hx
    simp [firstRepeat?_eq_none_iff.2 (h x.1 (List.fst_mem_of_mem_zipIdx hx))]

theorem canonicalTurns_reports {degree : Nat} {globals : List Nat}
    (hholds : holdsRecords degree globals.length) :
    (canonicalTurns degree globals).Reports (repeatFaults (rows degree globals)) := by
  have hcount : countRecords degree globals.length = .ok (globals.length / degree) := if_pos hholds
  rw [canonicalTurns, bind_of_ok hcount, repeatFaults]
  refine (congrArg (Checked.Reports _) (List.flatMap_congr fun x _ => ?_)).mp
    (Checked.reports_mapM _ _)
  dsimp only
  cases firstRepeat? x.1 <;> rfl

/-- The numbers of vertices are read up to the first vertex that is not there. -/
theorem mapM_numberOf (vertices numbers : List Nat) :
    vertices.mapM (Canonical.numberOf numbers.toArray) =
      match vertices.find? (numbers.length ≤ ·) with
      | some v => .error (.connectivity (.missingVertex v numbers.length))
      | none => .ok (vertices.map fun v => numbers.getD v 0) := by
  induction vertices with
  | nil => rfl
  | cons v vertices ih =>
    rw [List.mapM_cons]
    by_cases hv : numbers.length ≤ v
    · rw [numberOf_eq_error hv, List.find?_cons_of_pos (by simpa using hv)]
      rfl
    · rw [numberOf_eq_ok (Nat.lt_of_not_le hv), ih, List.find?_cons_of_neg (by simpa using hv)]
      cases vertices.find? (numbers.length ≤ ·) <;> rfl

/-- Records are brought into canonical form, or one of their faults is reported. -/
theorem ofRecords_reports (degree : Nat) (vertices numbers : List Nat) :
    (Canonical.ofRecords degree vertices numbers).Reports
      (recordFaults degree vertices numbers) := by
  rw [Canonical.ofRecords, recordFaults]
  by_cases hholds : holdsRecords degree vertices.length
  case neg =>
    have hcount : countRecords degree vertices.length =
        .error (.connectivity (.brokenRecords vertices.length degree)) := if_neg hholds
    rw [if_pos hholds, hcount]
    exact List.mem_singleton_self _
  have hcount : countRecords degree vertices.length = .ok (vertices.length / degree) :=
    if_pos hholds
  rw [if_neg (not_not.2 hholds), bind_of_ok hcount, mapM_numberOf]
  cases hfind : vertices.find? (numbers.length ≤ ·) with
  | some v => exact List.mem_singleton_self _
  | none =>
    have hturns : (canonicalTurns degree (vertices.map fun v => numbers.getD v 0)).Reports
        (repeatFaults (globalRecords degree vertices numbers)) :=
      canonicalTurns_reports (by rwa [List.length_map])
    refine hturns.bind fun turns hok => ?_
    obtain ⟨hpos, hwhole⟩ := whole_of_countRecords hcount
    have hnodup := repeatFaults_eq_nil_iff.1 (hturns.eq_nil_iff.2 ⟨turns, hok⟩)
    have haccept : Acceptable degree vertices numbers :=
      ⟨hpos, hwhole, fun v hv => by simpa using List.find?_eq_none.1 hfind v hv, hnodup⟩
    have hrecords := ofRecords_eq_ok haccept
    rw [Canonical.ofRecords, bind_of_ok hcount, mapM_numberOf, hfind,
      bind_of_ok rfl, bind_of_ok hok] at hrecords
    exact ⟨_, hrecords⟩

example : recordFaults 2 [0, 0, 0, 1, 1, 1] [5, 6] = [.degenerate 0 5, .degenerate 2 6] := by decide

end SharedMesh
