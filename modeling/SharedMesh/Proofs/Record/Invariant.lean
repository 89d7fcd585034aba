import SharedMesh.Proofs.Record.Canonical

/-!
# The canonical form is a complete invariant

A record of distinct numbers, turned by its own turn, is its canonical form
(`aligned_eq_ok`). A canonical form stays as it is (`toCanonical_of_isCanonical`), and the
turns of a flat list of records are refused exactly if a record has a number twice
(`canonicalTurns_eq_error_iff`). Together with `canonicalForm_eq_iff` these make up what is
promised of canonical forms (`CompleteInvariant`).
-/

namespace SharedMesh

variable {degree : Nat} {a : List Nat}

/-- A record that is turned by its own turn to canonical form. -/
def aligned (degree : Nat) (record : List Nat) : Checked (List Nat) := do
  let turn ← Turn.toCanonical? degree record
  turnRecords degree record [turn]

/-- A record as a list of distinct numbers. -/
structure IsRecord (degree : Nat) (record : List Nat) : Prop where
  length_eq : record.length = degree
  nodup : record.Nodup

theorem toCanonical?_eq_ok (hpos : 0 < degree) (h : a.length = degree) :
    Turn.toCanonical? degree a = .ok (Turn.toCanonical degree a) := by
  have hnext := Nat.mod_lt (leastSlot a + 1) hpos
  have hprevious := Nat.mod_lt (leastSlot a + degree - 1) hpos
  refine if_neg fun hshort => ?_
  rcases hshort.2 with hle | hle <;> omega

theorem rows_of_length (hpos : 0 < degree) (h : a.length = degree) : rows degree a = [a] := by
  have hrow : ∀ record ∈ [a], record.length = degree := by simpa using h
  have := rows_flatten hpos hrow
  rwa [List.flatten_singleton] at this

/-- A record, aligned, is its canonical form. -/
theorem aligned_eq_ok (hpos : 0 < degree) (h : a.length = degree) :
    aligned degree a = .ok (canonicalForm degree a) := by
  have hone : a.length / degree = 1 := by rw [h, Nat.div_self hpos]
  refine (bind_of_ok (toCanonical?_eq_ok hpos h) _).trans ?_
  rw [turnRecords_eq_ok [Turn.toCanonical degree a] hpos (by rw [hone, h, Nat.one_mul])
    (by rw [hone, List.length_singleton]), rows_of_length hpos h]
  simp [canonicalForm]

/-- The smallest number of a canonical record is in slot zero. -/
theorem leastSlot_of_isCanonical (hpos : 0 < a.length) (ha : a.Nodup) (hc : IsCanonical a) :
    leastSlot a = 0 := by
  obtain ⟨hslot, hmin⟩ := leastSlot_spec (List.ne_nil_of_length_pos hpos)
  have hget : ∀ i, (hi : i < a.length) → a.getD i 0 = a[i] := fun i hi => by
    rw [List.getD_eq_getElem?_getD, List.getElem?_eq_getElem hi, Option.getD_some]
  have hsame : a[leastSlot a] = a[0] := by
    have hle := hmin a[0] (List.getElem_mem hpos)
    have hge := hc.head_le a[leastSlot a] (List.getElem_mem hslot)
    rw [hget _ hslot] at hle
    rw [hget _ hpos] at hge
    exact Nat.le_antisymm hle hge
  exact ha.getElem_inj_iff.1 hsame

/-- A canonical record is not turned. -/
theorem toCanonical_of_isCanonical (hpos : 0 < degree) (h : a.length = degree) (ha : a.Nodup)
    (hc : IsCanonical a) : Turn.toCanonical degree a = Turn.identity := by
  have hleast := leastSlot_of_isCanonical (h ▸ hpos) ha hc
  rw [Turn.toCanonical, hleast]
  split
  · rfl
  · next hthree =>
    -- in slot one is the smaller neighbour of the first number, so there is no flip
    have hlt : ¬a.getD (degree - 1) 0 < a.getD 1 0 :=
      Nat.not_lt.2 (h ▸ (hc.second_lt (by omega)).le)
    simp only [Nat.zero_add, Nat.mod_eq_of_lt (show 1 < degree by omega),
      Nat.mod_eq_of_lt (Nat.sub_lt hpos Nat.one_pos), hlt, decide_false]
    rfl

/-- The smallest number of a record comes first in its canonical form. -/
theorem head?_canonicalForm (hpos : 0 < degree) (hle : degree ≤ 128) (h : a.length = degree)
    (ha : a.Nodup) : (canonicalForm degree a).head? = a.min? := by
  have hc := isCanonical_canonicalForm hpos hle h ha
  have hperm := (canonicalForm_sameCycle h).perm
  obtain ⟨g, rest, hform⟩ := List.exists_cons_of_length_pos
    (hpos.trans_eq (length_canonicalForm h).symm)
  have hhead := hc.head_le
  rw [hform] at hhead hperm
  rw [hform, List.head?_cons, eq_comm, List.min?_eq_some_iff]
  exact ⟨hperm.mem_iff.2 List.mem_cons_self, fun x hx => hhead x (hperm.mem_iff.1 hx)⟩

/-- The turns of a list of whole records are refused exactly if a record has a number twice. -/
theorem canonicalTurns_eq_error_iff {globals : List Nat} (hpos : 0 < degree)
    (hwhole : degree ∣ globals.length) :
    (∃ e, canonicalTurns degree globals = .error e) ↔
      ∃ record ∈ rows degree globals, ¬record.Nodup := by
  have hcount := (Nat.div_mul_cancel hwhole).symm
  constructor
  · rintro ⟨e, he⟩
    by_contra hnodup
    push Not at hnodup
    rw [canonicalTurns_eq_ok hpos hcount hnodup] at he
    cases he
  · rintro ⟨record, hrecord, hdup⟩
    obtain ⟨i, hi⟩ := List.mem_iff_getElem?.1 hrecord
    obtain ⟨g, hg⟩ := Option.ne_none_iff_exists'.1 (mt firstRepeat?_eq_none_iff.1 hdup)
    cases hturns : canonicalTurns degree globals with
    | error e => exact ⟨e, rfl⟩
    | ok turns =>
      obtain ⟨_, _, hturns⟩ := bind_eq_ok hturns
      obtain ⟨t, ht⟩ := ok_of_mapM hturns (record, i) (List.mem_zipIdx_iff_getElem?.2 hi)
      simp [hg] at ht

/-- What is promised of the canonical forms of records of `degree` numbers. -/
structure CompleteInvariant (degree : Nat) : Prop where
  /-- Two records come to be the same sequence exactly if one is a rotation of the other or
      of its reversal. -/
  aligned_eq_iff : ∀ x y, IsRecord degree x → IsRecord degree y →
    ∃ a b, aligned degree x = .ok a ∧ aligned degree y = .ok b ∧
      (a = b ↔ x ~r y ∨ x.reverse ~r y)
  /-- The smallest number is in slot zero. -/
  least_first : ∀ x a, IsRecord degree x → aligned degree x = .ok a → a.head? = x.min?
  /-- The smaller one of its neighbours is in slot one. -/
  second_lt : 3 ≤ degree → ∀ x a, IsRecord degree x → aligned degree x = .ok a →
    ∃ second last, a[1]? = some second ∧ a[degree - 1]? = some last ∧ second < last
  /-- What is in canonical form is not turned any more. -/
  idempotent : ∀ x a, IsRecord degree x → aligned degree x = .ok a →
    Turn.toCanonical? degree a = .ok Turn.identity ∧ aligned degree a = .ok a
  /-- Only records that repeat a number are refused. -/
  refuses_iff : ∀ globals : List Nat, degree ∣ globals.length →
    ((∃ e, canonicalTurns degree globals = .error e) ↔
      ∃ record ∈ rows degree globals, ¬record.Nodup)

/-- Two records of distinct numbers have the same canonical form exactly if they are the same
    up to rotation and reversal, and canonical forms are normal forms. -/
theorem canonicalForm_completeInvariant (hpos : 0 < degree) (hle : degree ≤ 128) :
    CompleteInvariant degree where
  aligned_eq_iff x y hx hy :=
    ⟨_, _, aligned_eq_ok hpos hx.length_eq, aligned_eq_ok hpos hy.length_eq,
      canonicalForm_eq_iff hpos hle hx.length_eq hy.length_eq hx.nodup hy.nodup⟩
  least_first x a hx ha := by
    rw [aligned_eq_ok hpos hx.length_eq, Except.ok.injEq] at ha
    rw [← ha]
    exact head?_canonicalForm hpos hle hx.length_eq hx.nodup
  second_lt hthree x a hx ha := by
    rw [aligned_eq_ok hpos hx.length_eq, Except.ok.injEq] at ha
    rw [← ha]
    have hlength := length_canonicalForm hx.length_eq
    have hlt := (isCanonical_canonicalForm hpos hle hx.length_eq hx.nodup).second_lt
      (by rwa [hlength])
    rw [hlength, List.getD_eq_getElem?_getD, List.getD_eq_getElem?_getD,
      List.getElem?_eq_getElem (by omega), List.getElem?_eq_getElem (by omega)] at hlt
    exact ⟨_, _, List.getElem?_eq_getElem (by omega), List.getElem?_eq_getElem (by omega), hlt⟩
  idempotent x a hx ha := by
    rw [aligned_eq_ok hpos hx.length_eq, Except.ok.injEq] at ha
    rw [← ha]
    have hlength := length_canonicalForm hx.length_eq
    have hnodup := (canonicalForm_sameCycle hx.length_eq).perm.nodup_iff.1 hx.nodup
    have hturn := toCanonical_of_isCanonical hpos hlength hnodup
      (isCanonical_canonicalForm hpos hle hx.length_eq hx.nodup)
    refine ⟨(toCanonical?_eq_ok hpos hlength).trans (congrArg _ hturn), ?_⟩
    -- both are canonical records of one cycle
    refine (aligned_eq_ok hpos hlength).trans (congrArg _ ?_)
    exact (canonicalForm_eq_iff hpos hle hlength hx.length_eq hnodup hx.nodup).2
      (canonicalForm_sameCycle hx.length_eq).symm
  refuses_iff _ hwhole := canonicalTurns_eq_error_iff hpos hwhole

theorem canonicalForm_completeInvariant_quadrilateral :
    0 < 4 ∧ 4 ≤ 128 ∧ CompleteInvariant 4 ∧ aligned 4 [7, 4, 2, 9] = .ok [2, 4, 7, 9] :=
  ⟨by decide, by decide, canonicalForm_completeInvariant (by decide) (by decide), by decide⟩

end SharedMesh
