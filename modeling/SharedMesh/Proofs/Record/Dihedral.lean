import SharedMesh.Proofs.Record.Canonical

/-!
# Turns form a group

A turn reads a record from some slot on, in one direction or in the other (`slotFrom`), so two
turns after each other are one turn (`slotFrom_slotFrom`). This is what `compose` recovers from
two slots (`compose_eq`), whatever bytes the turns are: its result reads as they do
(`source_compose`), and it is the same byte for all turns that read alike. So composing is
associative and `inverse` undoes a turn, for single records and for lists of them
(`turns_dihedral`).
-/

namespace SharedMesh

namespace Turn

variable {degree : Nat} {α : Type}

/-- The slot that is read at `i` from `start` on, backwards if flipped. -/
def slotFrom (degree : Nat) (flipped : Bool) (start i : Nat) : Nat :=
  if flipped then if i ≤ start then start - i else start + degree - i
  else if start + i < degree then start + i else start + i - degree

/-! ## Reading -/

/-- Two readings after each other are one. -/
theorem slotFrom_slotFrom (flipped flipped' : Bool) {start start' i : Nat} (hs : start < degree)
    (hs' : start' < degree) (hi : i < degree) :
    slotFrom degree flipped start (slotFrom degree flipped' start' i) =
      slotFrom degree (flipped ^^ flipped') (slotFrom degree flipped start start') i := by
  cases flipped <;> cases flipped' <;> simp only [slotFrom] <;> grind

/-- From three slots on, slot one tells the direction. -/
theorem slotFrom_one_ne_iff (flipped : Bool) {start : Nat} (hthree : 3 ≤ degree)
    (hs : start < degree) :
    slotFrom degree flipped start 1 ≠ (start + 1) % degree ↔ flipped = true := by
  have hnext : (start + 1) % degree = if start + 1 < degree then start + 1 else 0 := by
    split
    · exact Nat.mod_eq_of_lt ‹_›
    · rw [show start + 1 = degree by omega, Nat.mod_self]
  rw [hnext]
  cases flipped with
  | false => simp only [slotFrom]; grind
  | true => simp only [slotFrom]; grind

/-- On fewer slots there is only one direction. -/
theorem slotFrom_of_lt_three (flipped : Bool) {start i : Nat} (hthree : degree < 3)
    (hs : start < degree) (hi : i < degree) :
    slotFrom degree flipped start i = slotFrom degree false start i := by
  cases flipped with
  | false => rfl
  | true => simp only [slotFrom]; grind

theorem source_zero (t : Turn) (degree : Nat) :
    t.source degree 0 = t.rotation.toNat % degree := by
  rw [source]
  split <;> simp

/-- A turn reads from the slot on that comes first. -/
theorem source_eq (t : Turn) {i : Nat} (hi : i < degree) :
    t.source degree i = slotFrom degree t.flipped (t.source degree 0) i := by
  have hs : t.rotation.toNat % degree < degree := Nat.mod_lt _ (Nat.zero_lt_of_lt hi)
  rw [source_zero, source, ← Nat.mod_add_mod]
  generalize t.rotation.toNat % degree = start at hs ⊢
  cases t.flipped with
  | false =>
    rw [slotFrom, if_neg Bool.false_ne_true, if_neg Bool.false_ne_true]
    split
    · exact Nat.mod_eq_of_lt ‹_›
    · rw [Nat.mod_eq_sub_mod (by omega), Nat.mod_eq_of_lt (by omega)]
  | true =>
    rw [slotFrom, if_pos rfl, if_pos rfl, Nat.add_mod_mod]
    split
    · rw [Nat.mod_eq_sub_mod (by omega), Nat.mod_eq_of_lt (by omega)]
      omega
    · rw [Nat.mod_eq_of_lt (by omega)]
      omega

theorem source_source (a b : Turn) {i : Nat} (hi : i < degree) :
    a.source degree (b.source degree i) =
      slotFrom degree (a.flipped ^^ b.flipped) (a.source degree (b.source degree 0)) i := by
  have hpos : 0 < degree := Nat.zero_lt_of_lt hi
  rw [a.source_eq (b.source_lt hpos i), b.source_eq hi,
    slotFrom_slotFrom _ _ (a.source_lt hpos 0) (b.source_lt hpos 0) hi,
    ← a.source_eq (b.source_lt hpos 0)]

/-! ## Composing -/

/-- Whether flips of records of some degree can be told from rotations. -/
def seesFlips (degree : Nat) : Bool := decide (3 ≤ degree)

/-- What is recovered from two slots: where the record starts, and whether it is flipped. -/
theorem compose_eq (hpos : 0 < degree) (a b : Turn) : compose degree a b =
    pack (seesFlips degree && (a.flipped ^^ b.flipped))
      (UInt8.ofNat (a.source degree (b.source degree 0))) := by
  rw [compose, seesFlips]
  split
  · next hthree =>
    rw [decide_eq_false (Nat.not_le.2 hthree)]
    rfl
  · next hthree =>
    have hsecond := a.source_source b (i := 1) (by omega : 1 < degree)
    have hflip := slotFrom_one_ne_iff (a.flipped ^^ b.flipped) (Nat.le_of_not_lt hthree)
      (a.source_lt hpos (b.source degree 0))
    rw [decide_eq_true (Nat.le_of_not_lt hthree), Bool.true_and, hsecond]
    simp only [hflip, Bool.decide_eq_true]

section

variable (hpos : 0 < degree) (hle : degree ≤ 128)

include hpos hle

theorem source_compose_zero (a b : Turn) :
    (compose degree a b).source degree 0 = a.source degree (b.source degree 0) := by
  have hlt := a.source_lt hpos (b.source degree 0)
  rw [compose_eq hpos, source_zero, rotation_pack _ _ (by omega), Nat.mod_eq_of_lt hlt]

theorem flipped_compose (a b : Turn) :
    (compose degree a b).flipped = (seesFlips degree && (a.flipped ^^ b.flipped)) := by
  have hlt := a.source_lt hpos (b.source degree 0)
  rw [compose_eq hpos, flipped_pack _ _ (by omega)]

/-- A composed turn reads as its parts do after each other. -/
theorem source_compose (a b : Turn) {i : Nat} (hi : i < degree) :
    (compose degree a b).source degree i = a.source degree (b.source degree i) := by
  have hlt := a.source_lt hpos (b.source degree 0)
  rw [source_eq _ hi, source_compose_zero hpos hle, flipped_compose hpos hle,
    source_source a b hi, seesFlips]
  by_cases hthree : 3 ≤ degree
  · rw [decide_eq_true hthree, Bool.true_and]
  · rw [decide_eq_false hthree, Bool.false_and,
      slotFrom_of_lt_three (a.flipped ^^ b.flipped) (Nat.lt_of_not_le hthree) hlt hi]

theorem compose_assoc (a b c : Turn) :
    compose degree (compose degree a b) c = compose degree a (compose degree b c) := by
  rw [compose_eq hpos (compose degree a b) c, compose_eq hpos a (compose degree b c),
    flipped_compose hpos hle, flipped_compose hpos hle, source_compose_zero hpos hle,
    source_compose hpos hle a b (c.source_lt hpos 0)]
  cases seesFlips degree
  · rfl
  · simp only [Bool.true_and, Bool.xor_assoc]

/-! ## Undoing -/

omit hpos hle in
theorem inverse_of_flipped {t : Turn} (h : t.flipped = true) : inverse degree t = t := if_pos h

omit hle in
theorem inverse_of_not_flipped {t : Turn} (h : t.flipped = false) : inverse degree t =
    pack false (UInt8.ofNat ((degree - t.source degree 0) % degree)) := by
  have hmax : degree.max 1 = degree := Nat.max_eq_left hpos
  rw [inverse, h, if_neg Bool.false_ne_true, source_zero]
  simp only [hmax]

theorem flipped_inverse (t : Turn) : (inverse degree t).flipped = t.flipped := by
  cases h : t.flipped with
  | true => rw [inverse_of_flipped h, h]
  | false =>
    have := Nat.mod_lt (degree - t.source degree 0) hpos
    rw [inverse_of_not_flipped hpos h, flipped_pack _ _ (by omega)]

/-- A turn and its inverse take slot zero back, in either order. -/
theorem source_inverse_zero (t : Turn) :
    t.source degree ((inverse degree t).source degree 0) = 0 ∧
      (inverse degree t).source degree (t.source degree 0) = 0 := by
  have hs := t.source_lt hpos 0
  have hs' := (inverse degree t).source_lt hpos 0
  rw [t.source_eq hs', (inverse degree t).source_eq hs, flipped_inverse hpos hle]
  cases h : t.flipped with
  | true =>
    rw [inverse_of_flipped h]
    simp [slotFrom]
  | false =>
    have hlt := Nat.mod_lt (degree - t.source degree 0) hpos
    have hinverse : (inverse degree t).source degree 0 =
        if t.source degree 0 = 0 then 0 else degree - t.source degree 0 := by
      rw [inverse_of_not_flipped hpos h, source_zero, rotation_pack _ _ (by omega), Nat.mod_mod]
      split
      · next hzero => rw [hzero, Nat.sub_zero, Nat.mod_self]
      · exact Nat.mod_eq_of_lt (by omega)
    rw [hinverse]
    simp only [slotFrom]
    grind

theorem compose_inverse (t : Turn) : compose degree t (inverse degree t) = identity := by
  rw [compose_eq hpos, (source_inverse_zero hpos hle t).1, flipped_inverse hpos hle,
    Bool.xor_self, Bool.and_false]
  rfl

theorem inverse_compose (t : Turn) : compose degree (inverse degree t) t = identity := by
  rw [compose_eq hpos, (source_inverse_zero hpos hle t).2, flipped_inverse hpos hle,
    Bool.xor_self, Bool.and_false]
  rfl

/-! ## Records -/

theorem apply_apply (a b : Turn) {record : List α} (h : record.length = degree) :
    b.apply degree (a.apply degree record) = (compose degree a b).apply degree record := by
  have hturned := length_apply a h
  refine List.ext_getElem? fun i => ?_
  by_cases hi : i < degree
  · rw [getElem?_apply b hturned hi, getElem?_apply a h (b.source_lt hpos i),
      getElem?_apply _ h hi, source_compose hpos hle a b hi]
  · rw [List.getElem?_eq_none (by rw [length_apply b hturned]; omega),
      List.getElem?_eq_none (by rw [length_apply _ h]; omega)]

omit hpos hle in
/-- The turn of no rotation and no flip leaves records as they are. -/
theorem apply_identity {record : List α} (h : record.length = degree) :
    identity.apply degree record = record := by
  refine List.ext_getElem? fun i => ?_
  by_cases hi : i < degree
  · rw [getElem?_apply _ h hi, source_eq _ hi, source_zero]
    simp [slotFrom, identity, flipped, rotation, hi]
  · rw [List.getElem?_eq_none (by rw [length_apply _ h]; omega),
      List.getElem?_eq_none (by omega)]

end

end Turn

/-! ## Lists of records -/

variable {degree : Nat} {α : Type}

/-- Records turned by their turns. -/
def turned (degree : Nat) (values : List α) (turns : List Turn) : List α :=
  ((rows degree values).zipWith (fun record t => t.apply degree record) turns).flatten

/-- As many turns as there are records can be applied. -/
theorem turnRecords_eq_turned {values : List α} {turns : List Turn} (hpos : 0 < degree)
    (h : values.length = turns.length * degree) :
    turnRecords degree values turns = .ok (turned degree values turns) := by
  have hcount : values.length / degree = turns.length := by rw [h, Nat.mul_div_cancel _ hpos]
  exact turnRecords_eq_ok turns hpos (by rw [hcount, h]) hcount.symm

theorem length_of_mem_turned {values : List α} {turns : List Turn} (hpos : 0 < degree)
    (h : values.length = turns.length * degree) :
    ∀ record ∈ (rows degree values).zipWith (fun record t => t.apply degree record) turns,
      record.length = degree := by
  intro record hrecord
  rw [← List.map_uncurry_zip_eq_zipWith, List.mem_map] at hrecord
  obtain ⟨⟨row, t⟩, hmem, rfl⟩ := hrecord
  exact Turn.length_apply t (length_of_mem_rows hpos h row (List.of_mem_zip hmem).1)

theorem rows_turned {values : List α} {turns : List Turn} (hpos : 0 < degree)
    (h : values.length = turns.length * degree) : rows degree (turned degree values turns) =
      (rows degree values).zipWith (fun record t => t.apply degree record) turns :=
  rows_flatten hpos (length_of_mem_turned hpos h)

theorem length_turned {values : List α} {turns : List Turn} (hpos : 0 < degree)
    (h : values.length = turns.length * degree) :
    (turned degree values turns).length = turns.length * degree := by
  rw [turned, length_flatten_of_width (length_of_mem_turned hpos h), List.length_zipWith,
    length_rows, h, Nat.mul_div_cancel _ hpos, Nat.min_self]

section

variable (hpos : 0 < degree) (hle : degree ≤ 128) {values : List α}

include hpos hle

theorem zipWith_apply_apply {records : List (List α)}
    (hrecords : ∀ record ∈ records, record.length = degree) (first next : List Turn) :
    (records.zipWith (fun record t => t.apply degree record) first).zipWith
        (fun record t => t.apply degree record) next =
      records.zipWith (fun record t => t.apply degree record)
        (first.zipWith (Turn.compose degree) next) := by
  induction records generalizing first next with
  | nil => rfl
  | cons record records ih =>
    rw [List.forall_mem_cons] at hrecords
    cases first with
    | nil => rfl
    | cons a first =>
      cases next with
      | nil => rfl
      | cons b next =>
        simp only [List.zipWith_cons_cons, Turn.apply_apply hpos hle a b hrecords.1,
          ih hrecords.2]

/-- Turning twice is turning once, by the composed turns. -/
theorem turned_turned {first : List Turn} (next : List Turn)
    (h : values.length = first.length * degree) :
    turned degree (turned degree values first) next =
      turned degree values (first.zipWith (Turn.compose degree) next) := by
  rw [turned, rows_turned hpos h,
    zipWith_apply_apply hpos hle (length_of_mem_rows hpos h) first next, turned]

omit hle in
theorem turned_identity {turns : List Turn} (h : values.length = turns.length * degree) :
    turned degree values (turns.map fun _ => Turn.identity) = values := by
  have hcount : (rows degree values).length = turns.length := by
    rw [length_rows, h, Nat.mul_div_cancel _ hpos]
  have hrows : (rows degree values).zipWith (fun record t => t.apply degree record)
      (turns.map fun _ => Turn.identity) = rows degree values := by
    refine List.ext_getElem (by simp [hcount]) fun i hi hi' => ?_
    rw [List.getElem_zipWith, List.getElem_map]
    exact Turn.apply_identity (length_of_mem_rows hpos h _ (List.getElem_mem hi'))
  rw [turned, hrows, flatten_rows hpos h]

/-- Records turned by turns that undo each other are as before. -/
theorem turnRecords_undo (first next : Turn → Turn) {turns : List Turn}
    (hundo : ∀ t, (first t).compose degree (next t) = Turn.identity)
    (h : values.length = turns.length * degree) :
    ∃ once, turnRecords degree values (turns.map first) = .ok once ∧
      turnRecords degree once (turns.map next) = .ok values := by
  have hfirst : values.length = (turns.map first).length * degree := by rw [List.length_map, h]
  have hnext : (turned degree values (turns.map first)).length =
      (turns.map next).length * degree := by
    rw [length_turned hpos hfirst, List.length_map, List.length_map]
  have hback : turned degree (turned degree values (turns.map first)) (turns.map next) =
      values := by
    rw [turned_turned hpos hle _ hfirst, List.zipWith_map, List.zipWith_self,
      List.map_congr_left fun t _ => hundo t, turned_identity hpos h]
  exact ⟨_, turnRecords_eq_turned hpos hfirst, by rw [turnRecords_eq_turned hpos hnext, hback]⟩

end

/-! ## The laws -/

/-- Turns compose, and can be undone, whatever bytes they are. -/
structure DihedralLaw (degree : Nat) : Prop where
  /-- Turned twice, records are as after the composed turns. -/
  turn_turn : ∀ {α : Type} (values : List α) (first next : List Turn),
    values.length = first.length * degree → next.length = first.length →
    ∃ once twice, turnRecords degree values first = .ok once ∧
      turnRecords degree once next = .ok twice ∧
      turnRecords degree values (first.zipWith (Turn.compose degree) next) = .ok twice
  /-- An inverse turns records back. -/
  turn_inverse : ∀ {α : Type} (values : List α) (turns : List Turn),
    values.length = turns.length * degree →
    ∃ once, turnRecords degree values turns = .ok once ∧
      turnRecords degree once (turns.map (Turn.inverse degree)) = .ok values
  /-- A turn turns back what its inverse has turned. -/
  inverse_turn : ∀ {α : Type} (values : List α) (turns : List Turn),
    values.length = turns.length * degree →
    ∃ once, turnRecords degree values (turns.map (Turn.inverse degree)) = .ok once ∧
      turnRecords degree once turns = .ok values
  compose_inverse : ∀ t : Turn, t.compose degree (t.inverse degree) = Turn.identity
  compose_assoc : ∀ a b c : Turn,
    (a.compose degree b).compose degree c = a.compose degree (b.compose degree c)

/-- Turns of records of up to 128 vertices obey the laws of the dihedral group. -/
theorem turns_dihedral (hpos : 0 < degree) (hle : degree ≤ 128) : DihedralLaw degree where
  turn_turn values first next h hnext := by
    have honce : (turned degree values first).length = next.length * degree := by
      rw [length_turned hpos h, hnext]
    have hcomposed : values.length =
        (first.zipWith (Turn.compose degree) next).length * degree := by
      rw [List.length_zipWith, hnext, Nat.min_self, h]
    exact ⟨_, _, turnRecords_eq_turned hpos h,
      by rw [turnRecords_eq_turned hpos honce, turned_turned hpos hle next h],
      turnRecords_eq_turned hpos hcomposed⟩
  turn_inverse values turns h := by
    have := turnRecords_undo hpos hle id (Turn.inverse degree) (Turn.compose_inverse hpos hle) h
    rwa [List.map_id] at this
  inverse_turn values turns h := by
    have := turnRecords_undo hpos hle (Turn.inverse degree) id (Turn.inverse_compose hpos hle) h
    rwa [List.map_id] at this
  compose_inverse := Turn.compose_inverse hpos hle
  compose_assoc := Turn.compose_assoc hpos hle

/-- Two quadrilaterals, turned by bytes whose rotations exceed the degree. -/
theorem turns_dihedral_quadrilaterals : DihedralLaw 4 ∧
    turnRecords 4 [10, 11, 12, 13, 14, 15, 16, 17] [⟨255⟩, ⟨18⟩] =
      .ok [13, 12, 11, 10, 15, 16, 17, 14] ∧
    turnRecords 4 [13, 12, 11, 10, 15, 16, 17, 14] ([⟨255⟩, ⟨18⟩].map (Turn.inverse 4)) =
      .ok [10, 11, 12, 13, 14, 15, 16, 17] :=
  ⟨turns_dihedral (by decide) (by decide), by decide, by decide⟩

end SharedMesh
