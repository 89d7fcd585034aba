import Mathlib.Data.List.Rotate
import SharedMesh.Proofs.Sorting
import SharedMesh.Record.Canonical

/-!
# Cycles

Two records denote the same cycle if one is the other, read from some slot on, perhaps
backwards (`SameCycle`). The canonical form of a record is a record of the same cycle, and
two records have the same canonical form exactly if they denote the same cycle
(`canonicalForm_eq_iff`).
-/

namespace SharedMesh

variable {α β : Type}

/-- Whether two lists are the same up to rotation and reversal. -/
def SameCycle (a b : List α) : Prop := a ~r b ∨ a.reverse ~r b

instance [DecidableEq α] (a b : List α) : Decidable (SameCycle a b) :=
  inferInstanceAs (Decidable (_ ∨ _))

namespace SameCycle

theorem refl (a : List α) : SameCycle a a := .inl (.refl a)

theorem symm {a b : List α} (h : SameCycle a b) : SameCycle b a := by
  rcases h with h | h
  · exact .inl h.symm
  · refine .inr ?_
    rw [List.isRotated_reverse_comm_iff]
    exact h.symm

theorem trans {a b c : List α} (h : SameCycle a b) (h' : SameCycle b c) : SameCycle a c := by
  rcases h with h | h <;> rcases h' with h' | h'
  · exact .inl (h.trans h')
  · exact .inr (h.reverse.trans h')
  · exact .inr (h.trans h')
  · refine .inl ?_
    have := h.reverse
    rw [List.reverse_reverse] at this
    exact this.trans h'

theorem perm {a b : List α} (h : SameCycle a b) : a.Perm b := by
  rcases h with h | h
  · exact h.perm
  · exact (List.reverse_perm a).symm.trans h.perm

theorem map {a b : List α} (h : SameCycle a b) (f : α → β) : SameCycle (a.map f) (b.map f) := by
  rcases h with h | h
  · exact .inl (h.map f)
  · refine .inr ?_
    rw [← List.map_reverse]
    exact h.map f

end SameCycle

/-! ## Turns -/

namespace Turn

theorem flipped_pack : ∀ flipped : Bool, ∀ rotation < 128,
    (pack flipped (UInt8.ofNat rotation)).flipped = flipped := by
  decide

theorem rotation_pack : ∀ flipped : Bool, ∀ rotation < 128,
    (pack flipped (UInt8.ofNat rotation)).rotation.toNat = rotation := by
  decide

variable {degree : Nat}

theorem source_lt (t : Turn) (h : 0 < degree) (i : Nat) : t.source degree i < degree :=
  Nat.mod_lt _ h

/-- The value that comes to each slot of a turned record. -/
theorem getElem?_apply (t : Turn) {record : List α} (h : record.length = degree) {i : Nat}
    (hi : i < degree) : (t.apply degree record)[i]? = record[t.source degree i]? := by
  rw [apply, getElem?_filterMap, List.getElem?_range hi]
  · rfl
  · intro j _
    have := t.source_lt (Nat.zero_lt_of_lt hi) j
    simpa [h] using this

theorem length_apply (t : Turn) {record : List α} (h : record.length = degree) :
    (t.apply degree record).length = degree := by
  rcases Nat.eq_zero_or_pos degree with rfl | hpos
  · rfl
  · have hsome : ∀ i ∈ List.range degree, (record[t.source degree i]?).isSome := fun i _ => by
      simpa [h] using t.source_lt hpos i
    rw [apply, List.filterMap_length_eq_length.2 hsome, List.length_range]

theorem apply_map (t : Turn) (f : α → β) (record : List α) :
    t.apply degree (record.map f) = (t.apply degree record).map f := by
  simp only [apply, List.map_filterMap, List.getElem?_map]

/-- A turned record denotes the same cycle. -/
theorem sameCycle_apply (t : Turn) {record : List α} (h : record.length = degree) :
    SameCycle record (t.apply degree record) := by
  cases hf : t.flipped with
  | false =>
    refine .inl ⟨t.rotation.toNat, List.ext_getElem? fun i => ?_⟩
    by_cases hi : i < degree
    · rw [getElem?_apply t h hi, List.getElem?_rotate (h ▸ hi), source, hf, h, Nat.add_comm]
      rfl
    · rw [List.getElem?_eq_none (by simp [h]; omega),
        List.getElem?_eq_none (by rw [length_apply t h]; omega)]
  | true =>
    refine .inr ?_
    rw [List.isRotated_reverse_comm_iff]
    refine ⟨t.rotation.toNat + 1, List.ext_getElem? fun i => ?_⟩
    by_cases hi : i < degree
    · rw [List.getElem?_reverse (by rw [length_apply t h]; exact hi), length_apply t h,
        getElem?_apply t h (by omega), List.getElem?_rotate (h ▸ hi), source, hf, h,
        if_pos rfl, Nat.add_mod_mod]
      congr 2
      omega
    · rw [List.getElem?_eq_none (by simp [h]; omega),
        List.getElem?_eq_none (by rw [List.length_reverse, length_apply t h]; omega)]

end Turn

/-! ## Canonical forms -/

/-- A record starts with its smallest number, and goes on with the smaller of the two
    neighbours of that number. -/
structure IsCanonical (record : List Nat) : Prop where
  head_le : ∀ g ∈ record, record.getD 0 0 ≤ g
  second_lt : 3 ≤ record.length → record.getD 1 0 < record.getD (record.length - 1) 0

/-- The record of the same cycle that is chosen to denote it. -/
def canonicalForm (degree : Nat) (record : List Nat) : List Nat :=
  (Turn.toCanonical degree record).apply degree record

variable {degree : Nat} {a b : List Nat}

/-- The smallest number is in its slot. -/
theorem leastSlot_spec (h : a ≠ []) :
    leastSlot a < a.length ∧ ∀ g ∈ a, a.getD (leastSlot a) 0 ≤ g := by
  obtain ⟨least, hleast⟩ := Option.ne_none_iff_exists'.1 (mt List.min?_eq_none_iff.1 h)
  obtain ⟨hmem, hle⟩ := List.min?_eq_some_iff.1 hleast
  have hlt := List.idxOf_lt_length_of_mem hmem
  rw [leastSlot, hleast]
  refine ⟨hlt, fun g hg => ?_⟩
  simpa [hlt] using hle g hg

theorem canonicalForm_sameCycle (h : a.length = degree) : SameCycle a (canonicalForm degree a) :=
  Turn.sameCycle_apply _ h

theorem length_canonicalForm (h : a.length = degree) : (canonicalForm degree a).length = degree :=
  Turn.length_apply _ h

/-- From three slots on, the two neighbours of a slot are different slots. -/
theorem neighbours_ne {k : Nat} (hthree : 3 ≤ degree) (hk : k < degree) :
    (k + degree - 1) % degree ≠ (k + 1) % degree := by
  have hprev : (k + degree - 1) % degree = if k = 0 then degree - 1 else k - 1 := by
    split
    · next hz => rw [hz, Nat.zero_add, Nat.mod_eq_of_lt (by omega)]
    · rw [show k + degree - 1 = k - 1 + degree by omega, Nat.add_mod_right,
        Nat.mod_eq_of_lt (by omega)]
  have hnext : (k + 1) % degree = if k + 1 = degree then 0 else k + 1 := by
    split
    · next hd => rw [hd, Nat.mod_self]
    · exact Nat.mod_eq_of_lt (by omega)
  rw [hprev, hnext]
  split <;> split <;> omega

theorem rotation_toCanonical (h : leastSlot a < 128) :
    (Turn.toCanonical degree a).rotation.toNat = leastSlot a := by
  rw [Turn.toCanonical]
  split <;> exact Turn.rotation_pack _ _ h

theorem flipped_toCanonical (hthree : 3 ≤ degree) (h : leastSlot a < 128) :
    (Turn.toCanonical degree a).flipped = decide
      (a.getD ((leastSlot a + degree - 1) % degree) 0 <
        a.getD ((leastSlot a + 1) % degree) 0) := by
  rw [Turn.toCanonical, if_neg (Nat.not_lt.2 hthree)]
  exact Turn.flipped_pack _ _ h

/-- The canonical form is read from the slot of the smallest number, in one direction or in
    the other. -/
theorem getD_canonicalForm (h : a.length = degree) (hslot : leastSlot a < 128) {i : Nat}
    (hi : i < degree) : (canonicalForm degree a).getD i 0 = a.getD ((leastSlot a +
      if (Turn.toCanonical degree a).flipped then (degree - i) % degree else i) % degree) 0 := by
  rw [List.getD_eq_getElem?_getD, canonicalForm, Turn.getElem?_apply _ h hi, Turn.source,
    rotation_toCanonical hslot, List.getD_eq_getElem?_getD]

theorem head_canonicalForm (hpos : 0 < degree) (h : a.length = degree)
    (hslot : leastSlot a < degree) (hrot : leastSlot a < 128) :
    (canonicalForm degree a).getD 0 0 = a.getD (leastSlot a) 0 := by
  rw [getD_canonicalForm h hrot hpos]
  split <;> simp [Nat.mod_eq_of_lt hslot]

/-- From three slots on, the direction is the one in which the smaller neighbour of the
    smallest number comes first. -/
theorem second_canonicalForm_lt (hthree : 3 ≤ degree) (h : a.length = degree) (ha : a.Nodup)
    (hslot : leastSlot a < degree) (hrot : leastSlot a < 128) :
    (canonicalForm degree a).getD 1 0 < (canonicalForm degree a).getD (degree - 1) 0 := by
  have hpos : 0 < degree := by omega
  have hback : (leastSlot a + (degree - 1)) % degree = (leastSlot a + degree - 1) % degree := by
    congr 1
    omega
  have hone : (degree - 1) % degree = degree - 1 := Nat.mod_eq_of_lt (by omega)
  have hlast : (degree - (degree - 1)) % degree = 1 := by
    rw [show degree - (degree - 1) = 1 by omega, Nat.mod_eq_of_lt (by omega)]
  -- the neighbours are in different slots, and so they differ
  have hne : a.getD ((leastSlot a + degree - 1) % degree) 0 ≠
      a.getD ((leastSlot a + 1) % degree) 0 := by
    have h₁ : (leastSlot a + degree - 1) % degree < a.length := (Nat.mod_lt _ hpos).trans_eq h.symm
    have h₂ : (leastSlot a + 1) % degree < a.length := (Nat.mod_lt _ hpos).trans_eq h.symm
    rw [List.getD_eq_getElem?_getD, List.getD_eq_getElem?_getD, List.getElem?_eq_getElem h₁,
      List.getElem?_eq_getElem h₂, Option.getD_some, Option.getD_some, Ne, ha.getElem_inj_iff]
    exact neighbours_ne hthree hslot
  rw [getD_canonicalForm h hrot (by omega), getD_canonicalForm h hrot (by omega),
    flipped_toCanonical hthree hrot]
  by_cases hlt : a.getD ((leastSlot a + degree - 1) % degree) 0 <
      a.getD ((leastSlot a + 1) % degree) 0
  · simp only [hlt, decide_true, if_true, hone, hlast, hback]
  · simp only [hlt, decide_false, Bool.false_eq_true, if_false, hback]
    omega

theorem isCanonical_canonicalForm (hpos : 0 < degree) (hle : degree ≤ 128) (h : a.length = degree)
    (ha : a.Nodup) : IsCanonical (canonicalForm degree a) := by
  obtain ⟨hslot, hmin⟩ := leastSlot_spec (a := a) (List.ne_nil_of_length_pos (h ▸ hpos))
  have hslot : leastSlot a < degree := h ▸ hslot
  have hrot : leastSlot a < 128 := by omega
  constructor
  · intro g hg
    rw [head_canonicalForm hpos h hslot hrot]
    exact hmin g ((canonicalForm_sameCycle h).perm.mem_iff.2 hg)
  · rw [length_canonicalForm h]
    exact fun hthree => second_canonicalForm_lt hthree h ha hslot hrot

/-- Canonical records of one cycle start with the same number. -/
theorem head_eq_of_perm (ha : IsCanonical a) (hb : IsCanonical b) (h : a.Perm b) :
    a.getD 0 0 = b.getD 0 0 := by
  have hmem : ∀ xs : List Nat, xs ≠ [] → xs.getD 0 0 ∈ xs := fun xs hxs => by
    rw [List.getD_eq_getElem?_getD, List.getElem?_eq_getElem (List.length_pos_of_ne_nil hxs)]
    exact List.getElem_mem _
  by_cases hnil : a = []
  · subst hnil
    rw [h.symm.eq_nil]
  · have hnil' : b ≠ [] := fun hb => hnil (h.trans (hb ▸ List.Perm.refl _)).eq_nil
    exact Nat.le_antisymm (ha.head_le _ (h.mem_iff.2 (hmem b hnil')))
      (hb.head_le _ (h.mem_iff.1 (hmem a hnil)))

theorem eq_of_isRotated (ha : a.Nodup) (hca : IsCanonical a) (hcb : IsCanonical b) (h : a ~r b) :
    a = b := by
  have hhead := head_eq_of_perm hca hcb h.perm
  obtain ⟨k, rfl⟩ := h
  rcases Nat.eq_zero_or_pos a.length with hz | hpos
  · rw [List.eq_nil_of_length_eq_zero hz, List.rotate_nil]
  · -- a rotation that keeps the first number keeps all
    rw [List.getD_eq_getElem?_getD, List.getD_eq_getElem?_getD, List.getElem?_rotate hpos,
      List.getElem?_eq_getElem hpos, List.getElem?_eq_getElem (Nat.mod_lt _ hpos),
      Option.getD_some, Option.getD_some, ha.getElem_inj_iff, Nat.zero_add] at hhead
    rw [← List.rotate_mod, ← hhead, List.rotate_zero]

/-- A record that is read backwards from the same first number. -/
theorem getD_of_reverse_isRotated (ha : a.Nodup) (h : a.reverse ~r b)
    (hhead : a.getD 0 0 = b.getD 0 0) {i : Nat} (hi : i < a.length) :
    b.getD i 0 = a.getD ((a.length - i) % a.length) 0 := by
  obtain ⟨k, _, rfl⟩ := List.isRotated_iff_mod.1 h
  have hget : ∀ i < a.length, (a.reverse.rotate k).getD i 0 =
      a.getD (a.length - 1 - (i + k) % a.length) 0 := fun i hi => by
    have hmod := Nat.mod_lt (i + k) (Nat.zero_lt_of_lt hi)
    rw [List.getD_eq_getElem?_getD, List.getElem?_rotate (by simpa using hi),
      List.length_reverse, List.getElem?_reverse hmod, List.getD_eq_getElem?_getD]
  have hpos := Nat.zero_lt_of_lt hi
  have hk : k % a.length = a.length - 1 := by
    have hmod := Nat.mod_lt k hpos
    rw [hget 0 hpos, Nat.zero_add, List.getD_eq_getElem?_getD, List.getD_eq_getElem?_getD,
      List.getElem?_eq_getElem hpos, List.getElem?_eq_getElem (by omega), Option.getD_some,
      Option.getD_some, ha.getElem_inj_iff] at hhead
    omega
  rcases Nat.eq_zero_or_pos i with rfl | hsome
  · rw [← hhead, Nat.sub_zero, Nat.mod_self]
  · rw [hget i hi, Nat.add_mod, hk, Nat.mod_eq_of_lt hi,
      show i + (a.length - 1) = i - 1 + a.length by omega, Nat.add_mod_right,
      Nat.mod_eq_of_lt (by omega), Nat.mod_eq_of_lt (by omega)]
    congr 1
    omega

/-- A cycle has only one canonical record. -/
theorem eq_of_sameCycle (ha : a.Nodup) (hca : IsCanonical a) (hcb : IsCanonical b)
    (h : SameCycle a b) : a = b := by
  rcases h with h | h
  · exact eq_of_isRotated ha hca hcb h
  · rcases Nat.lt_or_ge a.length 3 with hlt | hthree
    · -- short records are rotations of their reversals
      refine eq_of_isRotated ha hca hcb (List.IsRotated.trans ?_ h)
      match a, hlt with
      | [], _ => exact .refl _
      | [x], _ => exact .refl _
      | [x, y], _ => exact ⟨1, rfl⟩
    · -- read backwards, the two neighbours of the first number are exchanged
      have hhead := head_eq_of_perm hca hcb ((List.reverse_perm a).symm.trans h.perm)
      have hlength : b.length = a.length := by rw [← h.perm.length_eq, List.length_reverse]
      have hsecond : b.getD 1 0 = a.getD (a.length - 1) 0 := by
        rw [getD_of_reverse_isRotated ha h hhead (by omega), Nat.mod_eq_of_lt (by omega)]
      have hlast : b.getD (b.length - 1) 0 = a.getD 1 0 := by
        rw [hlength, getD_of_reverse_isRotated ha h hhead (by omega),
          show a.length - (a.length - 1) = 1 by omega, Nat.mod_eq_of_lt (by omega)]
      have h₁ := hca.second_lt hthree
      have h₂ := hcb.second_lt (hlength ▸ hthree)
      rw [hsecond, hlast] at h₂
      omega

/-- Records have the same canonical form exactly if they denote the same cycle. -/
theorem canonicalForm_eq_iff (hpos : 0 < degree) (hle : degree ≤ 128) (ha : a.length = degree)
    (hb : b.length = degree) (hna : a.Nodup) (hnb : b.Nodup) :
    canonicalForm degree a = canonicalForm degree b ↔ SameCycle a b := by
  have hsa := canonicalForm_sameCycle ha
  have hsb := canonicalForm_sameCycle hb
  constructor
  · intro h
    exact hsa.trans (h ▸ hsb.symm)
  · intro h
    exact eq_of_sameCycle (hsa.perm.nodup_iff.1 hna) (isCanonical_canonicalForm hpos hle ha hna)
      (isCanonical_canonicalForm hpos hle hb hnb) (hsa.symm.trans (h.trans hsb))

end SharedMesh
