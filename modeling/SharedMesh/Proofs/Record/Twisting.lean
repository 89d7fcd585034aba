import Mathlib.Data.List.FinRange
import Mathlib.Data.List.Permutation
import SharedMesh.Proofs.Distinct
import SharedMesh.Proofs.Record.Cycle

/-!
# Twisted records

Up to three vertices make only one cycle. Four vertices make three, which differ in the pairs of
opposite vertices. So records of the same vertices denote the same cycle unless there are four of
them and a vertex has different opposites (`Twisted`, `sameCycle_iff`).

What is at stake are finitely many arrangements of slots. The slots of one record are numbered, and
the other record is a permutation of these numbers (`exists_slots`).
-/

namespace SharedMesh

variable {α β : Type}

theorem sameCycle_map_iff {f : α → β} (hf : Function.Injective f) {a b : List α} :
    SameCycle (a.map f) (b.map f) ↔ SameCycle a b := by
  have hrotated {a b : List α} : a.map f ~r b.map f ↔ a ~r b := by
    refine exists_congr fun k => ?_
    rw [← List.map_rotate, (List.map_injective_iff.2 hf).eq_iff]
  rw [SameCycle, SameCycle, ← List.map_reverse, hrotated, hrotated]

variable [DecidableEq α] [DecidableEq β] {a b : List α}

/-- The vertex on the other side of a quadrilateral. -/
def opposite (record : List α) (v : α) : Option α :=
  record[(record.idxOf v + 2) % record.length]?

/-- Two records of the same four vertices, one of which has different opposites. -/
structure Twisted (a b : List α) : Prop where
  length_eq : a.length = 4
  perm : a.Perm b
  apart : ∃ v ∈ a, opposite a v ≠ opposite b v

instance (a b : List α) : Decidable (Twisted a b) :=
  decidable_of_iff (a.length = 4 ∧ a.Perm b ∧ ∃ v ∈ a, opposite a v ≠ opposite b v)
    ⟨fun ⟨hlength, hperm, h⟩ => ⟨hlength, hperm, h⟩, fun h => ⟨h.length_eq, h.perm, h.apart⟩⟩

theorem opposite_map {f : α → β} (hf : Function.Injective f) (ha : a.Nodup) {v : α}
    (hv : v ∈ a) : opposite (a.map f) (f v) = (opposite a v).map f := by
  rw [opposite, idxOf_map (ha.map hf) hv, List.length_map, List.getElem?_map, opposite]

/-- The slots of a record, in the order in which another record of the same vertices has them. -/
theorem exists_slots {k : Nat} (ha : a.Nodup) (hk : a.length = k) (h : a.Perm b) :
    ∃ (x : Fin k → α) (slots : List (Fin k)), Function.Injective x ∧
      slots.Perm (List.finRange k) ∧ a = (List.finRange k).map x ∧ b = slots.map x := by
  subst hk
  have hx : Function.Injective a.get := List.nodup_iff_injective_get.1 ha
  have hlt : ∀ v ∈ b, a.idxOf v < a.length := fun v hv =>
    List.idxOf_lt_length_of_mem (h.mem_iff.2 hv)
  let slots : List (Fin a.length) := b.attach.map fun v => ⟨a.idxOf v.1, hlt v.1 v.2⟩
  have hslots : b = slots.map a.get := by
    rw [List.map_map]
    conv_lhs => rw [← List.attach_map_subtype_val b]
    exact List.map_congr_left fun v _ => (List.getElem_idxOf (hlt v.1 v.2)).symm
  refine ⟨a.get, slots, hx, ?_, (List.map_get_finRange a).symm, hslots⟩
  rw [← List.map_perm_map_iff hx, ← hslots, List.map_get_finRange]
  exact h.symm

/-- The arrangements of up to four slots that make one cycle are those with the same opposites. -/
theorem sameCycle_slots_iff : ∀ k ≤ 4, ∀ slots ∈ (List.finRange k).permutations',
    SameCycle (List.finRange k) slots ↔
      (k = 4 → ∀ i, opposite (List.finRange k) i = opposite slots i) := by
  decide

theorem sameCycle_iff_opposite {k : Nat} (ha : a.Nodup) (hk : a.length = k) (hle : k ≤ 4)
    (h : a.Perm b) : SameCycle a b ↔ (k = 4 → ∀ v ∈ a, opposite a v = opposite b v) := by
  obtain ⟨x, slots, hx, hslots, rfl, rfl⟩ := exists_slots ha hk h
  have hmem : ∀ i, i ∈ slots := fun i => hslots.mem_iff.2 (List.mem_finRange i)
  have hnodup : slots.Nodup := hslots.nodup_iff.2 (List.nodup_finRange k)
  rw [sameCycle_map_iff hx, sameCycle_slots_iff k hle slots (List.mem_permutations'.2 hslots),
    List.forall_mem_map]
  refine imp_congr_right fun _ => forall_congr' fun i => ?_
  rw [opposite_map hx (List.nodup_finRange k) (List.mem_finRange i),
    opposite_map hx hnodup (hmem i), (Option.map_injective hx).eq_iff]
  simp

/-- Records of up to four distinct vertices denote the same cycle exactly if they have the same
    vertices and are not twisted. -/
theorem sameCycle_iff (ha : a.Nodup) (hle : a.length ≤ 4) :
    SameCycle a b ↔ a.Perm b ∧ ¬Twisted a b := by
  constructor
  · intro h
    refine ⟨h.perm, fun htwisted => ?_⟩
    obtain ⟨v, hv, hne⟩ := htwisted.apart
    exact hne ((sameCycle_iff_opposite ha rfl hle h.perm).1 h htwisted.length_eq v hv)
  · rintro ⟨hperm, hflat⟩
    refine (sameCycle_iff_opposite ha rfl hle hperm).2 fun hlength v hv => ?_
    by_contra hne
    exact hflat ⟨hlength, hperm, v, hv, hne⟩

end SharedMesh
