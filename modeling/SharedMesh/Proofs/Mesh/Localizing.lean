import SharedMesh.Mesh.Slices
import SharedMesh.Proofs.Mesh.Entities

/-!
# Global vertices as local ones

The numbers that occur in a list are listed once each, in ascending order (`mem_occurring`,
`pairwise_occurring`). So their positions are numbers of their own, from which the global
ones are read back (`renumbered_localize`).
-/

namespace SharedMesh

variable {numbers : List Nat} {g : Nat}

theorem mem_dropRepeats : g ∈ dropRepeats numbers ↔ g ∈ numbers := by
  fun_induction dropRepeats numbers with
  | case1 b rest ih => simp [ih]
  | case2 a b rest _ ih => simp [ih]
  | case3 => exact Iff.rfl

/-- Without repetitions, ascending numbers are strictly ascending. -/
theorem pairwise_dropRepeats (h : numbers.Pairwise (· ≤ ·)) :
    (dropRepeats numbers).Pairwise (· < ·) := by
  fun_induction dropRepeats numbers with
  | case1 b rest ih => exact ih h.of_cons
  | case2 a b rest hab ih =>
    refine List.pairwise_cons.2 ⟨fun g hg => ?_, ih h.of_cons⟩
    obtain ⟨hle, hrest⟩ := List.pairwise_cons.1 h
    -- what follows is not below `b`, which is above `a`
    have hb : a < b := Nat.lt_of_le_of_ne (hle b List.mem_cons_self) hab
    rcases List.mem_cons.1 (mem_dropRepeats.1 hg) with rfl | hg
    · exact hb
    · exact hb.trans_le ((List.pairwise_cons.1 hrest).1 g hg)
  | case3 short hshort =>
    match short, hshort with
    | [], _ => exact .nil
    | [a], _ => exact List.pairwise_singleton _ a
    | a :: b :: rest, hshort => exact (hshort a b rest rfl).elim

@[simp] theorem mem_occurring : g ∈ occurring numbers ↔ g ∈ numbers := by
  rw [occurring, mem_dropRepeats, List.mem_mergeSort]

/-- The numbers that occur are strictly ascending. -/
theorem pairwise_occurring (numbers : List Nat) : (occurring numbers).Pairwise (· < ·) := by
  have hsorted : (numbers.mergeSort (· ≤ ·)).Pairwise fun a b => decide (id a ≤ id b) = true :=
    List.pairwise_mergeSort key_le_trans key_le_total numbers
  exact pairwise_dropRepeats (hsorted.imp of_decide_eq_true)

theorem length_occurring_le (numbers : List Nat) : (occurring numbers).length ≤ numbers.length :=
  (List.Nodup.subperm ((pairwise_occurring numbers).imp Nat.ne_of_lt) fun _ hg =>
    mem_occurring.1 hg).length_le

/-- Every number is read back from its position. -/
theorem renumbered_localize (numbers : List Nat) :
    Renumbered (localize numbers).1 (localize numbers).2 numbers where
  nodup := (pairwise_occurring numbers).imp Nat.ne_of_lt
  named v hv := by
    obtain ⟨g, hg, rfl⟩ := List.mem_map.1 hv
    exact List.idxOf_lt_length_of_mem (mem_occurring.2 hg)
  globals := by
    rw [localize, List.map_map]
    refine (List.map_congr_left fun g hg => ?_).trans (List.map_id numbers)
    simp [List.getElem?_idxOf (mem_occurring.2 hg)]

/-- No vertex is listed that is not named. -/
theorem mem_localize_iff : g ∈ (localize numbers).2 ↔
    ∃ v ∈ (localize numbers).1, (localize numbers).2[v]? = some g := by
  constructor
  · intro hg
    exact ⟨_, List.mem_map_of_mem (mem_occurring.1 hg), List.getElem?_idxOf hg⟩
  · rintro ⟨v, _, hv⟩
    exact List.mem_of_getElem? hv

end SharedMesh
