import Mathlib.Data.List.Perm.Subperm
import Mathlib.Data.Set.Card

/-!
# Distinct items

Of equal items in a list, `List.eraseDups` keeps the first. So it does not matter if parts
of the list were made distinct before (`eraseDups_flatMap`), and where items have keys, the
first items with each key are the items of the distinct keys (`map_filter_first`).
-/

namespace SharedMesh

variable {α β : Type}

theorem nodup_eraseDups [BEq α] [LawfulBEq α] (xs : List α) : xs.eraseDups.Nodup := by
  match xs with
  | [] => exact List.nodup_nil
  | x :: xs =>
    rw [List.eraseDups_cons, List.nodup_cons]
    refine ⟨fun hx => ?_, nodup_eraseDups _⟩
    simpa using (List.mem_filter.1 (List.mem_eraseDups.1 hx)).2
termination_by xs.length
decreasing_by exact Nat.lt_succ_of_le (List.length_filter_le _ _)

theorem eraseDups_of_nodup [BEq α] [LawfulBEq α] {xs : List α} (h : xs.Nodup) :
    xs.eraseDups = xs := by
  induction xs with
  | nil => rfl
  | cons x xs ih =>
    obtain ⟨hx, hxs⟩ := List.nodup_cons.1 h
    have hfilter : (xs.filter fun y => !y == x) = xs := List.filter_eq_self.2 fun y hy => by
      simpa using fun hyx : y = x => hx (hyx ▸ hy)
    rw [List.eraseDups_cons, hfilter, ih hxs]

theorem eraseDups_filter [BEq α] [LawfulBEq α] (p : α → Bool) (xs : List α) :
    (xs.filter p).eraseDups = xs.eraseDups.filter p := by
  match xs with
  | [] => rfl
  | x :: xs =>
    rw [List.eraseDups_cons]
    cases hp : p x with
    | true =>
      rw [List.filter_cons_of_pos hp, List.filter_cons_of_pos hp, List.eraseDups_cons,
        List.filter_comm, eraseDups_filter p]
    | false =>
      -- no item equal to `x` is left
      have hfilter : xs.filter p = (xs.filter fun y => !y == x).filter p := by
        rw [List.filter_filter]
        refine List.filter_congr fun y _ => ?_
        by_cases hyx : y = x
        · simp [hyx, hp]
        · simp [hyx]
      rw [List.filter_cons_of_neg (by simp [hp]), List.filter_cons_of_neg (by simp [hp]), hfilter,
        eraseDups_filter p]
termination_by xs.length
decreasing_by all_goals exact Nat.lt_succ_of_le (List.length_filter_le _ _)

theorem length_eraseDups_le [BEq α] [LawfulBEq α] (xs : List α) :
    xs.eraseDups.length ≤ xs.length :=
  ((nodup_eraseDups xs).subperm fun _ hx => List.mem_eraseDups.1 hx).length_le

/-- Lists that are laid end to end need not be made distinct before. -/
theorem eraseDups_flatMap [BEq β] [LawfulBEq β] (f : α → List β) (xs : List α) :
    (xs.flatMap fun x => (f x).eraseDups).eraseDups = (xs.flatMap f).eraseDups := by
  induction xs with
  | nil => rfl
  | cons x xs ih =>
    have hremove : ∀ ys : List β, ys.removeAll (f x).eraseDups = ys.removeAll (f x) := fun ys =>
      List.filter_congr fun y _ => by simp
    rw [List.flatMap_cons, List.flatMap_cons, List.eraseDups_append, List.eraseDups_append,
      eraseDups_of_nodup (nodup_eraseDups _), hremove, List.removeAll, eraseDups_filter, ih,
      List.removeAll, eraseDups_filter]

/-- The first items with each key, in order. -/
theorem map_filter_first [DecidableEq α] [DecidableEq β] [BEq β] [LawfulBEq β] (f : α → β)
    {xs : List α} (h : xs.Nodup) :
    (xs.filter fun x => xs.find? (fun y => f y = f x) = some x).map f =
      (xs.map f).eraseDups := by
  match xs, h with
  | [], _ => rfl
  | x :: xs, h =>
    obtain ⟨hx, hxs⟩ := List.nodup_cons.1 h
    have ih := map_filter_first f (hxs.filter fun y => !f y == f x)
    have hrest : (xs.filter fun z => (x :: xs).find? (fun y => f y = f z) = some z) =
        (xs.filter fun y => !f y == f x).filter fun z =>
          (xs.filter fun y => !f y == f x).find? (fun y => f y = f z) = some z := by
      rw [List.filter_filter]
      refine List.filter_congr fun z hz => ?_
      have hxz : x ≠ z := fun hxz => hx (hxz ▸ hz)
      by_cases hkey : f z = f x
      · simp [hkey, hxz]
      · have hfind : (xs.filter fun y => !f y == f x).find? (fun y => f y = f z) =
            xs.find? fun y => f y = f z := by
          rw [List.find?_filter]
          refine congrArg (List.find? · xs) (funext fun y => ?_)
          by_cases hy : f y = f z
          · simp [hy, hkey]
          · simp [hy]
        rw [hfind]
        simp [hkey, Ne.symm hkey]
    rw [List.filter_cons_of_pos (by simp), List.map_cons, hrest, ih, List.map_cons,
      List.eraseDups_cons, List.filter_map]
    rfl
termination_by xs.length
decreasing_by exact Nat.lt_succ_of_le (List.length_filter_le _ _)

theorem ncard_setOf_mem {xs : List α} (h : xs.Nodup) : {x | x ∈ xs}.ncard = xs.length := by
  classical
  rw [← List.coe_toFinset, Set.ncard_coe_finset, List.toFinset_card_of_nodup h]

/-- Distinct items are counted without gaps. -/
theorem bijOn_idxOf [BEq α] [LawfulBEq α] {xs : List α} (h : xs.Nodup) :
    Set.BijOn xs.idxOf {x | x ∈ xs} (Set.Iio xs.length) :=
  ⟨fun _ hx => List.idxOf_lt_length_of_mem hx, fun _ hx _ _ hxy => (List.idxOf_inj hx).1 hxy,
    fun i hi => ⟨xs.get ⟨i, hi⟩, List.getElem_mem hi, h.idxOf_getElem i hi⟩⟩

/-- Where items can be told apart by their keys, an item is where its key is. -/
theorem idxOf_map [BEq α] [LawfulBEq α] [BEq β] [LawfulBEq β] {f : α → β} {xs : List α}
    (h : (xs.map f).Nodup) {x : α} (hx : x ∈ xs) : (xs.map f).idxOf (f x) = xs.idxOf x := by
  have hlt : xs.idxOf x < (xs.map f).length := by simpa using List.idxOf_lt_length_of_mem hx
  have := h.idxOf_getElem _ hlt
  rwa [List.getElem_map, List.getElem_idxOf] at this

end SharedMesh
