import Mathlib.Data.List.Nodup
import Mathlib.Data.List.Perm.Basic

/-!
# Sorting and grouping

Lists are sorted in many places, by orders in which no two items tie. Then the outcome
does not depend on how the items came (`mergeSort_eq_of_perm`), and a list that
has the items in order is what sorting yields.
-/

namespace SharedMesh

variable {α β : Type}

/-- Sorting yields the arrangement in which each item comes strictly before the next. -/
theorem mergeSort_eq_of_perm {le : α → α → Bool}
    (trans : ∀ a b c, le a b = true → le b c = true → le a c = true)
    (total : ∀ a b, (le a b || le b a) = true) {xs ys : List α} (h : xs.Perm ys)
    (hs : ys.Pairwise fun a b => le a b = true ∧ le b a = false) : xs.mergeSort le = ys := by
  refine List.Perm.eq_of_pairwise ?_
    (List.pairwise_mergeSort trans total xs) (hs.imp And.left) ((List.mergeSort_perm xs le).trans h)
  intro a b ha hb hab hba
  -- two items that tie cannot both be in `ys`, unless they are one
  have ha : a ∈ ys := h.mem_iff.1 (List.mem_mergeSort.1 ha)
  by_contra hne
  have hsymm : ∀ x ∈ ys, ∀ y ∈ ys, x ≠ y → ¬ (le x y = true ∧ le y x = true) := by
    refine List.Pairwise.forall_of_forall_of_flip (R := fun x y =>
      x ≠ y → ¬ (le x y = true ∧ le y x = true)) (fun x _ hx => absurd rfl hx) ?_ ?_
    · exact hs.imp fun hxy _ hle => by rw [hxy.2] at hle; cases hle.2
    · exact hs.imp fun hxy _ hle => by rw [hxy.2] at hle; cases hle.1
  exact hsymm a ha b hb hne ⟨hab, hba⟩

section

variable {key : α → Nat}

theorem key_le_trans (a b c : α) (hab : decide (key a ≤ key b) = true)
    (hbc : decide (key b ≤ key c) = true) : decide (key a ≤ key c) = true := by
  rw [decide_eq_true_eq] at *
  exact Nat.le_trans hab hbc

theorem key_le_total (a b : α) : (decide (key a ≤ key b) || decide (key b ≤ key a)) = true := by
  rw [Bool.or_eq_true_iff, decide_eq_true_eq, decide_eq_true_eq]
  exact Nat.le_total _ _

/-- Items that are sorted by a number end up with the numbers in order. -/
theorem mergeSort_key_eq_of_perm {xs ys : List α} (h : xs.Perm ys)
    (hs : ys.Pairwise fun a b => key a < key b) :
    xs.mergeSort (fun a b => decide (key a ≤ key b)) = ys := by
  refine mergeSort_eq_of_perm key_le_trans key_le_total h (hs.imp fun hlt => ?_)
  simpa using ⟨Nat.le_of_lt hlt, hlt⟩

end

/-- Items grouped by their keys, one key after the other. -/
theorem perm_flatMap_filter [DecidableEq β] {key : α → β} {keys : List β} (hkeys : keys.Nodup)
    {xs : List α} (h : ∀ x ∈ xs, key x ∈ keys) :
    xs.Perm (keys.flatMap fun k => xs.filter fun x => key x = k) := by
  induction keys generalizing xs with
  | nil =>
    cases xs with
    | nil => exact .refl _
    | cons x xs => cases h x List.mem_cons_self
  | cons k keys ih =>
    obtain ⟨hk, hkeys⟩ := List.nodup_cons.1 hkeys
    have hrest : (xs.filter fun x => !decide (key x = k)).Perm (keys.flatMap fun k' =>
        (xs.filter fun x => !decide (key x = k)).filter fun x => key x = k') :=
          ih hkeys fun x hx => by
      obtain ⟨hx, hne⟩ := List.mem_filter.1 hx
      exact (List.mem_cons.1 (h x hx)).resolve_left (by simpa using hne)
    have hgroups : ∀ k' ∈ keys, ((xs.filter fun x => !decide (key x = k)).filter
        fun x => key x = k') = xs.filter fun x => key x = k' := by
      intro k' hk'
      have hne : k' ≠ k := fun heq => hk (heq ▸ hk')
      rw [List.filter_filter]
      refine List.filter_congr fun x _ => ?_
      by_cases hx : key x = k'
      · simp [hx, hne]
      · simp [hx]
    rw [List.flatMap_congr hgroups] at hrest
    rw [List.flatMap_cons]
    exact (List.filter_append_perm _ xs).symm.trans (hrest.append_left _)

theorem flatMap_ite_eq [DecidableEq α] {a : α} {xs : List α} (ha : a ∈ xs) (hxs : xs.Nodup)
    (ys : List β) : (xs.flatMap fun x => if x = a then ys else []) = ys := by
  induction xs with
  | nil => cases ha
  | cons x xs ih =>
    obtain ⟨hx, hxs⟩ := List.nodup_cons.1 hxs
    rw [List.flatMap_cons]
    rcases List.mem_cons.1 ha with rfl | ha
    · have : ∀ y ∈ xs, (if y = a then ys else []) = [] := fun y hy =>
        if_neg fun hya : y = a => hx (hya ▸ hy)
      simp [List.flatMap_eq_nil_iff.2 this]
    · rw [if_neg fun hxa : x = a => hx (hxa ▸ ha), List.nil_append, ih ha hxs]

/-! ## Numbered items -/

theorem zipIdx_map_range (f : Nat → α) (n : Nat) :
    ((List.range n).map f).zipIdx = (List.range n).map fun i => (f i, i) :=
  List.ext_getElem (by simp) fun i _ _ => by simp

/-- Where items can be told apart, the number of an item is its position. -/
theorem zipIdx_eq_map_idxOf [BEq β] [LawfulBEq β] {f : α → β} {xs : List α}
    (h : (xs.map f).Nodup) : xs.zipIdx = xs.map fun x => (x, (xs.map f).idxOf (f x)) := by
  refine List.ext_getElem (by simp) fun i hi _ => ?_
  have hi : i < xs.length := by simpa using hi
  have := h.idxOf_getElem i (by simpa using hi)
  rw [List.getElem_map] at this
  simp [this]

theorem zipWith_map_zipIdx {γ : Type} (f : α → β → γ) (g : α × Nat → β) (xs : List α) :
    xs.zipWith f (xs.zipIdx.map g) = xs.zipIdx.map fun x => f x.1 (g x) :=
  List.ext_getElem (by simp) fun i _ _ => by simp

/-- Where every item has a value, the values are where their items are. -/
theorem getElem?_filterMap {f : α → Option β} {xs : List α} (h : ∀ x ∈ xs, (f x).isSome)
    (j : Nat) : (xs.filterMap f)[j]? = xs[j]?.bind f := by
  induction xs generalizing j with
  | nil => simp
  | cons x xs ih =>
    obtain ⟨y, hy⟩ := Option.isSome_iff_exists.1 (h x List.mem_cons_self)
    rw [List.filterMap_cons_some hy]
    cases j with
    | zero => simp [hy]
    | succ j => simpa using ih (fun x hx => h x (List.mem_cons_of_mem _ hx)) j

theorem map_fst_filter_zipIdx (p : α → Bool) (xs : List α) (k : Nat) :
    ((xs.zipIdx k).filter fun x => p x.1).map Prod.fst = xs.filter p := by
  rw [show (fun x : α × Nat => p x.1) = p ∘ Prod.fst from rfl, ← List.filter_map,
    List.zipIdx_map_fst]

end SharedMesh
