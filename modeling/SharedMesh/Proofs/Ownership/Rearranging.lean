import Mathlib.Data.Fin.VecNotation
import Mathlib.Data.List.FinRange
import Mathlib.Data.List.Permutation
import Mathlib.Logic.Equiv.Basic
import SharedMesh.Proofs.Ownership.Settling

/-!
# The order of arrival does not matter

A policy sees of a class of copies only their origins, and these come sorted. So what it sees
when a copy is settled is a matter of which copies meet (`classOrigins`), and stays the same if
the copies of each root are rearranged (`classOrigins_comp`). Whether settling fails and which
owner each copy gets depends on nothing else (`settle_arrivingCopies_eq_ok`,
`settle_arrivingCopies_eq_error`).
-/

namespace SharedMesh

variable {n : Nat} {counts : List Nat} {origins : Fin n → Place} {keys : Fin n → List Nat}
  {policy : OwnerPolicy} {group : List (Fin n)}

/-- The copies that arrive from the given origins with the given keys. -/
def arrivingCopies (origins : Fin n → Place) (keys : Fin n → List Nat) : List Served :=
  Served.list (List.ofFn origins) (List.ofFn keys) ((List.ofFn origins).map fun _ => 0)

/-- Which of `n` copies meet at each root, if as many come to the roots as are counted. -/
def meeting (counts : List Nat) (n : Nat) : List (List (Fin n)) :=
  takeCounts counts (List.finRange n)

/-- What a policy sees of the class of a copy: the origins of the copies with its key in its
    group. -/
def classOrigins (origins : Fin n → Place) (keys : Fin n → List Nat) (group : List (Fin n))
    (i : Fin n) : List Place :=
  ((group.filter fun j => keys j = keys i).map origins).mergeSort Place.le

/-- A policy finds an owner among some origins. -/
def Finds (policy : OwnerPolicy) (places : List Place) : Prop :=
  ∃ owner ∈ places, policy places = some owner

/-! ## Groups -/

theorem flatten_meeting (hcounts : counts.sum = n) :
    (meeting counts n).flatten = List.finRange n := by
  rw [meeting, flatten_takeCounts, hcounts]
  exact List.take_of_length_le (List.length_finRange).le

theorem exists_mem_meeting (hcounts : counts.sum = n) (i : Fin n) :
    ∃ group ∈ meeting counts n, i ∈ group := by
  rw [← List.mem_flatten, flatten_meeting hcounts]
  exact List.mem_finRange i

theorem nodup_of_mem_meeting (hcounts : counts.sum = n) (hgroup : group ∈ meeting counts n) :
    group.Nodup :=
  (List.nodup_flatten.1 (flatten_meeting hcounts ▸ List.nodup_finRange n)).1 group hgroup

/-- A copy meets others at one root only. -/
theorem eq_of_mem_meeting (hcounts : counts.sum = n) {group' : List (Fin n)}
    (hgroup : group ∈ meeting counts n) (hgroup' : group' ∈ meeting counts n) {i : Fin n}
    (hi : i ∈ group) (hi' : i ∈ group') : group = group' := by
  have hdisjoint := (List.nodup_flatten.1 (flatten_meeting hcounts ▸ List.nodup_finRange n)).2
  have : Std.Symm (List.Disjoint (α := Fin n)) := ⟨fun _ _ => List.Disjoint.symm⟩
  by_contra hne
  exact hdisjoint.forall hgroup hgroup' hne hi hi'

theorem length_takeCounts {β : Type} {counts : List Nat} {xs : List β}
    (hcounts : counts.sum ≤ xs.length) : (takeCounts counts xs).map List.length = counts := by
  induction counts generalizing xs with
  | nil => rfl
  | cons count counts ih =>
    rw [List.sum_cons] at hcounts
    rw [takeCounts, List.map_cons, ih (by rw [List.length_drop]; omega), List.length_take,
      Nat.min_eq_left (by omega)]

/-! ## Classes -/

/-- Sorted places do not depend on how they came. -/
theorem Place.mergeSort_eq_of_perm {xs ys : List Place} (h : xs.Perm ys) :
    xs.mergeSort le = ys.mergeSort le := by
  have hsorted : ∀ places : List Place, (places.mergeSort le).Pairwise fun a b => a.le b = true :=
    List.pairwise_mergeSort (fun _ _ _ => le_trans) le_total
  exact List.Perm.eq_of_pairwise (fun _ _ _ _ => le_antisymm) (hsorted xs) (hsorted ys)
    ((List.mergeSort_perm xs le).trans (h.trans (List.mergeSort_perm ys le).symm))

/-- The copy that arrives in the slot `i`. -/
def copyAt (origins : Fin n → Place) (keys : Fin n → List Nat) (i : Fin n) : Served :=
  ⟨i, origins i, keys i, 0⟩

theorem arrivingCopies_eq (origins : Fin n → Place) (keys : Fin n → List Nat) :
    arrivingCopies origins keys = (List.finRange n).map (copyAt origins keys) := by
  refine List.ext_getElem (by simp [arrivingCopies, Served.list]) fun i _ _ => ?_
  simp [arrivingCopies, Served.list, copyAt]

theorem takeCounts_arrivingCopies (counts : List Nat) (origins : Fin n → Place)
    (keys : Fin n → List Nat) : takeCounts counts (arrivingCopies origins keys) =
      (meeting counts n).map (List.map (copyAt origins keys)) := by
  rw [arrivingCopies_eq, takeCounts_map, meeting]

/-- Settling, with the copies of each root together. -/
theorem settle_arrivingCopies (choose : List Served → Option Place) (hcounts : counts.sum = n) :
    settle choose counts (arrivingCopies origins keys) =
      settle choose (((meeting counts n).map (List.map (copyAt origins keys))).map List.length)
        ((meeting counts n).map (List.map (copyAt origins keys))).flatten := by
  have hlength : (arrivingCopies origins keys).length = n := by simp [arrivingCopies_eq]
  rw [← takeCounts_arrivingCopies, length_takeCounts (by rw [hlength, hcounts]), flatten_takeCounts,
    hcounts, List.take_of_length_le hlength.le]

/-- The members of a class have a key in common, and the policy sees their origins, sorted. -/
theorem exists_of_mem_classes {members : List Served}
    (h : members ∈ Served.classes (Served.sorted (group.map (copyAt origins keys)))) :
    ∃ i ∈ group, copyAt origins keys i ∈ members ∧
      (∀ c ∈ members, ∃ j ∈ group, keys j = keys i ∧ c = copyAt origins keys j) ∧
      members.map Served.origin = classOrigins origins keys group i := by
  obtain ⟨key, hkey, rfl⟩ := List.mem_map.1 h
  obtain ⟨first, hfirst, rfl⟩ := List.mem_map.1 (List.mem_eraseDups.1 hkey)
  obtain ⟨i, hi, rfl⟩ := List.mem_map.1 (List.mem_mergeSort.1 hfirst)
  refine ⟨i, hi, List.mem_filter.2 ⟨hfirst, by simp⟩, fun c hc => ?_, ?_⟩
  · obtain ⟨hc, hsame⟩ := List.mem_filter.1 hc
    obtain ⟨j, hj, rfl⟩ := List.mem_map.1 (List.mem_mergeSort.1 hc)
    exact ⟨j, hj, of_decide_eq_true hsame, rfl⟩
  · have htrans : ∀ a b c : Served, a.origin.le b.origin = true → b.origin.le c.origin = true →
        a.origin.le c.origin = true := fun _ _ _ => Place.le_trans
    have hsorted : (Served.sorted (group.map (copyAt origins keys))).Pairwise fun a b =>
        a.origin.le b.origin = true :=
      List.pairwise_mergeSort htrans (fun _ _ => Place.le_total _ _) _
    have hperm : (((Served.sorted (group.map (copyAt origins keys))).filter fun c =>
        c.key = keys i).map Served.origin).Perm
          ((group.filter fun j => keys j = keys i).map origins) := by
      refine (((List.mergeSort_perm _ _).filter _).map _).trans ?_
      rw [List.filter_map, List.map_map]
      rfl
    rw [classOrigins, ← Place.mergeSort_eq_of_perm hperm]
    exact (List.mergeSort_of_pairwise (List.pairwise_map.2 (hsorted.filter _))).symm

theorem settled_byPolicy_iff {members : List Served} {places : List Place}
    (h : members.map Served.origin = places) :
    Settled (byPolicy policy) members ↔ Finds policy places := by
  rw [Settled, Finds, byPolicy, h]

/-- If the policy finds an owner for the class of each copy, this is its owner. -/
theorem settle_arrivingCopies_eq_ok (hcounts : counts.sum = n) {owner : Fin n → Place}
    (h : ∀ group ∈ meeting counts n, ∀ i ∈ group,
      owner i ∈ classOrigins origins keys group i ∧
        policy (classOrigins origins keys group i) = some (owner i)) :
    settle (byPolicy policy) counts (arrivingCopies origins keys) = .ok (List.ofFn owner) := by
  let answer (c : Served) : Place := if hc : c.slot < n then owner ⟨c.slot, hc⟩ else c.origin
  have hanswer : ∀ i, answer (copyAt origins keys i) = owner i := fun i => dif_pos i.isLt
  have hflatten : ((meeting counts n).map (List.map (copyAt origins keys))).flatten =
      arrivingCopies origins keys := by
    rw [← List.map_flatten, flatten_meeting hcounts, arrivingCopies_eq]
  rw [settle_arrivingCopies _ hcounts, settle_eq_ok answer]
  · rw [hflatten, arrivingCopies_eq, List.map_map, List.ofFn_eq_map]
    exact congrArg Except.ok (List.map_congr_left fun i _ => hanswer i)
  · rw [hflatten, arrivingCopies_eq, List.pairwise_map]
    exact List.pairwise_lt_finRange n
  · intro copies hcopies members hmembers
    obtain ⟨group, hgroup, rfl⟩ := List.mem_map.1 hcopies
    obtain ⟨i, hi, _, hsame, hplaces⟩ := exists_of_mem_classes hmembers
    obtain ⟨hmem, hchoose⟩ := h group hgroup i hi
    refine ⟨owner i, hplaces ▸ hmem, by rw [byPolicy, hplaces, hchoose], fun c hc => ?_⟩
    -- copies with one key have one class
    obtain ⟨j, hj, hkey, rfl⟩ := hsame c hc
    have hchoose' := (h group hgroup j hj).2
    rw [classOrigins, hkey] at hchoose'
    rw [hanswer]
    exact Option.some.inj (hchoose'.symm.trans hchoose)

/-- If the policy finds no owner for the class of some copy, no copy gets an owner. -/
theorem settle_arrivingCopies_eq_error (hcounts : counts.sum = n)
    (h : ∃ group ∈ meeting counts n, ∃ i ∈ group,
      ¬ Finds policy (classOrigins origins keys group i)) :
    ∃ e, settle (byPolicy policy) counts (arrivingCopies origins keys) = .error e := by
  obtain ⟨group, hgroup, i, hi, hfails⟩ := h
  have hmem : copyAt origins keys i ∈
      (Served.classes (Served.sorted (group.map (copyAt origins keys)))).flatten :=
    (classes_flatten_perm _).mem_iff.2 (List.mem_mergeSort.2 (List.mem_map_of_mem hi))
  obtain ⟨members, hmembers, hi⟩ := List.mem_flatten.1 hmem
  obtain ⟨j, hj, _, hsame, hplaces⟩ := exists_of_mem_classes hmembers
  obtain ⟨i', _, hkey, hi'⟩ := hsame _ hi
  have hkey : keys i = keys j := (congrArg Served.key hi').trans hkey
  rw [classOrigins, hkey] at hfails
  have hfails : ¬ Settled (byPolicy policy) members := mt (settled_byPolicy_iff hplaces).1 hfails
  obtain ⟨vertex, owner, herror⟩ :=
    settle_eq_error ⟨_, List.mem_map_of_mem hgroup, members, hmembers, hfails⟩
  exact ⟨_, (settle_arrivingCopies _ hcounts).trans herror⟩

theorem exists_owners (hcounts : counts.sum = n)
    (h : ∀ group ∈ meeting counts n, ∀ i ∈ group,
      Finds policy (classOrigins origins keys group i)) :
    ∃ owner : Fin n → Place, ∀ group ∈ meeting counts n, ∀ i ∈ group,
      owner i ∈ classOrigins origins keys group i ∧
        policy (classOrigins origins keys group i) = some (owner i) := by
  choose home hhome hmem using exists_mem_meeting hcounts
  choose owner howner using fun i => h (home i) (hhome i) i (hmem i)
  refine ⟨owner, fun group hgroup i hi => ?_⟩
  rw [eq_of_mem_meeting hcounts hgroup (hhome i) hi (hmem i)]
  exact howner i

/-- Settling fails just if the policy finds no owner for some class. -/
theorem exists_settle_eq_error_iff (hcounts : counts.sum = n) :
    (∃ e, settle (byPolicy policy) counts (arrivingCopies origins keys) = .error e) ↔
      ∃ group ∈ meeting counts n, ∃ i ∈ group,
        ¬ Finds policy (classOrigins origins keys group i) := by
  refine ⟨fun ⟨e, he⟩ => ?_, settle_arrivingCopies_eq_error hcounts⟩
  by_contra hfinds
  push Not at hfinds
  obtain ⟨owner, howner⟩ := exists_owners hcounts hfinds
  rw [settle_arrivingCopies_eq_ok hcounts howner] at he
  cases he

/-- The owners that settling comes to are those that the policy finds. -/
theorem owners_of_settle (hcounts : counts.sum = n) {owners : List Place}
    (h : settle (byPolicy policy) counts (arrivingCopies origins keys) = .ok owners) :
    ∃ owner : Fin n → Place, owners = List.ofFn owner ∧
      ∀ group ∈ meeting counts n, ∀ i ∈ group,
        owner i ∈ classOrigins origins keys group i ∧
          policy (classOrigins origins keys group i) = some (owner i) := by
  have hfinds : ∀ group ∈ meeting counts n, ∀ i ∈ group,
      Finds policy (classOrigins origins keys group i) := by
    by_contra hnot
    push Not at hnot
    obtain ⟨e, he⟩ := settle_arrivingCopies_eq_error hcounts hnot
    rw [h] at he
    cases he
  obtain ⟨owner, howner⟩ := exists_owners hcounts hfinds
  rw [settle_arrivingCopies_eq_ok hcounts howner] at h
  exact ⟨owner, (Except.ok.inj h).symm, howner⟩

theorem exists_of_mem_classOrigins {place : Place} {i : Fin n}
    (h : place ∈ classOrigins origins keys group i) :
    ∃ j ∈ group, keys j = keys i ∧ place = origins j := by
  obtain ⟨j, hj, rfl⟩ := List.mem_map.1 (List.mem_mergeSort.1 h)
  obtain ⟨hj, hkey⟩ := List.mem_filter.1 hj
  exact ⟨j, hj, of_decide_eq_true hkey, rfl⟩

/-! ## Rearranging -/

section

variable {σ : Equiv.Perm (Fin n)} (hcounts : counts.sum = n)
  (hσ : ∀ group ∈ meeting counts n, ∀ i ∈ group, σ i ∈ group)

include hcounts hσ

theorem map_perm_of_mem_meeting (hgroup : group ∈ meeting counts n) :
    (group.map σ).Perm group := by
  have hnodup := (nodup_of_mem_meeting hcounts hgroup).map σ.injective
  refine (hnodup.subperm fun j hj => ?_).perm_of_length_le (List.length_map _).ge
  obtain ⟨i, hi, rfl⟩ := List.mem_map.1 hj
  exact hσ group hgroup i hi

/-- The policy sees the same of the class of a copy, wherever the copy arrives. -/
theorem classOrigins_comp (hgroup : group ∈ meeting counts n) (i : Fin n) :
    classOrigins (origins ∘ σ) (keys ∘ σ) group i = classOrigins origins keys group (σ i) := by
  have hperm := ((map_perm_of_mem_meeting hcounts hσ hgroup).filter fun j =>
    keys j = keys (σ i)).map origins
  rw [List.filter_map, List.map_map] at hperm
  exact Place.mergeSort_eq_of_perm hperm

end

/-- The owners that a policy finds for copies from different places do not depend on the order
    in which the copies of a root arrive. If the copies are rearranged, settling fails just if
    it did before, and otherwise the owners are rearranged in the same way. The copies with one
    key that meet at a root have one of them as their owner, and copies with different keys have
    different owners. -/
theorem settle_rearranges (policy : OwnerPolicy) (keys : Fin n → List Nat)
    (hcounts : counts.sum = n) (horigins : Function.Injective origins) {σ : Equiv.Perm (Fin n)}
    (hσ : ∀ group ∈ meeting counts n, ∀ i ∈ group, σ i ∈ group) :
    ((∃ e, settle (byPolicy policy) counts (arrivingCopies (origins ∘ σ) (keys ∘ σ)) = .error e) ↔
      ∃ e, settle (byPolicy policy) counts (arrivingCopies origins keys) = .error e) ∧
    ∀ owners, settle (byPolicy policy) counts (arrivingCopies origins keys) = .ok owners →
      ∃ owner : Fin n → Place, owners = List.ofFn owner ∧
        settle (byPolicy policy) counts (arrivingCopies (origins ∘ σ) (keys ∘ σ)) =
          .ok (List.ofFn (owner ∘ σ)) ∧
        (∀ group ∈ meeting counts n, ∀ i ∈ group,
          (∃ j ∈ group, keys j = keys i ∧ owner i = origins j) ∧
            ∀ j ∈ group, keys j = keys i → owner j = owner i) ∧
        ∀ i j, keys i ≠ keys j → owner i ≠ owner j := by
  constructor
  · rw [exists_settle_eq_error_iff hcounts, exists_settle_eq_error_iff hcounts]
    refine exists_congr fun group => and_congr_right fun hgroup => ?_
    have hmem := fun i => (map_perm_of_mem_meeting hcounts hσ hgroup).mem_iff (a := i)
    simp only [classOrigins_comp hcounts hσ hgroup]
    constructor
    · rintro ⟨i, hi, hfails⟩
      exact ⟨σ i, hσ group hgroup i hi, hfails⟩
    · rintro ⟨i, hi, hfails⟩
      obtain ⟨j, hj, rfl⟩ := List.mem_map.1 ((hmem i).2 hi)
      exact ⟨j, hj, hfails⟩
  · intro owners howners
    obtain ⟨owner, rfl, hfound⟩ := owners_of_settle hcounts howners
    refine ⟨owner, rfl, settle_arrivingCopies_eq_ok hcounts fun group hgroup i hi => ?_,
      fun group hgroup i hi => ⟨exists_of_mem_classOrigins (hfound group hgroup i hi).1,
        fun j hj hkey => ?_⟩, fun i j hne heq => hne ?_⟩
    · rw [classOrigins_comp hcounts hσ hgroup]
      exact hfound group hgroup (σ i) (hσ group hgroup i hi)
    · have hi' := (hfound group hgroup i hi).2
      have hj' := (hfound group hgroup j hj).2
      rw [classOrigins, hkey] at hj'
      exact Option.some.inj (hj'.symm.trans hi')
    · -- the owner tells the origin of a copy, and the origin its key
      have hmember : ∀ i, ∃ i', keys i' = keys i ∧ owner i = origins i' := by
        intro i
        obtain ⟨group, hgroup, hi⟩ := exists_mem_meeting hcounts i
        obtain ⟨i', _, h⟩ := exists_of_mem_classOrigins (hfound group hgroup i hi).1
        exact ⟨i', h⟩
      obtain ⟨i', hi', howner⟩ := hmember i
      obtain ⟨j', hj', howner'⟩ := hmember j
      rw [← hi', ← hj', horigins (howner.symm.trans (heq.trans howner'))]

/-- Three copies meet at one root, two of which have the same key, and two more copies with this
    key meet at the last of three roots. The first copies of both roots swap places with the
    ones after them. -/
theorem settle_rearranges_threeRoots :
    let counts : List Nat := [3, 0, 2]
    let origins : Fin 5 → Place := ![⟨2, 0⟩, ⟨1, 0⟩, ⟨0, 1⟩, ⟨1, 1⟩, ⟨0, 0⟩]
    let keys : Fin 5 → List Nat := ![[7], [8], [7], [7], [7]]
    let σ : Equiv.Perm (Fin 5) := Equiv.swap 0 1 * Equiv.swap 3 4
    (counts.sum = 5 ∧ Function.Injective origins ∧
      ∀ group ∈ meeting counts 5, ∀ i ∈ group, σ i ∈ group) ∧
    ∃ owner : Fin 5 → Place,
      [⟨0, 1⟩, ⟨1, 0⟩, ⟨0, 1⟩, ⟨0, 0⟩, ⟨0, 0⟩] = List.ofFn owner ∧
      settle (byPolicy .smallest) counts (arrivingCopies (origins ∘ σ) (keys ∘ σ)) =
        .ok (List.ofFn (owner ∘ σ)) ∧
      owner 0 = owner 2 ∧ owner 0 ≠ owner 1 := by
  intro counts origins keys σ
  have hcounts : counts.sum = 5 := rfl
  have horigins : Function.Injective origins := by decide
  have hσ : ∀ group ∈ meeting counts 5, ∀ i ∈ group, σ i ∈ group := by decide
  have hsettle : settle (byPolicy .smallest) counts (arrivingCopies origins keys) =
      .ok [⟨0, 1⟩, ⟨1, 0⟩, ⟨0, 1⟩, ⟨0, 0⟩, ⟨0, 0⟩] := by cbv
  obtain ⟨owner, howner, hrearranged, hroot, hdifferent⟩ :=
    (settle_rearranges .smallest keys hcounts horigins hσ).2 _ hsettle
  exact ⟨⟨hcounts, horigins, hσ⟩, owner, howner, hrearranged,
    (hroot [0, 1, 2] (by decide) 2 (by decide)).2 0 (by decide) rfl, hdifferent 0 1 (by decide)⟩

end SharedMesh
