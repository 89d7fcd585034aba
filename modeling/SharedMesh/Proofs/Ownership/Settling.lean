import SharedMesh.Ownership.Settle
import SharedMesh.Proofs.Checked
import SharedMesh.Proofs.Distinct
import SharedMesh.Proofs.Sorting
import SharedMesh.Route.Basic

/-!
# Settling, class by class

Every copy is in one class of its group. So if all classes come to an owner, each copy gets
the owner of its class, in the order of the copies (`settle_eq_ok`); and if some class does
not, no copy gets any (`settle_eq_error`). The copies of a root are gone through in the order of
their origins, wherever they came in (`sortBetween_fan`).
-/

namespace SharedMesh

variable {choose : List Served → Option Place}

/-- The class comes to an owner, who is one of its members. -/
def Settled (choose : List Served → Option Place) (members : List Served) : Prop :=
  ∃ owner ∈ members.map Served.origin, choose members = some owner

theorem settleClass_eq_ok {members : List Served} {owner : Place} (vertex : Nat)
    (h : choose members = some owner) (hmem : owner ∈ members.map Served.origin) :
    settleClass choose vertex members = .ok (members.map fun c => (c.slot, owner)) := by
  obtain ⟨c, hc, rfl⟩ := List.mem_map.1 hmem
  have hany : (members.any fun c' => c'.origin = c.origin) = true :=
    List.any_eq_true.2 ⟨c, hc, by simp⟩
  simp only [settleClass, h, hany, if_true]

theorem settleClass_eq_error {members : List Served} (vertex : Nat) (h : ¬ Settled choose members) :
    ∃ owner, settleClass choose vertex members = .error (.unresolved vertex owner) := by
  rw [settleClass]
  cases hchoose : choose members with
  | none => exact ⟨none, rfl⟩
  | some owner =>
    have hnone : (members.any fun c => c.origin = owner) = false := by
      rw [List.any_eq_false]
      intro c hc hown
      exact h ⟨owner, List.mem_map.2 ⟨c, hc, by simpa using hown⟩, hchoose⟩
    simp [hnone]

/-- A class that fails does so with an unresolved owner. -/
theorem error_of_settleClass {vertex : Nat} {members : List Served} {e : MeshError}
    (h : settleClass choose vertex members = .error e) : ∃ owner, e = .unresolved vertex owner := by
  by_cases hs : Settled choose members
  · obtain ⟨owner, hmem, hchoose⟩ := hs
    rw [settleClass_eq_ok vertex hchoose hmem] at h
    cases h
  · obtain ⟨owner, herror⟩ := settleClass_eq_error vertex hs
    exact ⟨owner, Except.error.inj (h.symm.trans herror)⟩

/-- Every copy is in one class. -/
theorem classes_flatten_perm (copies : List Served) :
    (Served.classes copies).flatten.Perm copies := by
  rw [Served.classes, ← List.flatMap_def]
  exact (perm_flatMap_filter (nodup_eraseDups (copies.map Served.key)) fun c hc =>
    List.mem_eraseDups.2 (List.mem_map_of_mem hc)).symm

theorem takeCounts_flatten {β : Type} (groups : List (List β)) :
    takeCounts (groups.map List.length) groups.flatten = groups := by
  induction groups with
  | nil => rfl
  | cons group rest ih =>
    rw [List.map_cons, List.flatten_cons, takeCounts, List.take_left, List.drop_left, ih]

theorem flatten_takeCounts {β : Type} (counts : List Nat) (xs : List β) :
    (takeCounts counts xs).flatten = xs.take counts.sum := by
  induction counts generalizing xs with
  | nil => rfl
  | cons count counts ih =>
    rw [takeCounts, List.flatten_cons, ih, List.sum_cons, List.take_add]

/-! ## Copies that differ in their wishes alone -/

theorem takeCounts_map {β γ : Type} (f : β → γ) (counts : List Nat) (xs : List β) :
    takeCounts counts (xs.map f) = (takeCounts counts xs).map (List.map f) := by
  induction counts generalizing xs with
  | nil => rfl
  | cons count counts ih => simp only [takeCounts, List.map_cons, List.map_take, ← ih, List.map_drop]

section

variable {f : Served → Served} (hslot : ∀ c, (f c).slot = c.slot)
  (horigin : ∀ c, (f c).origin = c.origin) (hkey : ∀ c, (f c).key = c.key)

include hslot horigin in
theorem settleClass_map (vertex : Nat) (members : List Served) :
    settleClass choose vertex (members.map f) =
      settleClass (fun members => choose (members.map f)) vertex members := by
  simp only [settleClass, List.any_map, List.map_map, Function.comp_def, hslot, horigin]

include horigin in
theorem sorted_map (copies : List Served) :
    Served.sorted (copies.map f) = (Served.sorted copies).map f :=
  (List.map_mergeSort fun a _ b _ => by rw [horigin, horigin]).symm

include horigin hkey in
theorem classes_sorted_map (copies : List Served) :
    Served.classes (Served.sorted (copies.map f)) =
      (Served.classes (Served.sorted copies)).map (List.map f) := by
  simp only [sorted_map horigin, Served.classes, List.map_map, List.filter_map, Function.comp_def,
    hkey]

include hslot horigin hkey in
/-- Whoever settles copies by their slots, origins and keys may first let them wish for
    something else. -/
theorem settle_map (counts : List Nat) (copies : List Served) :
    settle choose counts (copies.map f) =
      settle (fun members => choose (members.map f)) counts copies := by
  simp only [settle, settleRoot, takeCounts_map, List.zipIdx_map, List.mapM_map,
    classes_sorted_map horigin hkey, Function.comp_def, settleClass_map hslot horigin, Prod.map, id]

end

/-! ## The order in which copies are settled -/

/-- Offsets that ascend do not go beyond the last one. -/
theorem le_getLast_of_ascending {start : Nat} {offsets : List Nat}
    (h : ∀ x ∈ (start :: offsets).zip offsets, x.1 ≤ x.2) :
    ∀ x ∈ (start :: offsets).zip offsets, x.2 ≤ (start :: offsets).getLast?.getD 0 := by
  induction offsets generalizing start with
  | nil => simp
  | cons next rest ih =>
    rw [List.zip_cons_cons, List.forall_mem_cons] at h ⊢
    have hrest := ih h.2
    rw [List.getLast?_cons_cons]
    refine ⟨?_, hrest⟩
    cases rest with
    | nil => simp
    | cons after rest =>
      rw [List.zip_cons_cons, List.forall_mem_cons] at hrest
      exact ((List.forall_mem_cons.1 h.2).1).trans hrest.1

theorem Served.length_list {origins : List Place} {keys : List (List Nat)} {wishes : List Nat}
    (hkeys : keys.length = origins.length) (hwishes : wishes.length = origins.length) :
    (Served.list origins keys wishes).length = origins.length := by
  simp [Served.list, hkeys, hwishes]

/-- A copy without what it shares with others. -/
def Served.bare (c : Served) : Served := ⟨c.slot, c.origin, [], 0⟩

theorem Served.map_bare_list {origins : List Place} {keys : List (List Nat)} {wishes : List Nat}
    (hkeys : keys.length = origins.length) (hwishes : wishes.length = origins.length) :
    (Served.list origins keys wishes).map Served.bare =
      Served.list origins (origins.map fun _ => []) (origins.map fun _ => 0) := by
  refine List.ext_getElem (by simp [Served.list, hkeys, hwishes]) fun i hi _ => ?_
  simp [Served.list, Served.bare]

/-- Copies are settled in the order that sorts their origins between the offsets of the fan. -/
theorem sortBetween_fan {side : Side} (h : side.fanIsSound = true) {keys : List (List Nat)}
    {wishes : List Nat} (hkeys : keys.length = side.itemCount)
    (hwishes : wishes.length = side.itemCount) :
    sortBetween side.fan side.places =
      .ok (((takeCounts side.fanCounts (Served.list side.places keys wishes)).flatMap
        Served.sorted).map Served.slot) := by
  have hplaces : side.places.length = side.itemCount := List.length_map _
  rw [← hplaces] at hkeys hwishes
  simp only [Side.fanIsSound, Bool.and_eq_true, beq_iff_eq, List.all_eq_true,
    decide_eq_true_eq] at h
  obtain ⟨⟨hfirst, hlast⟩, hascending⟩ := h
  rw [← hplaces] at hlast
  have hbounds : ((side.fan.zip side.fan.tail).any fun x => x.2 < x.1 || side.places.length < x.2) =
      false := by
    rw [List.any_eq_false]
    intro x hx
    have hle : x.2 ≤ side.fan.getLast?.getD 0 := by
      cases hfan : side.fan with
      | nil => simp [hfan] at hx
      | cons start offsets =>
        rw [hfan] at hx hascending
        exact le_getLast_of_ascending hascending x hx
    have := hascending x hx
    simp only [Bool.or_eq_true, decide_eq_true_eq]
    omega
  have hcounts : (side.fan.zip side.fan.tail).map (fun x => x.2 - x.1) = side.fanCounts := by
    rw [Side.fanCounts, ← List.map_uncurry_zip_eq_zipWith]
    rfl
  have hhead : side.fan.headD 0 = 0 := List.headD_eq_head?_getD.trans hfirst
  have hend : side.fan.getLastD 0 = side.places.length :=
    List.getLastD_eq_getLast?.trans hlast
  have hlength : (Served.list side.places (side.places.map fun _ => [])
      (side.places.map fun _ => 0)).length = side.places.length :=
    Served.length_list (List.length_map _) (List.length_map _)
  have hgroups : (takeCounts side.fanCounts
      ((Served.list side.places keys wishes).map Served.bare)).flatMap Served.sorted =
        ((takeCounts side.fanCounts (Served.list side.places keys wishes)).flatMap
          Served.sorted).map Served.bare := by
    rw [takeCounts_map, List.flatMap_map, List.map_flatMap]
    exact List.flatMap_congr fun group _ => sorted_map (f := Served.bare) (fun _ => rfl) group
  simp only [sortBetween, hbounds, hcounts, hhead, hend]
  rw [List.take_zero, List.drop_zero, List.drop_eq_nil_of_le hlength.le, List.nil_append,
    List.append_nil, ← Served.map_bare_list hkeys hwishes, hgroups, List.map_map]
  rfl

/-! ## As many owners as copies -/

theorem length_of_settleClass {vertex : Nat} {members : List Served} {owners : List (Nat × Place)}
    (h : settleClass choose vertex members = .ok owners) : owners.length = members.length := by
  by_cases hs : Settled choose members
  · obtain ⟨owner, hmem, hchoose⟩ := hs
    rw [settleClass_eq_ok vertex hchoose hmem] at h
    cases h
    exact List.length_map _
  · obtain ⟨owner, herror⟩ := settleClass_eq_error vertex hs
    rw [herror] at h
    cases h

theorem length_of_settleRoot {vertex : Nat} {group : List Served} {owners : List (Nat × Place)}
    (h : settleRoot choose vertex group = .ok owners) : owners.length = group.length := by
  obtain ⟨lists, hlists, h⟩ := bind_eq_ok h
  cases h
  rw [length_flatten_of_mapM (fun _ _ _ => length_of_settleClass) hlists, ← List.length_flatten]
  exact ((classes_flatten_perm _).trans (List.mergeSort_perm group _)).length_eq

/-- Every copy gets an owner, if any does. -/
theorem length_of_settle {counts : List Nat} {copies : List Served} {owners : List Place}
    (hcounts : counts.sum = copies.length) (h : settle choose counts copies = .ok owners) :
    owners.length = copies.length := by
  obtain ⟨lists, hlists, h⟩ := bind_eq_ok h
  cases h
  have hlength : lists.flatten.length =
      ((takeCounts counts copies).zipIdx.map fun x => x.1.length).sum :=
    length_flatten_of_mapM (fun _ _ _ => length_of_settleRoot) hlists
  rw [List.length_map, (List.mergeSort_perm _ _).length_eq, hlength]
  calc ((takeCounts counts copies).zipIdx.map fun x => x.1.length).sum
      = ((takeCounts counts copies).map List.length).sum := by
        conv_rhs => rw [← List.zipIdx_map_fst 0 (takeCounts counts copies), List.map_map]
        rfl
    _ = copies.length := by
        rw [← List.length_flatten, flatten_takeCounts, hcounts, List.take_length]

section

variable {groups : List (List Served)} {answer : Served → Place}

/-- The owners of the copies of a group, class by class. -/
theorem settleRoot_eq_ok {group : List Served} (vertex : Nat)
    (h : ∀ members ∈ Served.classes (Served.sorted group), ∃ owner ∈ members.map Served.origin,
      choose members = some owner ∧ ∀ c ∈ members, answer c = owner) :
    settleRoot choose vertex group = .ok (((Served.classes (Served.sorted group)).flatten).map
      fun c => (c.slot, answer c)) := by
  have hclasses := mapM_eq_ok (f := settleClass choose vertex)
    (g := fun members => members.map fun c => (c.slot, answer c)) fun members hmembers => by
      obtain ⟨owner, hmem, hchoose, hanswer⟩ := h members hmembers
      rw [settleClass_eq_ok vertex hchoose hmem]
      exact congrArg Except.ok (List.map_congr_left fun c hc => by rw [hanswer c hc])
  refine (bind_of_ok hclasses _).trans (congrArg Except.ok ?_)
  rw [List.map_flatten]

/-- If all classes come to an owner, each copy gets the owner of its class. -/
theorem settle_eq_ok (answer : Served → Place)
    (hslots : groups.flatten.Pairwise fun a b => a.slot < b.slot)
    (h : ∀ group ∈ groups, ∀ members ∈ Served.classes (Served.sorted group),
      ∃ owner ∈ members.map Served.origin,
        choose members = some owner ∧ ∀ c ∈ members, answer c = owner) :
    settle choose (groups.map List.length) groups.flatten =
      .ok (groups.flatten.map answer) := by
  have hroots := mapM_eq_ok (l := groups.zipIdx) (f := fun x => settleRoot choose x.2 x.1)
    (g := fun x => ((Served.classes (Served.sorted x.1)).flatten).map fun c => (c.slot, answer c))
    fun x hx => settleRoot_eq_ok x.2 (h x.1 (List.fst_mem_of_mem_zipIdx hx))
  rw [settle, takeCounts_flatten]
  refine (bind_of_ok hroots _).trans (congrArg Except.ok ?_)
  have hperm : ((groups.zipIdx.map fun x =>
      ((Served.classes (Served.sorted x.1)).flatten).map fun c => (c.slot, answer c)).flatten).Perm
        (groups.flatten.map fun c => (c.slot, answer c)) := by
    conv_rhs => rw [← List.zipIdx_map_fst 0 groups, ← List.flatMap_def, List.map_flatMap]
    rw [← List.flatMap_def]
    refine List.Perm.flatMap_left _ fun x _ => ?_
    exact ((classes_flatten_perm _).trans (List.mergeSort_perm x.1 _)).map _
  rw [mergeSort_key_eq_of_perm hperm, List.map_map]
  · rfl
  · rw [List.pairwise_map]
    exact hslots

theorem error_of_settleRoot {vertex : Nat} {group : List Served} {e : MeshError}
    (h : settleRoot choose vertex group = .error e) : ∃ owner, e = .unresolved vertex owner := by
  rw [settleRoot] at h
  cases hall : (Served.classes (Served.sorted group)).mapM (settleClass choose vertex) with
  | ok owners => simp [hall, bind, Except.bind, pure, Except.pure] at h
  | error e' =>
    rw [hall] at h
    obtain ⟨members, _, he⟩ := error_of_mapM hall
    exact error_of_settleClass (he.trans (congrArg Except.error (Except.error.inj h)))

/-- The roots whose copies do not all come to an owner. -/
def settleFaults (choose : List Served → Option Place) (counts : List Nat)
    (copies : List Served) : List MeshError :=
  (takeCounts counts copies).zipIdx.flatMap fun (group, vertex) =>
    (settleRoot choose vertex group).faults

/-- Copies are settled root by root, or one of the roots that fail is reported. -/
theorem settle_reports (choose : List Served → Option Place) (counts : List Nat)
    (copies : List Served) :
    (settle choose counts copies).Reports (settleFaults choose counts copies) :=
  (Checked.reports_mapM _ _).bind fun _ _ => ⟨_, rfl⟩

/-- Nothing else can go wrong. -/
theorem error_of_mem_settleFaults {counts : List Nat} {copies : List Served} {e : MeshError}
    (h : e ∈ settleFaults choose counts copies) : ∃ vertex owner, e = .unresolved vertex owner := by
  obtain ⟨⟨group, vertex⟩, _, he⟩ := List.mem_flatMap.1 h
  exact ⟨vertex, error_of_settleRoot (Checked.mem_faults.1 he)⟩

/-- If some class does not come to an owner, settling fails with such a class. -/
theorem settle_eq_error (h : ∃ group ∈ groups, ∃ members ∈ Served.classes (Served.sorted group),
      ¬ Settled choose members) :
    ∃ vertex owner, settle choose (groups.map List.length) groups.flatten =
      .error (.unresolved vertex owner) := by
  obtain ⟨group, hgroup, members, hmembers, hfails⟩ := h
  obtain ⟨vertex, hvertex⟩ := List.mem_iff_getElem?.1 hgroup
  obtain ⟨_, hclass⟩ := settleClass_eq_error vertex hfails
  obtain ⟨_, _, e, _, hroot⟩ := mapM_eq_error ⟨members, hmembers, _, hclass⟩
  have hroot : settleRoot choose vertex group = .error e := by rw [settleRoot, hroot]; rfl
  obtain ⟨x, _, e, he, hall⟩ := mapM_eq_error (f := fun x : List Served × Nat =>
    settleRoot choose x.2 x.1) ⟨(group, vertex), List.mem_zipIdx_iff_getElem?.2 hvertex, _, hroot⟩
  obtain ⟨owner, rfl⟩ := error_of_settleRoot he
  exact ⟨x.2, owner, by rw [settle, takeCounts_flatten, hall]; rfl⟩

end

end SharedMesh
