import SharedMesh.Proofs.Route.Carrying

/-!
# Roots answer

Back along a planned route, every item hears what its root has to say: a root hands its
answer to each of its copies (`spread_planned`), and from there it is carried to the items
(`broadcastRecords_together`; `broadcast_together` for answers of one value).
-/

namespace SharedMesh.Route

variable {κ T : Type} {n : Nat} {targets : Nat → List Place} {roots : Nat → Nat}

theorem delivered_planned {T : Type} (items : Nat → List (List T)) (s : Nat) :
    delivered (planned n targets roots) items s =
      (copies n targets s (roots s)).map fun q => (items q.rank).getD q.index [] := by
  simp [delivered, planned, Function.comp_def]

/-- What a rank hears back about its items, if the copies are told something of their
    origins. -/
theorem map_far_reverse_planned {β : Type} (h : Sound n targets roots) {r : Nat} (hr : r < n)
    (f : Place → β) (fallback : β) :
    (planned n targets roots r).reverse.far.links.map (fun l =>
      ((copies n targets l.rank (roots l.rank)).map f).getD l.slot fallback) =
        (List.range (targets r).length).map fun i => f ⟨r, i⟩ := by
  refine List.ext_getElem (by simp [planned, reverse]) fun i hi _ => ?_
  have hi : i < (targets r).length := by simpa [planned, reverse] using hi
  have hmem : (targets r)[i] ∈ targets r := List.getElem_mem hi
  have hcopy : (⟨r, i⟩ : Place) ∈ copies n targets (targets r)[i].rank
      (roots (targets r)[i].rank) :=
    mem_copies.2 ⟨hr, _, h.index_lt r hr _ hmem, List.getElem?_eq_getElem hi⟩
  simp [planned, reverse, List.getElem?_idxOf hcopy]

/-- Where an item goes. -/
def targetAt (targets : Nat → List Place) (q : Place) : Place :=
  (targets q.rank).getD q.index default

theorem targetAt_of_mem_namers {p q : Place} (h : q ∈ namers n targets p) :
    targetAt targets q = p := by
  rw [targetAt, List.getD_eq_getElem?_getD, (mem_namers.1 h).2, Option.getD_some]

/-- How many copies each root has. -/
theorem fanCounts_planned (targets : Nat → List Place) (roots : Nat → Nat) (r : Nat) :
    (planned n targets roots r).far.fanCounts =
      (List.range (roots r)).map fun k => (namers n targets ⟨r, k⟩).length := by
  rw [Side.fanCounts_map_range rfl]
  refine List.map_congr_left fun k _ => ?_
  rw [copies_succ, List.length_append, Nat.add_sub_cancel_left]

/-- Every copy gets the answer of its root, a record of `width` values. -/
theorem spread_planned {s width : Nat} (hw : 0 < width) (hroots : roots s * width < 2 ^ 64)
    {answer : Place → List T} (hanswer : ∀ k < roots s, (answer ⟨s, k⟩).length = width) :
    spread (planned n targets roots s).reverse width ((Place.own s (roots s)).flatMap answer) =
      .ok ((copies n targets s (roots s)).flatMap fun q => answer (targetAt targets q)) := by
  have hcount : (planned n targets roots s).reverse.near.rootCount = roots s :=
    rootCount_far_planned s
  have hrecords : ∀ record ∈ (List.range (roots s)).map fun k => answer ⟨s, k⟩,
      record.length = width := fun record hrecord => by
    obtain ⟨k, hk, rfl⟩ := List.mem_map.1 hrecord
    exact hanswer k (List.mem_range.1 hk)
  have hdata : (Place.own s (roots s)).flatMap answer =
      ((List.range (roots s)).map fun k => answer ⟨s, k⟩).flatten := by
    rw [Place.own, List.flatMap_map, List.flatMap_def]
  have hlength : ((Place.own s (roots s)).flatMap answer).length = roots s * width := by
    rw [hdata, length_flatten_of_width hrecords, List.length_map, List.length_range]
  have hfan : (planned n targets roots s).reverse.near.fanCounts =
      (List.range (roots s)).map fun k => (namers n targets ⟨s, k⟩).length :=
    fanCounts_planned targets roots s
  rw [spread, hcount]
  refine (bind_of_ok (word_eq_ok hroots) _).trans ?_
  rw [if_neg (not_not_intro hlength), hdata, rows_flatten hw hrecords, hfan,
    List.zipWith_map_left, List.zipWith_map_right, List.zipWith_self, copies, List.flatMap_assoc,
    List.flatMap_def]
  refine congrArg (fun lists => Except.ok (List.flatten lists)) (List.map_congr_left fun k _ => ?_)
  rw [List.flatMap_congr fun q hq => by rw [targetAt_of_mem_namers hq], List.flatMap_def,
    List.map_const']

section

variable [Alphabet κ] [LawfulAlphabet κ] [Layout κ T] [LawfulLayout κ T]

/-- Every item gets the answer of its root, a record of `width` values. -/
theorem broadcastRecords_together (h : Sound n targets roots) {width : Nat} (hw : 0 < width)
    (hroots : ∀ r < n, roots r * width < 2 ^ 64)
    (hroom : HasRoom κ T n (planned n targets roots) width) (answer : Place → List T)
    (hanswer : ∀ r < n, ∀ k < roots r, (answer ⟨r, k⟩).length = width) :
    Together n (List.range n) (fun r => (broadcast (planned n targets roots r).reverse
        (Seat.of r n) width ((Place.own r (roots r)).flatMap answer) : Proc κ (List T)).toProgram)
      (fun r => .ok ((targets r).flatMap answer)) := by
  refine Together.ofCheckedThen (fun r hr => spread_planned hw (hroots r (List.mem_range.1 hr))
    (hanswer r (List.mem_range.1 hr))) ?_
  -- on the reverse of the route, the copies are the items
  have hitems : Records n (fun r => (planned n targets roots r).reverse.near) width
      fun r => (copies n targets r (roots r)).map fun q => answer (targetAt targets q) := by
    refine fun r hr => ⟨by simp [planned, reverse, Side.itemCount], fun record hrecord => ?_⟩
    obtain ⟨q, hq, rfl⟩ := List.mem_map.1 hrecord
    obtain ⟨_, root, hroot, htarget⟩ := mem_copies.1 hq
    have htarget : targetAt targets q = ⟨r, root⟩ := by
      rw [targetAt, List.getD_eq_getElem?_getD, htarget, Option.getD_some]
    rw [htarget]
    exact hanswer r hr root hroot
  refine (carry_together (paired_planned h).reverse hw hroom.reverse hitems).congr
    (fun r _ => by rw [List.flatMap_def]) fun r hr => congrArg Except.ok ?_
  rw [delivered, map_far_reverse_planned h (List.mem_range.1 hr)
    (fun q => answer (targetAt targets q)), List.flatMap_def]
  refine congrArg List.flatten (List.ext_getElem (by simp) fun i hi _ => ?_)
  have hi : i < (targets r).length := by simpa using hi
  simp [targetAt, hi]

/-- Every item gets the answer of its root. -/
theorem broadcast_together (h : Sound n targets roots) (hroots : ∀ r < n, roots r < 2 ^ 64)
    (hroom : HasRoom κ T n (planned n targets roots) 1) (answer : Place → T) :
    Together n (List.range n) (fun r => (broadcast (planned n targets roots r).reverse
        (Seat.of r n) 1 ((Place.own r (roots r)).map answer) : Proc κ (List T)).toProgram)
      (fun r => .ok ((targets r).map answer)) := by
  have := broadcastRecords_together h Nat.one_pos (fun r hr => by simpa using hroots r hr) hroom
    (fun p => [answer p]) fun _ _ _ _ => rfl
  simpa only [← List.map_eq_flatMap] using this

end

end SharedMesh.Route
