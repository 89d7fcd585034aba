import SharedMesh.Proofs.Collective.Gather
import SharedMesh.Proofs.Route.Copies

/-!
# Planning succeeds

If all targets are roots that are there, the ranks can plan their route together, and each
of them gets its two sides of the route that the targets describe (`plan_together`). A plan
has four parts (`plan_eq`): the items announce themselves (`announceAll_together`), the ranks
accept what arrives (`accept_together`), the items are told where they landed
(`land_together`), and each rank joins its two sides (`join_eq_ok`). A rank that has no room
for what comes next stops before it.

What arrives at a rank is a list that is ordered by rank and item. Sorted by root, it is the
list of copies; sorted by rank, it falls into the lists in which the ranks announced their
items. Both times no two arrivals tie.
-/

namespace SharedMesh

/-! ## Drawing -/

/-- Things are drawn from the lists in the order in which the lists have them. -/
theorem draw_eq_ok {β : Type} {ranks : List Nat} {out : List β} (hlen : ranks.length = out.length)
    {lists : List (List β)}
    (h : ∀ s ∈ ranks, lists.getD s [] = ((ranks.zip out).filter fun x => x.1 = s).map Prod.snd) :
    draw ranks lists = .ok out := by
  induction ranks generalizing out lists with
  | nil => rw [List.eq_nil_of_length_eq_zero hlen.symm]; rfl
  | cons rank ranks ih =>
    obtain ⟨first, rest, rfl⟩ := List.exists_cons_of_length_eq_add_one hlen.symm
    have hfirst := h rank List.mem_cons_self
    rw [List.zip_cons_cons, List.filter_cons_of_pos (by simp), List.map_cons] at hfirst
    have hrank : rank < lists.length := by
      by_contra hge
      simp [List.getElem?_eq_none (Nat.le_of_not_lt hge)] at hfirst
    rw [draw, hfirst]
    -- the list of this rank is one shorter, the others stay
    have ih := @ih rest (by simpa using hlen)
      (lists.set rank (((ranks.zip rest).filter fun x => x.1 = rank).map Prod.snd))
      fun s hs => ?_
    · simp only [ih]
      rfl
    · by_cases hsr : s = rank
      · subst hsr
        simp [hrank]
      · have := h s (List.mem_cons_of_mem _ hs)
        rw [List.zip_cons_cons, List.filter_cons_of_neg (by simpa using Ne.symm hsr)] at this
        rw [← this]
        simp [Ne.symm hsr]

/-! ## Fans of sorted items -/

/-- The items of a root come before those of other roots, and no further. -/
theorem takeWhile_replicate_append {root : Nat} (count : Nat) {rest : List Nat} (h : root ∉ rest) :
    (List.replicate count root ++ rest).takeWhile (fun x => decide (x = root)) =
        List.replicate count root ∧
      (List.replicate count root ++ rest).dropWhile (fun x => decide (x = root)) = rest := by
  have hall : ∀ x ∈ List.replicate count root, decide (x = root) = true := fun x hx =>
    decide_eq_true (List.eq_of_mem_replicate hx)
  have htake : rest.takeWhile (fun x => decide (x = root)) = [] := by
    cases rest with
    | nil => rfl
    | cons x xs =>
      rw [List.takeWhile_cons_of_neg]
      simpa using fun hx : x = root => h (hx ▸ List.mem_cons_self)
  have hrest := List.takeWhile_append_dropWhile (p := fun x => decide (x = root)) (l := rest)
  rw [htake, List.nil_append] at hrest
  rw [List.takeWhile_append_of_pos hall, List.dropWhile_append_of_pos hall, htake, hrest,
    List.append_nil]
  exact ⟨rfl, rfl⟩

theorem fanFrom_replicate (root sofar count : Nat) (c : Nat → Nat) :
    fanFrom root sofar count ((List.range' root count).flatMap fun k => List.replicate (c k) k) =
      (List.range (count + 1)).map fun k => sofar + ((List.range' root k).map c).sum := by
  induction count generalizing root sofar with
  | zero => simp [fanFrom]
  | succ count ih =>
    -- no later item names this root
    have hroot : root ∉ (List.range' (root + 1) count).flatMap fun k =>
        List.replicate (c k) k := by
      intro hmem
      obtain ⟨k, hk, hx⟩ := List.mem_flatMap.1 hmem
      have := (List.mem_range'_1.1 hk).1
      have := List.eq_of_mem_replicate hx
      omega
    obtain ⟨htake, hdrop⟩ := takeWhile_replicate_append (c root) hroot
    rw [List.range'_succ, List.flatMap_cons, fanFrom, htake, hdrop, List.length_replicate, ih,
      List.range_succ_eq_map (n := count + 1)]
    simp [List.range'_succ, Function.comp_def, Nat.add_assoc]

/-! ## Arrivals -/

namespace Arrival

/-- The item that arrived. -/
def origin (a : Arrival) : Place := ⟨a.rank, a.item⟩

theorem le_iff {a b : Arrival} :
    a.le b = true ↔ a.root < b.root ∨ a.root = b.root ∧ a.origin.le b.origin = true := by
  simp [le, origin]

theorem le_total (a b : Arrival) : (a.le b || b.le a) = true := by
  rw [Bool.or_eq_true, le_iff, le_iff]
  rcases Nat.lt_trichotomy a.root b.root with h | h | h
  · exact .inl (.inl h)
  · exact (Bool.or_eq_true_iff.1 (Place.le_total a.origin b.origin)).imp
      (fun hle => .inr ⟨h, hle⟩) fun hle => .inr ⟨h.symm, hle⟩
  · exact .inr (.inl h)

theorem le_trans (a b c : Arrival) (hab : a.le b = true) (hbc : b.le c = true) :
    a.le c = true := by
  rw [le_iff] at *
  rcases hab with hab | ⟨hab, hab'⟩ <;> rcases hbc with hbc | ⟨hbc, hbc'⟩
  · exact .inl (Nat.lt_trans hab hbc)
  · exact .inl (hbc ▸ hab)
  · exact .inl (hab ▸ hbc)
  · exact .inr ⟨hab.trans hbc, Place.le_trans hab' hbc'⟩

end Arrival

namespace Route

variable {n : Nat} {targets : Nat → List Place} {roots : Nat → Nat} {s : Nat}

/-- The items of a rank whose targets are on rank `s`, with their numbers. -/
def bound (targets : List Place) (s : Nat) : List (Place × Nat) :=
  targets.zipIdx.filter fun x => x.1.rank = s

/-- What is announced of an item: its root and its number. -/
def announce (x : Place × Nat) : UInt64 × UInt64 := (UInt64.ofNat x.1.index, UInt64.ofNat x.2)

theorem announcements_eq (size : Nat) (targets : List Place) :
    announcements size targets = (List.range size).map fun s => (bound targets s).map announce :=
  rfl

/-- What is announced to rank `s`, rank by rank. -/
def arriving (n : Nat) (targets : Nat → List Place) (s : Nat) : List Arrival :=
  (List.range n).flatMap fun r =>
    (bound (targets r) s).zipIdx.map fun x => ⟨x.1.1.index, r, x.1.2, x.2⟩

/-- What landed on rank `s`, root by root. -/
def landed (n : Nat) (targets : Nat → List Place) (s count : Nat) : List Arrival :=
  (List.range count).flatMap fun root => (arriving n targets s).filter fun a => a.root = root

theorem length_bound_lt {list : List Place} (h : list.length < 2 ^ 64) (s : Nat) :
    (bound list s).length < 2 ^ 64 := by
  have hle := List.length_filter_le (fun x => decide (x.1.rank = s)) list.zipIdx
  rw [List.length_zipIdx] at hle
  exact Nat.lt_of_le_of_lt hle h

theorem mem_bound {list : List Place} {x : Place × Nat} :
    x ∈ bound list s ↔ list[x.2]? = some x.1 ∧ x.1.rank = s := by
  simp [bound, List.mem_zipIdx_iff_getElem?]

/-- Arrivals come by rank and item. -/
theorem pairwise_arriving :
    (arriving n targets s).Pairwise fun a b => a.origin.Before b.origin := by
  rw [arriving, List.pairwise_flatMap]
  constructor
  · intro r _
    rw [List.pairwise_map]
    have : ((bound (targets r) s).zipIdx.map Prod.fst).Pairwise fun x y => x.2 < y.2 := by
      rw [List.zipIdx_map_fst]
      exact (pairwise_zipIdx _ 0).filter _
    exact (List.pairwise_map.1 this).imp fun h => .inr ⟨rfl, h⟩
  · refine List.pairwise_lt_range.imp fun hrs a ha b hb => .inl ?_
    obtain ⟨_, _, rfl⟩ := List.mem_map.1 ha
    obtain ⟨_, _, rfl⟩ := List.mem_map.1 hb
    exact hrs

/-- Sorting the arrivals by root keeps the order within each root. -/
theorem mergeSort_arriving {count : Nat} (h : ∀ a ∈ arriving n targets s, a.root < count) :
    (arriving n targets s).mergeSort Arrival.le = landed n targets s count := by
  refine mergeSort_eq_of_perm Arrival.le_trans Arrival.le_total
    (perm_flatMap_filter List.nodup_range fun a ha => List.mem_range.2 (h a ha)) ?_
  rw [landed, List.pairwise_flatMap]
  constructor
  · intro root _
    refine (pairwise_arriving.filter _).imp_of_mem fun {a b} ha hb hab => ?_
    have ha : a.root = root := by simpa using (List.mem_filter.1 ha).2
    have hb : b.root = root := by simpa using (List.mem_filter.1 hb).2
    refine ⟨Arrival.le_iff.2 (.inr ⟨ha.trans hb.symm, hab.le.1⟩), ?_⟩
    rw [← Bool.not_eq_true, Arrival.le_iff, hab.le.2, ha, hb]
    simp
  · refine List.pairwise_lt_range.imp fun {i j} hij a ha b hb => ?_
    have ha : a.root = i := by simpa using (List.mem_filter.1 ha).2
    have hb : b.root = j := by simpa using (List.mem_filter.1 hb).2
    rw [← Bool.not_eq_true, Arrival.le_iff, Arrival.le_iff]
    omega

/-- The arrivals at a root are the items that name it. -/
theorem map_origin_filter_arriving (root : Nat) :
    ((arriving n targets s).filter fun a => a.root = root).map Arrival.origin =
      namers n targets ⟨s, root⟩ := by
  rw [arriving, List.filter_flatMap, List.map_flatMap, namers]
  refine List.flatMap_congr fun r _ => ?_
  rw [List.filter_map, List.map_map]
  have h := congrArg (List.map fun x : Place × Nat => (⟨r, x.2⟩ : Place))
    (map_fst_filter_zipIdx (fun x : Place × Nat => decide (x.1.index = root))
      (bound (targets r) s) 0)
  rw [List.map_map] at h
  refine h.trans ?_
  rw [bound, List.filter_filter]
  congr 1
  refine List.filter_congr fun x _ => ?_
  rw [← Bool.decide_and, decide_eq_decide]
  obtain ⟨⟨rank, index⟩, _⟩ := x
  simp [Place.mk.injEq, and_comm]

theorem map_origin_landed (count : Nat) :
    (landed n targets s count).map Arrival.origin = copies n targets s count := by
  rw [landed, List.map_flatMap, copies]
  exact List.flatMap_congr fun root _ => map_origin_filter_arriving root

theorem map_root_landed (count : Nat) : (landed n targets s count).map Arrival.root =
    (List.range count).flatMap fun root =>
      List.replicate (namers n targets ⟨s, root⟩).length root := by
  rw [landed, List.map_flatMap]
  refine List.flatMap_congr fun root _ => ?_
  rw [← map_origin_filter_arriving, List.length_map]
  refine List.eq_replicate_of_mem ?_ |>.trans (by rw [List.length_map])
  intro k hk
  obtain ⟨a, ha, rfl⟩ := List.mem_map.1 hk
  simpa using (List.mem_filter.1 ha).2

/-- The side of the copies is the one that the targets describe. -/
theorem farSide_landed (s : Nat) :
    farSide (roots s) (landed n targets s (roots s)) = (planned n targets roots s).far := by
  have hlength : ∀ k, (copies n targets s k).length =
      0 + ((List.range' 0 k).map fun root => (namers n targets ⟨s, root⟩).length).sum := by
    intro k
    rw [copies, List.length_flatMap, List.range_eq_range', Nat.zero_add]
  rw [farSide, map_root_landed, List.range_eq_range', fanFrom_replicate, planned,
    ← map_origin_landed]
  simp only [hlength, List.map_map]
  rfl

/-! ## Landings -/

/-- There is room for what the ranks plan: four words for each copy that arrives, three for
    each item that is linked, and a fan one word longer than there are roots. -/
structure Fits (n : Nat) (targets : Nat → List Place) (roots : Nat → Nat) : Prop where
  roots_room : ∀ r < n, (roots r + 1) * 8 < 2 ^ 63
  items_room : ∀ r < n, (targets r).length * 24 < 2 ^ 63
  copies_room : ∀ r < n, (copies n targets r (roots r)).length * 32 < 2 ^ 63

namespace Fits

variable (h : Fits n targets roots) {r : Nat} (hr : r < n)

include h hr

theorem roots_lt : roots r * 8 < 2 ^ 63 := by
  have := h.roots_room r hr
  omega

theorem items_lt : (targets r).length < 2 ^ 64 := by
  have := h.items_room r hr
  omega

theorem copies_lt : (copies n targets r (roots r)).length < 2 ^ 64 := by
  have := h.copies_room r hr
  omega

end Fits

theorem mem_arriving {a : Arrival} (h : a ∈ arriving n targets s) :
    a.rank < n ∧ (targets a.rank)[a.item]? = some ⟨s, a.root⟩ := by
  simp only [arriving, List.mem_flatMap, List.mem_range, List.mem_map] at h
  obtain ⟨r, hr, ⟨x, t⟩, hx, rfl⟩ := h
  obtain ⟨hx, hs⟩ := mem_bound.1 (List.fst_mem_of_mem_zipIdx hx)
  exact ⟨hr, hx.trans (congrArg some (by rw [← hs]))⟩

theorem length_arriving_le_sum (targets : Nat → List Place) (s : Nat) :
    (arriving n targets s).length ≤ itemTotal n targets := by
  rw [arriving, List.length_flatMap, itemTotal]
  refine List.sum_le_sum fun r _ => ?_
  rw [List.length_map, List.length_zipIdx, bound]
  exact (List.length_filter_le _ _).trans_eq List.length_zipIdx

/-- The copies that roots have are among what arrives. -/
theorem length_copies_le_arriving (s count : Nat) :
    (copies n targets s count).length ≤ (arriving n targets s).length := by
  have hsubset : copies n targets s count ⊆ (arriving n targets s).map Arrival.origin := by
    intro q hq
    obtain ⟨root, _, hq⟩ := List.mem_flatMap.1 hq
    rw [← map_origin_filter_arriving] at hq
    exact List.map_subset _ (List.filter_subset_self _) hq
  exact ((nodup_copies s count).subperm hsubset).length_le.trans_eq (List.length_map _)

/-- What a rank reads from the announcements. -/
theorem arrivals_announcements (hindex : ∀ r < n, ∀ p ∈ targets r, p.index < 2 ^ 64)
    (hlength : ∀ r < n, (targets r).length < 2 ^ 64) :
    arrivals ((List.range n).map fun r => (bound (targets r) s).map announce) =
      arriving n targets s := by
  rw [arrivals, zipIdx_map_range, List.flatMap_map, arriving]
  refine List.flatMap_congr fun r hr => ?_
  have hr : r < n := List.mem_range.1 hr
  dsimp only
  rw [List.zipIdx_map, List.map_map]
  refine List.map_congr_left fun x hx => ?_
  obtain ⟨hx, _⟩ := mem_bound.1 (List.fst_mem_of_mem_zipIdx hx)
  obtain ⟨hi, hp⟩ := List.getElem?_eq_some_iff.1 hx
  have hindex : x.1.1.index < 2 ^ 64 := hindex r hr _ (hp ▸ List.getElem_mem hi)
  have hitem : x.1.2 < 2 ^ 64 := hi.trans (hlength r hr)
  simp [announce, toNat_ofNat_word hindex, toNat_ofNat_word hitem]

/-- What a rank announced arrives in one block. -/
theorem filter_rank_arriving (targets : Nat → List Place) (s : Nat) {r : Nat} (hr : r < n) :
    (arriving n targets s).filter (fun a => a.rank = r) =
      (bound (targets r) s).zipIdx.map fun x => ⟨x.1.1.index, r, x.1.2, x.2⟩ := by
  rw [arriving, List.filter_flatMap]
  have hone : ∀ q ∈ List.range n, ((bound (targets q) s).zipIdx.map fun x =>
      (⟨x.1.1.index, q, x.1.2, x.2⟩ : Arrival)).filter (fun a => a.rank = r) =
        if q = r then (bound (targets r) s).zipIdx.map fun x => ⟨x.1.1.index, r, x.1.2, x.2⟩
        else [] := by
    intro q _
    rw [List.filter_map]
    by_cases hq : q = r
    · subst hq; simp [Function.comp_def]
    · simp [Function.comp_def, hq]
  rw [List.flatMap_congr hone, flatMap_ite_eq (List.mem_range.2 hr) List.nodup_range]

/-- Where the items of each rank landed, in the order in which they were announced. -/
theorem landings_landed {count : Nat} (h : ∀ a ∈ arriving n targets s, a.root < count) :
    landings n (landed n targets s count) = (List.range n).map fun r =>
      (bound (targets r) s).map fun x =>
        UInt64.ofNat ((copies n targets s count).idxOf ⟨r, x.2⟩) := by
  refine List.map_congr_left fun r hr => ?_
  have hnodup : ((landed n targets s count).map Arrival.origin).Nodup := by
    rw [map_origin_landed]
    exact nodup_copies s count
  let slot : Arrival → Arrival × Nat := fun a => (a, (copies n targets s count).idxOf a.origin)
  -- the arrivals from this rank, each with the slot where it landed
  have hzip : (landed n targets s count).zipIdx = (landed n targets s count).map slot := by
    have := zipIdx_eq_map_idxOf hnodup
    rwa [map_origin_landed] at this
  have hblock := filter_rank_arriving targets s (List.mem_range.1 hr)
  have hsort : ((landed n targets s count).zipIdx.filter fun x => x.1.rank = r).mergeSort
      (fun a b => decide (a.1.turn ≤ b.1.turn)) =
        ((arriving n targets s).filter fun a => a.rank = r).map slot := by
    refine mergeSort_key_eq_of_perm ?_ ?_
    · rw [hzip, List.filter_map]
      exact ((perm_flatMap_filter List.nodup_range fun a ha =>
        List.mem_range.2 (h a ha)).symm.filter _).map _
    · rw [hblock, List.map_map, List.pairwise_map]
      exact pairwise_zipIdx _ 0
  rw [hsort, hblock, List.map_map, List.map_map]
  have := List.zipIdx_map_fst 0 (bound (targets r) s)
  conv_rhs => rw [← this, List.map_map]
  rfl

/-! ## The plan -/

theorem checkTargets_eq_ok (h : Sound n targets roots) {r : Nat} (hr : r < n) :
    checkTargets n (targets r) = .ok () := by
  rw [checkTargets, List.find?_eq_none.2 fun p hp => by simpa using h.rank_lt r hr p hp]

theorem root_lt_of_mem_arriving (h : Sound n targets roots) {a : Arrival}
    (ha : a ∈ arriving n targets s) : a.root < roots s := by
  obtain ⟨hr, hp⟩ := mem_arriving ha
  exact h.index_lt _ hr _ (List.mem_of_getElem? hp)

theorem checkRoots_eq_ok (h : Sound n targets roots) (rank : Nat) :
    checkRoots rank (roots s) (arriving n targets s) = .ok () := by
  rw [checkRoots, List.find?_eq_none.2 fun a ha => by simpa using root_lt_of_mem_arriving h ha]

/-- The slots at which the items of a rank landed. -/
def slots (n : Nat) (targets : Nat → List Place) (roots : Nat → Nat) (r : Nat) : List UInt64 :=
  (targets r).zipIdx.map fun x =>
    UInt64.ofNat ((copies n targets x.1.rank (roots x.1.rank)).idxOf ⟨r, x.2⟩)

theorem draw_slots (h : Sound n targets roots) {r : Nat} (hr : r < n) :
    draw ((targets r).map Place.rank) ((List.range n).map fun s =>
      (bound (targets r) s).map fun x =>
        UInt64.ofNat ((copies n targets s (roots s)).idxOf ⟨r, x.2⟩)) =
          .ok (slots n targets roots r) := by
  refine draw_eq_ok (by simp [slots]) fun s hs => ?_
  obtain ⟨p, hp, rfl⟩ := List.mem_map.1 hs
  have hzip : ((targets r).map Place.rank).zip (slots n targets roots r) =
      (targets r).zipIdx.map fun x => (x.1.rank,
        UInt64.ofNat ((copies n targets x.1.rank (roots x.1.rank)).idxOf ⟨r, x.2⟩)) := by
    rw [List.zip, slots, List.zipWith_map_left, zipWith_map_zipIdx]
  rw [hzip, List.filter_map, List.map_map]
  simp only [List.getD_eq_getElem?_getD, List.getElem?_map,
    List.getElem?_range (h.rank_lt r hr p hp), Option.map_some, Option.getD_some, bound]
  refine List.map_congr_left fun x hx => ?_
  have hx : x.1.rank = p.rank := by simpa using (List.mem_filter.1 hx).2
  simp [hx]

theorem nearSide_slots (h : Sound n targets roots)
    (hcopies : ∀ r < n, (copies n targets r (roots r)).length < 2 ^ 64) {r : Nat} (hr : r < n) :
    nearSide (targets r) (slots n targets roots r) = (planned n targets roots r).near := by
  rw [nearSide, slots, zipWith_map_zipIdx, planned, Side.mk.injEq]
  refine ⟨List.map_congr_left fun x hx => ?_, rfl⟩
  obtain ⟨hi, hp⟩ := List.getElem?_eq_some_iff.1 (List.mem_zipIdx_iff_getElem?.1 hx)
  have hmem : x.1 ∈ targets r := hp ▸ List.getElem_mem hi
  have hcopy : (⟨r, x.2⟩ : Place) ∈ copies n targets x.1.rank (roots x.1.rank) :=
    mem_copies.2 ⟨hr, _, h.index_lt r hr _ hmem, List.mem_zipIdx_iff_getElem?.1 hx⟩
  rw [toNat_ofNat_word ((List.idxOf_lt_length_of_mem hcopy).trans
    (hcopies _ (h.rank_lt r hr _ hmem)))]

/-- As many items arrive as there are copies, if all of them name roots. -/
theorem length_arriving (h : Sound n targets roots) (s : Nat) :
    (arriving n targets s).length = (copies n targets s (roots s)).length := by
  rw [← map_origin_landed, List.length_map, ← mergeSort_arriving fun a ha =>
    root_lt_of_mem_arriving h ha, (List.mergeSort_perm _ _).length_eq]

variable {κ : Type} [Alphabet κ]

/-- The first part of a plan: the items announce themselves to the ranks of their roots. -/
def announceAll (seat : Seat) (targets : List Place) : Proc κ (List Arrival) := do
  allPass seat .routeRanks (checkTargets seat.size targets)
  let announced ← swap seat (Group.all seat) setupTag (announcements seat.size targets)
  return arrivals announced

/-- The second part: a rank makes sure that it has room for what arrives, and that the roots
    are there. -/
def accept (seat : Seat) (roots : Nat) (arrived : List Arrival) : Proc κ Unit := do
  Proc.ofChecked (checkRoom arrived.length 32)
  allPass seat .routeRoots (checkRoots seat.rank roots arrived)

/-- The third part: the items are told where they landed. -/
def land (seat : Seat) (roots : Nat) (arrived : List Arrival) : Proc κ (List (List UInt64)) := do
  Proc.ofChecked (checkRoom roots 8)
  swap seat (Group.all seat) landingTag (landings seat.size (arrived.mergeSort Arrival.le))

/-- The last part: the sides of the items and of the copies make a route. -/
def join (size : Nat) (targets : List Place) (roots : Nat) (arrived : List Arrival)
    (told : List (List UInt64)) : Checked Route := do
  checkRoom targets.length 24
  let slots ← draw (targets.map Place.rank) told
  checkRoom (roots + 1) 8
  let route : Route := ⟨nearSide targets slots, farSide roots (arrived.mergeSort Arrival.le)⟩
  route.near.check size
  route.far.check size
  return route

theorem plan_eq (seat : Seat) (targets : List Place) (roots : Nat) :
    (plan seat targets roots : Proc κ Route) =
      announceAll seat targets >>= fun arrived => accept seat roots arrived >>= fun _ =>
        land seat roots arrived >>= fun told =>
          Proc.ofChecked (join seat.size targets roots arrived told) := by
  simp only [plan, announceAll, accept, land, join, bind_assoc, pure_bind, Proc.ofChecked_bind]
  rfl

/-- A rank that cannot count its roots stops once all ranks have accepted what arrives. -/
theorem land_of_noRoom (seat : Seat) {roots : Nat} (hroom : 2 ^ 63 ≤ roots * 8)
    (arrived : List Arrival) :
    land (κ := κ) seat roots arrived = Proc.ofChecked (.error (.breach .noRoom)) := by
  rw [land, checkRoom_eq_error hroom]
  rfl

variable [LawfulAlphabet κ]

/-- Every rank learns which items name its roots, if all targets are on ranks that are there. -/
theorem announceAll_together (hrank : ∀ r < n, ∀ p ∈ targets r, p.rank < n)
    (hindex : ∀ r < n, ∀ p ∈ targets r, p.index < 2 ^ 64)
    (hlength : ∀ r < n, (targets r).length < 2 ^ 64) :
    Together n (List.range n)
      (fun r => (announceAll (Seat.of r n) (targets r) : Proc κ _).toProgram)
      (fun r => .ok (arriving n targets r)) := by
  have hwords : Sound n targets fun _ => 2 ^ 64 := ⟨hrank, hindex⟩
  simp only [announceAll, announcements_eq, Seat.size_of]
  refine Together.allPassThen (fun r hr => checkTargets_eq_ok hwords hr) ?_
  refine Together.andThen (swapAll_together _ fun r hr s _ =>
    (List.length_map _).trans_lt (length_bound_lt (hlength r hr) s)) ?_
  simp only [arrivals_announcements hindex hlength]
  exact Together.done _

/-- The ranks accept what arrives, if there is room for it and the roots are there. -/
theorem accept_together (h : Sound n targets roots)
    (harrivals : ∀ r < n, (arriving n targets r).length * 32 < 2 ^ 63) :
    Together n (List.range n)
      (fun r => (accept (Seat.of r n) (roots r) (arriving n targets r) : Proc κ _).toProgram)
      (fun _ => .ok ()) := by
  refine Together.ofCheckedThen (fun r hr =>
    checkRoom_eq_ok (harrivals r (List.mem_range.1 hr))) ?_
  exact (allPass_together .routeRoots _).congr (fun _ _ => rfl) fun r hr =>
    agreed_ok (fun r _ => checkRoots_eq_ok h r) (List.mem_range.1 hr)

/-- If the roots can be counted, every item is told where it landed. -/
theorem land_together (h : Sound n targets roots) (hrooms : ∀ r < n, roots r * 8 < 2 ^ 63)
    (hlength : ∀ r < n, (targets r).length < 2 ^ 64) :
    Together n (List.range n)
      (fun r => (land (Seat.of r n) (roots r) (arriving n targets r) : Proc κ _).toProgram)
      (fun r => .ok ((List.range n).map fun s => (bound (targets r) s).map fun x =>
        UInt64.ofNat ((copies n targets s (roots s)).idxOf ⟨r, x.2⟩))) := by
  have hroot : ∀ s, ∀ a ∈ arriving n targets s, a.root < roots s := fun s _ ha =>
    root_lt_of_mem_arriving h ha
  simp only [land, mergeSort_arriving (hroot _), Seat.size_of, landings_landed (hroot _)]
  refine Together.ofCheckedThen (fun r hr =>
    checkRoom_eq_ok (hrooms r (List.mem_range.1 hr))) ?_
  exact swapAll_together (fun s r => (bound (targets r) s).map _)
    fun s _ r hr => (List.length_map _).trans_lt (length_bound_lt (hlength r hr) s)

/-- The sides that a rank joins are those that the targets describe. -/
theorem join_eq_ok (h : Sound n targets roots) (hfits : Fits n targets roots) {r : Nat}
    (hr : r < n) :
    join n (targets r) (roots r) (arriving n targets r) ((List.range n).map fun s =>
      (bound (targets r) s).map fun x =>
        UInt64.ofNat ((copies n targets s (roots s)).idxOf ⟨r, x.2⟩)) =
          .ok (planned n targets roots r) := by
  have hnear := nearSide_slots h (fun _ => hfits.copies_lt) hr
  have hfar : farSide (roots r) ((arriving n targets r).mergeSort Arrival.le) =
      (planned n targets roots r).far := by
    rw [mergeSort_arriving fun a ha => root_lt_of_mem_arriving h ha, farSide_landed]
  rw [join, bind_of_ok (checkRoom_eq_ok (hfits.items_room r hr)), bind_of_ok (draw_slots h hr),
    bind_of_ok (checkRoom_eq_ok (hfits.roots_room r hr)), hnear, hfar,
    bind_of_ok (checkNear_planned h hr), bind_of_ok (checkFar_planned h hr)]
  rfl

/-- The ranks plan the route that their targets describe. -/
theorem plan_together (h : Sound n targets roots) (hfits : Fits n targets roots) :
    Together n (List.range n)
      (fun r => (plan (Seat.of r n) (targets r) (roots r) : Proc κ Route).toProgram)
      (fun r => .ok (planned n targets roots r)) := by
  have hindex : ∀ r < n, ∀ p ∈ targets r, p.index < 2 ^ 64 := by
    intro r hr p hp
    have := h.index_lt r hr p hp
    have := hfits.roots_lt (h.rank_lt r hr p hp)
    omega
  simp only [plan_eq]
  refine (announceAll_together h.rank_lt hindex fun _ => hfits.items_lt).andThen ?_
  refine (accept_together h fun r hr => length_arriving h r ▸ hfits.copies_room r hr).andThen ?_
  refine (land_together h (fun _ => hfits.roots_lt) fun _ => hfits.items_lt).andThen ?_
  exact (Together.ofChecked _).congr (fun _ _ => rfl) fun r hr =>
    join_eq_ok h hfits (List.mem_range.1 hr)

/-- Ranks that hold more roots than can be counted stop, all of them. -/
theorem plan_together_noRoom (h : Sound n targets roots) (hroots : ∀ r < n, roots r < 2 ^ 64)
    (hlength : ∀ r < n, (targets r).length < 2 ^ 64)
    (harrivals : ∀ r < n, (arriving n targets r).length * 32 < 2 ^ 63)
    (hroom : ∀ r < n, 2 ^ 63 ≤ roots r * 8) :
    Together n (List.range n)
      (fun r => (plan (Seat.of r n) (targets r) (roots r) : Proc κ Route).toProgram)
      (fun _ => .error (.breach .noRoom)) := by
  have hindex : ∀ r < n, ∀ p ∈ targets r, p.index < 2 ^ 64 := fun r hr p hp =>
    (h.index_lt r hr p hp).trans (hroots _ (h.rank_lt r hr p hp))
  simp only [plan_eq]
  refine (announceAll_together h.rank_lt hindex hlength).andThen ?_
  refine (accept_together h harrivals).andThen (Together.orFail ?_)
  exact (Together.done _).congr (fun r hr => by
    rw [land_of_noRoom _ (hroom r (List.mem_range.1 hr))]
    rfl) fun _ _ => rfl

end Route

end SharedMesh
