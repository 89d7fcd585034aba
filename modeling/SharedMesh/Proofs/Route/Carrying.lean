import SharedMesh.Proofs.Route.Planning
import SharedMesh.Route.Carry

/-!
# Carrying delivers

Along the routes of a world, whose two sides are linked to each other (`Paired`), every copy
gets the record of the item it stands for (`carry_together`). Carried back, the records
are where they were (`delivered_reverse`).

The items of one rank with counterparts on another lie in two orders, that of the items and
that of the counterparts. The sender sorts by counterparts, and these are just the slots
of the receiver in order (`bundles_eq`).
-/

namespace SharedMesh.Route

variable {κ T : Type} {n : Nat} {routes : Nat → Route}

/-- The records that arrive at a rank: for each copy the one of its item. -/
def delivered (routes : Nat → Route) (items : Nat → List (List T)) (r : Nat) : List (List T) :=
  (routes r).far.links.map fun l => (items l.rank).getD l.slot []

/-- The records that a rank sends to another one. -/
def sending (routes : Nat → Route) (items : Nat → List (List T)) (r s : Nat) : List (List T) :=
  ((routes s).far.links.filter fun l => l.rank = r).map fun l => (items l.rank).getD l.slot []

/-- Every item on one side of the routes has a record of `width` values. -/
def Records (n : Nat) (sides : Nat → Side) (width : Nat) (items : Nat → List (List T)) : Prop :=
  ∀ r < n, (items r).length = (sides r).itemCount ∧ ∀ record ∈ items r, record.length = width

/-! ## One pair of ranks -/

/-- The counterparts that a rank sees on another rank, in the order in which that rank has
    them, are those that the other rank sees. -/
theorem pairwise_slots {sides others : Nat → Side} (h : Meets n sides others) {r s : Nat}
    (hr : r < n) :
    ((sides r).links.filter fun l => l.rank = s).Pairwise fun a b =>
      ((others s).links.getD a.slot default).slot <
        ((others s).links.getD b.slot default).slot := by
  rw [← map_fst_filter_zipIdx (fun l : Link => decide (l.rank = s)) _ 0, List.pairwise_map]
  refine ((pairwise_zipIdx _ 0).filter _).imp_of_mem fun {x y} hx hy hxy => ?_
  have hslot : ∀ x ∈ (sides r).links.zipIdx.filter fun x => decide (x.1.rank = s),
      ((others s).links.getD x.1.slot default).slot = x.2 := by
    intro x hx
    obtain ⟨hx, hs⟩ := List.mem_filter.1 hx
    obtain ⟨_, l, hl, _, hslot⟩ := h r hr _ _ (List.mem_zipIdx_iff_getElem?.1 hx)
    rw [decide_eq_true_eq] at hs
    rw [hs] at hl
    rw [List.getD_eq_getElem?_getD, hl]
    exact hslot
  rwa [hslot x hx, hslot y hy]

/-- The slots that the copies from a rank name are the numbers of its items that go there. -/
theorem perm_slots (h : Paired n routes) {r s : Nat} (hr : r < n) (hs : s < n) :
    (((routes s).far.links.filter fun l => l.rank = r).map Link.slot).Perm
      ((List.range (routes r).near.itemCount).filter fun i =>
        ((routes r).near.links.getD i default).rank = s) := by
  refine (List.perm_ext_iff_of_nodup ?_ (List.nodup_range.filter _)).2 fun i => ?_
  · have := pairwise_slots (s := r) h.2 hs
    rw [List.Nodup, List.pairwise_map]
    exact this.imp fun {a b} hlt (heq : a.slot = b.slot) => Nat.ne_of_lt hlt (by rw [heq])
  · simp only [List.mem_map, List.mem_filter, decide_eq_true_eq, List.mem_range, Side.itemCount]
    constructor
    · rintro ⟨l, ⟨hl, rfl⟩, rfl⟩
      obtain ⟨j, hj⟩ := List.mem_iff_getElem?.1 hl
      obtain ⟨_, l', hl', hrank, _⟩ := h.2 s hs j l hj
      refine ⟨(List.getElem?_eq_some_iff.1 hl').1, ?_⟩
      rw [List.getD_eq_getElem?_getD, hl']
      exact hrank
    · rintro ⟨hi, hrank⟩
      have hl := List.getElem?_eq_getElem hi
      obtain ⟨_, l', hl', hr', hslot⟩ := h.1 r hr i _ hl
      rw [List.getD_eq_getElem?_getD, hl, Option.getD_some] at hrank
      rw [hrank] at hl'
      exact ⟨l', ⟨List.mem_of_getElem? hl', hr'⟩, hslot⟩

/-- The records for a rank are bundled in the order of the copies there. -/
theorem bundles_eq (h : Paired n routes) {r : Nat} (hr : r < n) {items : Nat → List (List T)}
    (hitems : (items r).length = (routes r).near.itemCount) :
    (routes r).near.bundles n (items r) = (List.range n).map fun s =>
      sending routes items r s := by
  refine List.map_congr_left fun s hs => ?_
  have hs : s < n := List.mem_range.1 hs
  -- an item with its link, by the number of the item
  let item : Nat → Link × List T := fun i =>
    ((routes r).near.links.getD i default, (items r).getD i [])
  have hzip : (routes r).near.links.zip (items r) =
      (List.range (routes r).near.itemCount).map item := by
    refine List.ext_getElem (by simp [Side.itemCount, hitems]) fun i hi _ => ?_
    have hi : i < (routes r).near.links.length ∧ i < (items r).length := by simpa using hi
    simp [item, hi.1, hi.2]
  have hsort : (((routes r).near.links.zip (items r)).filter fun x => x.1.rank = s).mergeSort
      (fun a b => decide (a.1.slot ≤ b.1.slot)) =
        (((routes s).far.links.filter fun l => l.rank = r).map Link.slot).map item := by
    refine mergeSort_key_eq_of_perm ?_ ?_
    · rw [hzip, List.filter_map]
      exact (perm_slots h hr hs).symm.map item
    · rw [List.map_map, List.pairwise_map]
      exact pairwise_slots (s := r) h.2 hs
  rw [hsort, List.map_map, List.map_map]
  refine List.map_congr_left fun l hl => ?_
  have : l.rank = r := by simpa using (List.mem_filter.1 hl).2
  simp [item, this]

/-! ## All ranks -/

/-- The records of all items, and of all copies, can be held on their ranks. -/
def HasRoom (κ T : Type) [Layout κ T] (n : Nat) (routes : Nat → Route) (width : Nat) : Prop :=
  ∀ r < n, (routes r).near.itemCount * width * Layout.size κ T < 2 ^ 63 ∧
    (routes r).far.itemCount * width * Layout.size κ T < 2 ^ 63

theorem HasRoom.reverse [Layout κ T] {width : Nat} (h : HasRoom κ T n routes width) :
    HasRoom κ T n (fun r => (routes r).reverse) width :=
  fun r hr => (h r hr).symm

/-- A copy stands for an item that is there. -/
theorem slot_lt (h : Paired n routes) {r : Nat} (hr : r < n) {l : Link}
    (hl : l ∈ (routes r).far.links) : l.rank < n ∧ l.slot < (routes l.rank).near.itemCount := by
  obtain ⟨j, hj⟩ := List.mem_iff_getElem?.1 hl
  obtain ⟨hrank, l', hl', _, _⟩ := h.2 r hr j l hj
  exact ⟨hrank, (List.getElem?_eq_some_iff.1 hl').1⟩

theorem getD_mem_of_far {β : Type} (h : Paired n routes) {items : Nat → List β}
    (hitems : ∀ r < n, (items r).length = (routes r).near.itemCount) {r : Nat} (hr : r < n)
    {l : Link} (hl : l ∈ (routes r).far.links) (fallback : β) :
    (items l.rank).getD l.slot fallback ∈ items l.rank := by
  obtain ⟨hrank, hslot⟩ := slot_lt h hr hl
  rw [← hitems _ hrank] at hslot
  rw [List.getD_eq_getElem?_getD, List.getElem?_eq_getElem hslot]
  exact List.getElem_mem hslot

/-- Every copy gets a record of the same width. -/
theorem records_delivered (h : Paired n routes) {width : Nat} {items : Nat → List (List T)}
    (hitems : Records n (fun r => (routes r).near) width items) :
    Records n (fun r => (routes r).far) width (delivered routes items) := by
  refine fun r hr => ⟨by simp [delivered, Side.itemCount], fun record hrecord => ?_⟩
  obtain ⟨l, hl, rfl⟩ := List.mem_map.1 hrecord
  exact (hitems _ (slot_lt h hr hl).1).2 _
    (getD_mem_of_far h (fun r hr => (hitems r hr).1) hr hl [])

/-- Records that are carried there and back are where they were. -/
theorem delivered_reverse (h : Paired n routes) {width : Nat} {items : Nat → List (List T)}
    (hitems : Records n (fun r => (routes r).near) width items) {r : Nat} (hr : r < n) :
    delivered (fun r => (routes r).reverse) (delivered routes items) r = items r := by
  refine List.ext_getElem (by simpa [delivered, reverse, Side.itemCount] using (hitems r hr).1.symm)
    fun i hi hi' => ?_
  have hi : i < (routes r).near.links.length := by simpa [delivered, reverse] using hi
  obtain ⟨_, l', hl', hrank, hslot⟩ := h.1 r hr i _ (List.getElem?_eq_getElem hi)
  subst hrank hslot
  simp [delivered, reverse, hl', hi']

theorem length_of_mem_sending (h : Paired n routes) {width : Nat} {items : Nat → List (List T)}
    (hitems : Records n (fun r => (routes r).near) width items) {r s : Nat} (hs : s < n) :
    ∀ record ∈ sending routes items r s, record.length = width := by
  intro record hrecord
  obtain ⟨l, hl, rfl⟩ := List.mem_map.1 hrecord
  exact (records_delivered h hitems s hs).2 _
    (List.mem_map.2 ⟨l, (List.mem_filter.1 hl).1, rfl⟩)

theorem checkReceived_sending (h : Paired n routes) {width : Nat} {items : Nat → List (List T)}
    (hitems : Records n (fun r => (routes r).near) width items) {s : Nat} (hs : s < n) :
    checkReceived (routes s).far width
      ((List.range n).map fun r => (sending routes items r s).flatten) = .ok () := by
  refine forM_eq_ok fun x hx => ?_
  rw [zipIdx_map_range] at hx
  obtain ⟨r, _, rfl⟩ := List.mem_map.1 hx
  refine if_neg (not_not_intro ?_)
  rw [length_flatten_of_width (length_of_mem_sending h hitems hs), sending, List.length_map,
    List.countP_eq_length_filter]

/-- The records are drawn in the order of the copies. -/
theorem draw_sending (h : Paired n routes) {width : Nat} (hw : 0 < width)
    {items : Nat → List (List T)} (hitems : Records n (fun r => (routes r).near) width items)
    {s : Nat} (hs : s < n) :
    draw ((routes s).far.links.map Link.rank)
      (((List.range n).map fun r => (sending routes items r s).flatten).map (rows width)) =
        .ok (delivered routes items s) := by
  refine draw_eq_ok (by simp [delivered]) fun r hr => ?_
  obtain ⟨l, hl, rfl⟩ := List.mem_map.1 hr
  have hrank : l.rank < n := (slot_lt h hs hl).1
  rw [delivered, List.zip, List.zipWith_map, List.zipWith_self, List.filter_map, List.map_map]
  simp only [List.getD_eq_getElem?_getD, List.getElem?_map, List.getElem?_range hrank,
    Option.map_some, Option.getD_some, Function.comp_apply]
  rw [rows_flatten hw (length_of_mem_sending h hitems hs)]
  simp [sending, Function.comp_def]

/-- A rank sends its records for each rank in the order of the copies there. -/
theorem bundles_flatten (h : Paired n routes) {width : Nat} (hw : 0 < width)
    {items : Nat → List (List T)} (hitems : Records n (fun r => (routes r).near) width items)
    {r : Nat} (hr : r < n) :
    ((routes r).near.bundles n (rows width (items r).flatten)).map List.flatten =
      (List.range n).map fun s => (sending routes items r s).flatten := by
  rw [rows_flatten hw (hitems r hr).2, bundles_eq h hr (hitems r hr).1, List.map_map]
  rfl

section

variable [Layout κ T] [LawfulLayout κ T] {width : Nat} (hroom : HasRoom κ T n routes width)

include hroom

theorem HasRoom.near_lt {r : Nat} (hr : r < n) : (routes r).near.itemCount * width < 2 ^ 64 := by
  have hle := Nat.le_mul_of_pos_right ((routes r).near.itemCount * width)
    (LawfulLayout.size_pos (κ := κ) (T := T))
  have := (hroom r hr).1
  omega

theorem HasRoom.far_lt {r : Nat} (hr : r < n) : (routes r).far.itemCount * width < 2 ^ 64 := by
  have hle := Nat.le_mul_of_pos_right ((routes r).far.itemCount * width)
    (LawfulLayout.size_pos (κ := κ) (T := T))
  have := (hroom r hr).2
  omega

/-- What a rank sends to another can be announced in a word. -/
theorem HasRoom.sending_lt (h : Paired n routes) {items : Nat → List (List T)}
    (hitems : Records n (fun r => (routes r).near) width items) (r : Nat) {s : Nat} (hs : s < n) :
    (sending routes items r s).flatten.length < 2 ^ 64 := by
  rw [length_flatten_of_width (length_of_mem_sending h hitems hs), sending, List.length_map]
  exact Nat.lt_of_le_of_lt (Nat.mul_le_mul_right _ (List.length_filter_le _ _)) (hroom.far_lt hs)

end

variable [Alphabet κ] [LawfulAlphabet κ]

/-- The ranks carry a record from every item to its copy. -/
theorem carry_together [Layout κ T] [LawfulLayout κ T] (h : Paired n routes) {width : Nat}
    (hw : 0 < width) (hroom : HasRoom κ T n routes width) {items : Nat → List (List T)}
    (hitems : Records n (fun r => (routes r).near) width items) :
    Together n (List.range n)
      (fun r => (carry (routes r) (Seat.of r n) width (items r).flatten : Proc κ _).toProgram)
      (fun r => .ok (delivered routes items r).flatten) := by
  have hlength : ∀ r ∈ List.range n, (items r).flatten.length = (routes r).near.itemCount * width :=
    fun r hr => by
      have := hitems r (List.mem_range.1 hr)
      rw [length_flatten_of_width this.2, this.1]
  simp only [carry, if_neg (Nat.ne_of_gt hw), Seat.size_of]
  refine Together.ofCheckedThen (fun r hr =>
    word_eq_ok (hroom.near_lt (List.mem_range.1 hr))) ?_
  refine Together.congr ?_ (fun r hr => congrArg Proc.toProgram
    (if_neg (not_not_intro (hlength r hr))).symm) fun _ _ => rfl
  refine Together.andThen ((swapAll_together _ fun r _ s hs =>
    hroom.sending_lt h hitems r hs).congr
      (fun r hr => by rw [bundles_flatten h hw hitems (List.mem_range.1 hr)]) fun _ _ => rfl) ?_
  refine Together.ofCheckedThen (fun r hr =>
    checkRoom_eq_ok (hroom r (List.mem_range.1 hr)).2) ?_
  refine Together.ofCheckedThen (a := fun _ => ()) (fun r hr =>
    checkReceived_sending h hitems (List.mem_range.1 hr)) ?_
  exact Together.ofCheckedThen (a := delivered routes items) (fun r hr =>
    draw_sending h hw hitems (List.mem_range.1 hr)) (Together.done _)

/-! ## Numbers and places -/

theorem delivered_map {β : Type} (f : T → β) (items : Nat → List (List T)) (r : Nat) :
    delivered routes (fun r => (items r).map (List.map f)) r =
      (delivered routes items r).map (List.map f) := by
  rw [delivered, delivered, List.map_map]
  refine List.map_congr_left fun l _ => ?_
  cases h : (items l.rank)[l.slot]? <;> simp [h]

/-- The ranks carry words from every item to its copy. -/
theorem carryNumbers_together (h : Paired n routes) {width : Nat} (hw : 0 < width)
    (hroom : HasRoom κ UInt64 n routes width) {items : Nat → List (List Nat)}
    (hitems : Records n (fun r => (routes r).near) width items)
    (hword : ∀ r < n, ∀ record ∈ items r, ∀ g ∈ record, g < 2 ^ 64) :
    Together n (List.range n)
      (fun r => (carryNumbers (routes r) (Seat.of r n) width (items r).flatten :
        Proc κ (List Nat)).toProgram)
      (fun r => .ok (delivered routes items r).flatten) := by
  have hwords : Records n (fun r => (routes r).near) width
      fun r => (items r).map (List.map UInt64.ofNat) := by
    refine fun r hr => ⟨(List.length_map _).trans (hitems r hr).1, fun words hwords => ?_⟩
    obtain ⟨record, hrecord, rfl⟩ := List.mem_map.1 hwords
    exact (List.length_map _).trans ((hitems r hr).2 record hrecord)
  have hcarry := carry_together h hw hroom hwords
  simp only [delivered_map, ← List.map_flatten] at hcarry
  refine hcarry.mapOk (g := fun _ words => words.map UInt64.toNat) |>.congr (fun _ _ => rfl)
    fun r hr => congrArg Except.ok (map_toNat_map_ofNat fun g hg => ?_)
  obtain ⟨record, hrecord, hg⟩ := List.mem_flatten.1 hg
  obtain ⟨l, hl, rfl⟩ := List.mem_map.1 hrecord
  have hr := List.mem_range.1 hr
  exact hword l.rank (slot_lt h hr hl).1 _
    (getD_mem_of_far h (fun r hr => (hitems r hr).1) hr hl []) g hg

/-- Records of one value, one after the other. -/
theorem flatten_singletons {α β : Type} (f : α → β) (xs : List α) :
    (xs.map fun x => [f x]).flatten = xs.map f := by
  rw [← List.flatMap_def, List.map_eq_flatMap]

/-- The ranks carry a place from every item to its copy, as far as sixteen bytes can tell
    places apart. -/
theorem carryCoded_together (h : Paired n routes) (hroom : HasRoom κ PlaceRecord n routes 1)
    {places : Nat → List Place}
    (hlength : ∀ r < n, (places r).length = (routes r).near.itemCount) :
    Together n (List.range n)
      (fun r => (carryPlaces (routes r) (Seat.of r n) (places r) : Proc κ (List Place)).toProgram)
      (fun r => .ok ((routes r).far.links.map fun l =>
        (PlaceRecord.ofPlace ((places l.rank).getD l.slot default)).toPlace)) := by
  have hitems : Records n (fun r => (routes r).near) 1
      fun r => (places r).map fun p => [PlaceRecord.ofPlace p] := by
    refine fun r hr => ⟨(List.length_map _).trans (hlength r hr), fun record hrecord => ?_⟩
    obtain ⟨p, _, rfl⟩ := List.mem_map.1 hrecord
    rfl
  have hcarry := carry_together h Nat.one_pos hroom hitems
  have hdelivered : ∀ r < n, delivered routes
      (fun r => (places r).map fun p => [PlaceRecord.ofPlace p]) r =
        ((routes r).far.links.map fun l => (places l.rank).getD l.slot default).map
          fun p => [PlaceRecord.ofPlace p] := by
    intro r hr
    rw [delivered, List.map_map]
    refine List.map_congr_left fun l hl => ?_
    obtain ⟨hrank, hslot⟩ := slot_lt h hr hl
    rw [← hlength _ hrank] at hslot
    simp [hslot]
  simp only [flatten_singletons] at hcarry
  refine hcarry.mapOk (g := fun _ words => words.map PlaceRecord.toPlace) |>.congr (fun _ _ => rfl)
    fun r hr => congrArg Except.ok ?_
  rw [hdelivered r (List.mem_range.1 hr), flatten_singletons, List.map_map, List.map_map]
  rfl

/-- The ranks carry a place from every item to its copy. -/
theorem carryPlaces_together (h : Paired n routes) (hroom : HasRoom κ PlaceRecord n routes 1)
    {places : Nat → List Place} (hlength : ∀ r < n, (places r).length = (routes r).near.itemCount)
    (hplace : ∀ r < n, ∀ p ∈ places r, p.rank < 2 ^ 32 ∧ p.index < 2 ^ 64) :
    Together n (List.range n)
      (fun r => (carryPlaces (routes r) (Seat.of r n) (places r) : Proc κ (List Place)).toProgram)
      (fun r => .ok ((routes r).far.links.map fun l => (places l.rank).getD l.slot default)) := by
  refine (carryCoded_together h hroom hlength).congr (fun _ _ => rfl) fun r hr =>
    congrArg Except.ok (List.map_congr_left fun l hl => ?_)
  have hp := hplace l.rank (slot_lt h (List.mem_range.1 hr) hl).1 _
    (getD_mem_of_far h hlength (List.mem_range.1 hr) hl default)
  exact PlaceRecord.toPlace_ofPlace hp.1 hp.2

end SharedMesh.Route
