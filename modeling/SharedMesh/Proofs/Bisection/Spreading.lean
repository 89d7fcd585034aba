import SharedMesh.Bisection.Spread
import SharedMesh.Proofs.Collective.InStep
import SharedMesh.Proofs.Ownership.Numbering
import SharedMesh.Proofs.Shares

/-!
# Spreading is a rearrangement

Whichever points lie above the plane, every point of the group gets a slot of its own
(`slotOf`): points on one side are numbered through the group, and the numbers are dealt out
to the half of that side. Together the slots are as many on each rank as it is told to
expect (`bijOn_slotOf`), and the members find out with two scans (`spreadHalves_inStep`).
-/

namespace SharedMesh

variable {κ : Type} {n : Nat} {g : Group} {above : Nat → List Bool} {side : Bool}

/-! ## Halves -/

namespace Group

/-- The half on a side of the plane. The second half is above. -/
def half (g : Group) : Bool → Group
  | false => g.low
  | true => g.high

/-- The side that a rank gets points from. -/
def sideOf (g : Group) (rank : Nat) : Bool := !g.low.contains rank

theorem halfOf_eq (g : Group) (rank : Nat) : g.halfOf rank = g.half (g.sideOf rank) := by
  rw [halfOf, sideOf]
  cases g.low.contains rank <;> rfl

theorem low_append_high (g : Group) : g.low.ranks ++ g.high.ranks = g.ranks :=
  List.take_append_drop _ _

theorem mem_of_mem_half {rank : Nat} (h : rank ∈ (g.half side).ranks) : rank ∈ g.ranks := by
  cases side with
  | false => exact List.mem_of_mem_take h
  | true => exact List.mem_of_mem_drop h

theorem mem_half_sideOf {rank : Nat} (h : rank ∈ g.ranks) :
    rank ∈ (g.half (g.sideOf rank)).ranks := by
  rw [sideOf]
  cases hlow : g.low.contains rank with
  | true => exact List.contains_iff_mem.1 hlow
  | false =>
    rw [← low_append_high, List.mem_append] at h
    exact h.resolve_left fun hmem => by simp [contains, hmem] at hlow

section

variable (hg : g.ranks.Nodup)

include hg

theorem nodup_half (side : Bool) : (g.half side).ranks.Nodup := by
  cases side with
  | false => exact hg.sublist (List.take_sublist _ _)
  | true => exact hg.sublist (List.drop_sublist _ _)

theorem sideOf_of_mem {rank : Nat} (h : rank ∈ (g.half side).ranks) : g.sideOf rank = side := by
  have hdisjoint := (List.nodup_append.1 (g.low_append_high ▸ hg)).2.2
  cases side with
  | false =>
    have hlow : rank ∈ g.low.ranks := h
    simp [sideOf, contains, hlow]
  | true => simpa [sideOf, contains] using fun hlow => hdisjoint _ hlow _ h rfl

end

theorem size_half_pos (h : 1 < g.size) (side : Bool) : 0 < (g.half side).size := by
  have : (g.low.ranks.length = min (g.size / 2) g.size) ∧
      g.high.ranks.length = g.size - g.size / 2 := ⟨List.length_take, List.length_drop⟩
  cases side with
  | false => simp only [half, size] at *; omega
  | true => simp only [half, size] at *; omega

theorem size_half_le (g : Group) (side : Bool) :
    (g.half side).size ≤ g.size - g.size / 2 := by
  cases side with
  | false => exact (List.length_take_le _ _).trans (by omega)
  | true => exact (List.length_drop).le

end Group

/-! ## Sides -/

/-- Whether the point at a place is above the plane. -/
def aboveAt (above : Nat → List Bool) (p : Place) : Bool := (above p.rank).getD p.index false

/-- The points of a rank on a side. -/
def ownSide (above : Nat → List Bool) (side : Bool) (r : Nat) : List Place :=
  (Place.own r (above r).length).filter fun p => aboveAt above p = side

/-- The points of a group on a side, in the order in which they are numbered. -/
def sideItems (g : Group) (above : Nat → List Bool) (side : Bool) : List Place :=
  g.ranks.flatMap (ownSide above side)

theorem map_aboveAt_own (above : Nat → List Bool) (r : Nat) :
    (Place.own r (above r).length).map (aboveAt above) = above r := by
  refine List.ext_getElem (by simp [Place.own]) fun i hi _ => ?_
  have hi : i < (above r).length := by simpa [Place.own] using hi
  simp [Place.own, aboveAt, hi]

theorem count_above (side : Bool) (r : Nat) :
    (above r).count side = (ownSide above side r).length := by
  conv_lhs => rw [← map_aboveAt_own above r]
  rw [List.count, List.countP_map, List.countP_eq_length_filter, ownSide]
  refine congrArg List.length (List.filter_congr fun p _ => ?_)
  rw [Function.comp_apply, beq_eq_decide]

theorem mem_ownSide {r : Nat} {p : Place} : p ∈ ownSide above side r ↔
    p.rank = r ∧ p.index < (above p.rank).length ∧ aboveAt above p = side := by
  simp only [ownSide, Place.own, List.mem_filter, List.mem_map, List.mem_range, decide_eq_true_eq]
  constructor
  · rintro ⟨⟨i, hi, rfl⟩, hp⟩
    exact ⟨rfl, hi, hp⟩
  · rintro ⟨rfl, hi, hp⟩
    exact ⟨⟨p.index, hi, rfl⟩, hp⟩

theorem mem_sideItems {p : Place} : p ∈ sideItems g above side ↔
    p.rank ∈ g.ranks ∧ p.index < (above p.rank).length ∧ aboveAt above p = side := by
  simp only [sideItems, List.mem_flatMap, mem_ownSide]
  constructor
  · rintro ⟨r, hr, rfl, hp⟩
    exact ⟨hr, hp⟩
  · rintro ⟨hr, hp⟩
    exact ⟨p.rank, hr, rfl, hp⟩

theorem nodup_sideItems (hg : g.ranks.Nodup) (side : Bool) : (sideItems g above side).Nodup := by
  rw [sideItems, List.Nodup, List.pairwise_flatMap]
  refine ⟨fun r _ => (nodup_own _ _).filter _, hg.imp fun hne p hp q hq hpq => hne ?_⟩
  rw [← (mem_ownSide.1 hp).1, ← (mem_ownSide.1 hq).1, hpq]

/-! ## Slots -/

/-- The points on a side, dealt out to its half. -/
def sideShares (g : Group) (above : Nat → List Bool) (side : Bool) : Shares :=
  ⟨(sideItems g above side).length, (g.half side).size⟩

/-- A place among the ranks of a half. -/
def onHalf (half : Group) (p : Place) : Place := ⟨half.ranks.getD p.rank 0, p.index⟩

/-- The slot of the point at a place. -/
def slotOf (g : Group) (above : Nat → List Bool) (p : Place) : Place :=
  let side := aboveAt above p
  onHalf (g.half side) ((sideShares g above side).place ((sideItems g above side).idxOf p))

/-- How many points a rank gets. -/
def slotCount (g : Group) (above : Nat → List Bool) (r : Nat) : Nat :=
  let side := g.sideOf r
  (sideShares g above side).length ((g.half side).ranks.idxOf r)

/-- The slots of shares are numbered rank by rank. -/
theorem Shares.bijOn_place {s : Shares} (hsize : 0 < s.size) :
    Set.BijOn s.place (Set.Iio s.total) (slotSet s.size s.length) := by
  refine ⟨fun g hg => ⟨s.rank_lt_size hsize hg, s.index_lt_length hg⟩,
    fun g _ g' _ h => place_injective h, fun p hp => ?_⟩
  have hle := s.first_add_length_le hp.1
  exact ⟨s.first p.rank + p.index, by have := hp.2; simp only [Set.mem_Iio]; omega,
    place_first_add hp.1 hp.2⟩

/-- The places among the ranks of a half. -/
theorem bijOn_onHalf {half : Group} (h : half.ranks.Nodup) (count : Nat → Nat) :
    Set.BijOn (onHalf half) (slotSet half.size count)
      {q | q.rank ∈ half.ranks ∧ q.index < count (half.ranks.idxOf q.rank)} := by
  have hget : ∀ p ∈ slotSet half.size count, ∃ hp : p.rank < half.ranks.length,
      onHalf half p = ⟨half.ranks[p.rank], p.index⟩ := fun p hp =>
    ⟨hp.1, by
      rw [onHalf, List.getD_eq_getElem?_getD, List.getElem?_eq_getElem hp.1, Option.getD_some]⟩
  refine ⟨fun p hp => ?_, fun p hp q hq hpq => ?_, fun q hq => ?_⟩
  · obtain ⟨hrank, hplace⟩ := hget p hp
    rw [hplace]
    exact ⟨List.getElem_mem hrank, by rw [h.idxOf_getElem _ hrank]; exact hp.2⟩
  · obtain ⟨hprank, hpplace⟩ := hget p hp
    obtain ⟨hqrank, hqplace⟩ := hget q hq
    rw [hpplace, hqplace, Place.mk.injEq, h.getElem_inj_iff] at hpq
    obtain ⟨r, i⟩ := p
    obtain ⟨s, j⟩ := q
    simpa using hpq
  · have hrank := List.idxOf_lt_length_of_mem hq.1
    refine ⟨⟨half.ranks.idxOf q.rank, q.index⟩, ⟨hrank, hq.2⟩, ?_⟩
    rw [onHalf, List.getD_eq_getElem?_getD, List.getElem?_idxOf hq.1, Option.getD_some]

section

variable (above) (hg : g.ranks.Nodup) (hsize : 1 < g.size)

include hg hsize

/-- The points on a side get the slots of its half. -/
theorem bijOn_side (side : Bool) :
    Set.BijOn (slotOf g above) {p | p ∈ sideItems g above side}
      {q | q.rank ∈ (g.half side).ranks ∧ q.index < slotCount g above q.rank} := by
  have hcomp := ((bijOn_onHalf (Group.nodup_half hg side) (sideShares g above side).length).comp
    (Shares.bijOn_place (s := sideShares g above side) (Group.size_half_pos hsize side))).comp
      (bijOn_idxOf (nodup_sideItems hg side))
  have hslots : {q : Place | q.rank ∈ (g.half side).ranks ∧ q.index <
      (sideShares g above side).length ((g.half side).ranks.idxOf q.rank)} =
        {q | q.rank ∈ (g.half side).ranks ∧ q.index < slotCount g above q.rank} :=
    Set.ext fun q => and_congr_right fun hq => by
      simp only [slotCount, Group.sideOf_of_mem hg hq]
  rw [hslots] at hcomp
  refine hcomp.congr fun p hp => ?_
  simp only [slotOf, (mem_sideItems.1 hp).2.2, Function.comp_apply]

/-- Every point of the group gets a slot of its own, and every slot a point. -/
theorem bijOn_slotOf :
    Set.BijOn (slotOf g above) {p | p.rank ∈ g.ranks ∧ p.index < (above p.rank).length}
      {q | q.rank ∈ g.ranks ∧ q.index < slotCount g above q.rank} := by
  have hside : ∀ p ∈ {p : Place | p.rank ∈ g.ranks ∧ p.index < (above p.rank).length},
      p ∈ sideItems g above (aboveAt above p) := fun p hp => mem_sideItems.2 ⟨hp.1, hp.2, rfl⟩
  have hhalf := fun p hp => (bijOn_side above hg hsize (aboveAt above p)).mapsTo (hside p hp)
  refine ⟨fun p hp => ⟨Group.mem_of_mem_half (hhalf p hp).1, (hhalf p hp).2⟩,
    fun p hp q hq hpq => ?_, fun q hq => ?_⟩
  · -- a slot tells the side
    have hsame : aboveAt above p = aboveAt above q := by
      rw [← Group.sideOf_of_mem hg (hhalf p hp).1, ← Group.sideOf_of_mem hg (hhalf q hq).1, hpq]
    have hq := hside q hq
    rw [← hsame] at hq
    exact (bijOn_side above hg hsize _).injOn (hside p hp) hq hpq
  · obtain ⟨p, hp, hpq⟩ := (bijOn_side above hg hsize (g.sideOf q.rank)).surjOn
      ⟨Group.mem_half_sideOf hq.1, hq.2⟩
    obtain ⟨hrank, hindex, _⟩ := mem_sideItems.1 hp
    exact ⟨p, ⟨hrank, hindex⟩, hpq⟩

end

/-! ## All members -/

/-- A point gets the next slot on its side, and only there the one after it is next. -/
theorem slots_cons {slot : Bool → Nat → Checked Place} {next next' : Bool → Nat} {side : Bool}
    {rest : List Bool} {p : Place} {places : List Place}
    (hnext : ∀ s, next' s = next s + if side = s then 1 else 0)
    (hp : slot side (next side) = .ok p)
    (hrest : slots (slot false) (slot true) (next' false) (next' true) rest = .ok places) :
    slots (slot false) (slot true) (next false) (next true) (side :: rest) =
      .ok (p :: places) := by
  rw [hnext, hnext] at hrest
  cases side with
  | false =>
    rw [slots, hp]
    exact bind_of_ok hrest _
  | true =>
    rw [slots, hp]
    exact bind_of_ok hrest _

/-- Points are given the slots of their numbers, which count those on the same side that
    were there before. -/
theorem slots_map {α : Type} [DecidableEq α] {slot : Bool → Nat → Checked Place}
    {slotAt : Bool → Nat → Place} {total : Bool → Nat}
    (hslot : ∀ side, ∀ number < total side, slot side number = .ok (slotAt side number))
    (q : α → Bool) {before : Bool → List α} {items : List α}
    (hnodup : ∀ side, (before side ++ items).Nodup)
    (htotal : ∀ side, (before side ++ items.filter fun x => q x = side).length ≤ total side) :
    slots (slot false) (slot true) (before false).length (before true).length (items.map q) =
      .ok (items.map fun x =>
        slotAt (q x) ((before (q x) ++ items.filter fun y => q y = q x).idxOf x)) := by
  induction items generalizing before with
  | nil => rfl
  | cons x items ih =>
    -- the first point joins those before on its side
    let joined (side : Bool) : List α := before side ++ if q x = side then [x] else []
    have hjoined : ∀ side, before side ++ (x :: items).filter (fun y => q y = side) =
        joined side ++ items.filter fun y => q y = side := by
      intro side
      by_cases hx : q x = side <;> simp [joined, hx]
    have hfresh : x ∉ before (q x) := fun hmem =>
      (List.nodup_append.1 (hnodup (q x))).2.2 x hmem x List.mem_cons_self rfl
    have hnumber : (before (q x) ++ (x :: items).filter fun y => q y = q x).idxOf x =
        (before (q x)).length := by
      simp [List.idxOf_append, hfresh]
    have hlt : (before (q x)).length < total (q x) := by
      have := htotal (q x)
      rw [List.filter_cons_of_pos (by simp), List.length_append, List.length_cons] at this
      omega
    have ih := @ih joined (fun side => ?_) fun side => hjoined side ▸ htotal side
    · have hrest : (items.map fun y => slotAt (q y)
          ((before (q y) ++ (x :: items).filter fun z => q z = q y).idxOf y)) =
          items.map fun y => slotAt (q y)
            ((joined (q y) ++ items.filter fun z => q z = q y).idxOf y) :=
        List.map_congr_left fun y _ => by rw [hjoined]
      have hnext : ∀ side, (joined side).length =
          (before side).length + if q x = side then 1 else 0 := fun side => by
        by_cases hx : q x = side <;> simp [joined, hx]
      rw [List.map_cons, List.map_cons, hnumber, hrest]
      exact slots_cons hnext (hslot _ _ hlt) ih
    · by_cases hx : q x = side
      · simpa [joined, hx] using hnodup side
      · simpa [joined, hx] using (hnodup side).sublist
          (List.Sublist.append_left (List.sublist_cons_self x items) _)

/-- The points of the members before a rank, on a side. -/
def itemsBefore (g : Group) (above : Nat → List Bool) (r : Nat) (side : Bool) : List Place :=
  (g.ranks.takeWhile fun s => decide (s ≠ r)).flatMap (ownSide above side)

/-- The points on a side are counted through the group. -/
theorem sum_count_side (g : Group) (above : Nat → List Bool) (side : Bool) :
    (g.ranks.map fun r => (above r).count side).sum = (sideItems g above side).length := by
  simp only [count_above, sideItems, List.length_flatMap]

theorem sum_count_before (g : Group) (above : Nat → List Bool) (r : Nat) (side : Bool) :
    ((g.ranks.takeWhile fun s => decide (s ≠ r)).map fun s => (above s).count side).sum =
      (itemsBefore g above r side).length := by
  simp only [count_above, itemsBefore, List.length_flatMap]

/-- The points on a side come member by member. -/
theorem sideItems_eq (above : Nat → List Bool) (hg : g.ranks.Nodup) {r : Nat} (hr : r ∈ g.ranks)
    (side : Bool) : ∃ after, sideItems g above side =
      (itemsBefore g above r side ++ ownSide above side r) ++ after := by
  obtain ⟨before, after, hranks⟩ := List.append_of_mem hr
  have hfresh : r ∉ before := fun hmem => by
    rw [hranks] at hg
    exact (List.nodup_append.1 hg).2.2 r hmem r List.mem_cons_self rfl
  refine ⟨after.flatMap (ownSide above side), ?_⟩
  rw [sideItems, itemsBefore, hranks, takeWhile_ne_append hfresh, List.flatMap_append,
    List.flatMap_cons, List.append_assoc]

theorem nodup_itemsBefore (above : Nat → List Bool) (hg : g.ranks.Nodup) (r : Nat) (side : Bool) :
    (itemsBefore g above r side ++ Place.own r (above r).length).Nodup := by
  refine List.nodup_append.2 ⟨?_, nodup_own _ _, fun p hp q hq hpq => ?_⟩
  · exact nodup_sideItems (g := ⟨g.ranks.takeWhile fun s => decide (s ≠ r)⟩)
      (hg.sublist (List.takeWhile_sublist _)) side
  · obtain ⟨s, hs, hp⟩ := List.mem_flatMap.1 hp
    obtain ⟨i, _, rfl⟩ := List.mem_map.1 hq
    have hne := List.all_eq_true.1 List.all_takeWhile s hs
    rw [← (mem_ownSide.1 hp).1, hpq] at hne
    simp at hne

section

variable (hsize : 1 < g.size) (hroom : ∀ side, (sideItems g above side).length + 1 < 2 ^ 64)
  (hg : g.ranks.Nodup) (hn : ∀ r ∈ g.ranks, r < n)

include hsize hroom

theorem slotOn_eq_ok (side : Bool) {number : Nat} (h : number < (sideItems g above side).length) :
    slotOn (g.half side) (sideShares g above side) number =
      .ok (onHalf (g.half side) ((sideShares g above side).place number)) :=
  bind_of_ok (Shares.holder_eq_ok (Group.size_half_pos hsize side) h (hroom side)) _

include hg

/-- The points of a rank get their slots. -/
theorem slots_eq_ok {r : Nat} (hr : r ∈ g.ranks) :
    slots (slotOn g.low (sideShares g above false)) (slotOn g.high (sideShares g above true))
      (itemsBefore g above r false).length (itemsBefore g above r true).length (above r) =
        .ok ((Place.own r (above r).length).map (slotOf g above)) := by
  have hslots := slots_map (fun side _ => slotOn_eq_ok hsize hroom side) (aboveAt above)
    (nodup_itemsBefore above hg r) fun side => ?_
  · rw [map_aboveAt_own] at hslots
    refine hslots.trans (congrArg Except.ok (List.map_congr_left fun p hp => ?_))
    obtain ⟨i, hi, rfl⟩ := List.mem_map.1 hp
    obtain ⟨after, hafter⟩ := sideItems_eq above hg hr (aboveAt above ⟨r, i⟩)
    have hmem : (⟨r, i⟩ : Place) ∈ itemsBefore g above r (aboveAt above ⟨r, i⟩) ++
        ownSide above (aboveAt above ⟨r, i⟩) r :=
      List.mem_append_right _ (mem_ownSide.2 ⟨rfl, List.mem_range.1 hi, rfl⟩)
    simp only [slotOf, hafter, List.idxOf_append_of_mem hmem]
    rfl
  · obtain ⟨after, hafter⟩ := sideItems_eq above hg hr side
    rw [hafter]
    exact (List.prefix_append _ after).length_le

omit hsize in
/-- A rank gets as many points as its share has numbers. -/
theorem incoming_eq_ok {r : Nat} (hr : r ∈ g.ranks) :
    incoming g (sideShares g above false) (sideShares g above true) r =
      .ok (slotCount g above r) := by
  have hcount : ∀ side, r ∈ (g.half side).ranks →
      (sideShares g above side).count ((g.half side).ranks.idxOf r) =
        .ok (slotCount g above r) := by
    intro side hmem
    have := hroom side
    rw [Shares.count_eq_ok (List.idxOf_lt_length_of_mem hmem) (by simp only [sideShares]; omega),
      slotCount, Group.sideOf_of_mem hg hmem]
  have hhalf := Group.mem_half_sideOf hr
  rw [incoming]
  cases hside : g.sideOf r with
  | false =>
    rw [hside] at hhalf
    rw [Group.position?_of_mem (g := g.low) hhalf]
    exact hcount false hhalf
  | true =>
    rw [hside] at hhalf
    have hlow : g.low.position? r = none := List.idxOf?_eq_none_iff.2 fun hmem => by
      have := Group.sideOf_of_mem hg (show r ∈ (g.half false).ranks from hmem)
      simp [hside] at this
    rw [hlow, Group.position?_of_mem (g := g.high) hhalf]
    exact hcount true hhalf

include hn

/-- The members find the slots of their points, and how many points they get, in step. -/
theorem spreadHalves_inStep [Alphabet κ] [LawfulAlphabet κ] :
    InStep n g
      (fun r => (spreadHalves (Seat.of r n) g (above r) : Proc κ (List Place × Nat)).toProgram)
      (fun r =>
        .ok ((Place.own r (above r).length).map (slotOf g above), slotCount g above r))
      [spreadTag, spreadTag] := by
  have hscan : ∀ side, InStep n g
      (fun r => (scanNumbers (Seat.of r n) g spreadTag ((above r).count side) :
        Proc κ (Nat × Nat)).toProgram)
      (fun r => .ok ((itemsBefore g above r side).length, (sideItems g above side).length))
      [spreadTag] := by
    intro side
    have := hroom side
    refine (InStep.scanNumbers hg hn (fun r => (above r).count side)
      (by rw [sum_count_side]; omega)).congr (fun _ _ => rfl) fun r _ => ?_
    rw [sum_count_before, sum_count_side]
  refine (hscan false).callThen ((hscan true).callThen ?_)
  refine InStep.ofCheckedThen (a := fun _ => sideShares g above false) (fun _ _ =>
    if_neg (Group.size_half_pos hsize false).ne') ?_
  refine InStep.ofCheckedThen (a := fun _ => sideShares g above true) (fun _ _ =>
    if_neg (Group.size_half_pos hsize true).ne') ?_
  refine InStep.ofCheckedThen (fun r hr => slots_eq_ok hsize hroom hg hr) ?_
  exact InStep.ofCheckedThen (fun r hr => incoming_eq_ok hroom hg hr) (.done _)

end

end SharedMesh
