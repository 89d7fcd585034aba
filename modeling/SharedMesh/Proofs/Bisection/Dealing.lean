import SharedMesh.Proofs.Bisection.Spreading
import SharedMesh.Proofs.Ownership.References
import SharedMesh.Proofs.Tiling

/-!
# Spreading deals the points out in order

The slots that the members of a group give to their points are more than different: each side
of the plane has a half to itself, and there the points are dealt out evenly, in the order of
the group (`SpreadsEvenly`). This is one argument for both sides. The points on a side come in
order (`pairwise_sideItems`), shares place numbers in order (`Shares.place_before`), and so do
the ranks of a half (`onHalf_before`). What a rank of the half is told to expect is the length of
its share (`map_slotCount`), and shares are even.
-/

namespace SharedMesh

variable {κ : Type} {n : Nat} {g : Group} {above : Nat → List Bool} {side : Bool} {p q : Place}

/-- The points of a group are dealt out by the side that they are on: the point at `p` gets the
    slot `slot p`, and the rank `r` gets `count r` points. -/
structure SpreadsEvenly (g : Group) (above : Nat → List Bool) (slot : Place → Place)
    (count : Nat → Nat) : Prop where
  /-- The points on a side get the slots of the half of that side, each one of its own. -/
  bijOn : ∀ side, Set.BijOn slot {p | p.rank ∈ g.ranks ∧ (above p.rank)[p.index]? = some side}
    {q | q.rank ∈ (g.half side).ranks ∧ q.index < count q.rank}
  count_le_succ : ∀ side, ∀ r ∈ (g.half side).ranks, ∀ s ∈ (g.half side).ranks,
    count r ≤ count s + 1
  sum_count : ∀ side, ((g.half side).ranks.map count).sum =
    (g.ranks.map fun r => (above r).count side).sum
  /-- The points on a side keep their order. -/
  before : ∀ p q : Place, p.rank ∈ g.ranks → q.rank ∈ g.ranks →
    ∀ side, (above p.rank)[p.index]? = some side → (above q.rank)[q.index]? = some side →
      p.Before q → (slot p).Before (slot q)

/-! ## Order -/

theorem Place.idxOf_lt_of_before {places : List Place} (h : places.Pairwise Before)
    (hp : p ∈ places) (hq : q ∈ places) (hpq : p.Before q) : places.idxOf p < places.idxOf q := by
  refine Nat.lt_of_not_le fun hle => ?_
  have hpos := List.idxOf_lt_length_of_mem hp
  rcases Nat.lt_or_eq_of_le hle with hlt | heq
  · have hqp := List.pairwise_iff_getElem.1 h _ _ (List.idxOf_lt_length_of_mem hq) hpos hlt
    simp only [List.getElem_idxOf] at hqp
    exact hpq.asymm hqp
  · rw [List.idxOf_inj hq] at heq
    subst heq
    exact hpq.asymm hpq

/-- Shares place numbers in order. -/
theorem Shares.place_before {s : Shares} {i j : Nat} (hij : i < j) (hj : j < s.total) :
    (s.place i).Before (s.place j) := by
  have hi := s.first_add_index i
  have hj' := s.first_add_index j
  have hindex := s.index_lt_length hj
  rcases Nat.lt_trichotomy (s.place i).rank (s.place j).rank with hlt | heq | hgt
  · exact .inl hlt
  · rw [heq] at hi
    exact .inr ⟨heq, by omega⟩
  · -- a later slice has only later numbers
    have hmono := first_mono (s := s) hgt
    rw [Nat.succ_eq_add_one, first_succ] at hmono
    omega

theorem onHalf_before {half : Group} (h : half.ranks.Pairwise (· < ·)) (hq : q.rank < half.size)
    (hpq : p.Before q) : (onHalf half p).Before (onHalf half q) := by
  rcases hpq with hlt | ⟨heq, hindex⟩
  · refine .inl ?_
    have hp : p.rank < half.ranks.length := hlt.trans hq
    have hq : q.rank < half.ranks.length := hq
    simpa [onHalf, hp, hq] using List.pairwise_iff_getElem.1 h _ _ hp hq hlt
  · exact .inr ⟨by rw [onHalf, onHalf, heq], hindex⟩

namespace Group

theorem pairwise_half (h : g.ranks.Pairwise (· < ·)) (side : Bool) :
    (g.half side).ranks.Pairwise (· < ·) := by
  cases side with
  | false => exact h.sublist (List.take_sublist _ _)
  | true => exact h.sublist (List.drop_sublist _ _)

theorem pairwise_ofRange (start stop : Nat) : (ofRange start stop).ranks.Pairwise (· < ·) :=
  List.pairwise_lt_range'

end Group

/-! ## Sides -/

theorem mem_sideItems_iff :
    p ∈ sideItems g above side ↔ p.rank ∈ g.ranks ∧ (above p.rank)[p.index]? = some side := by
  rw [mem_sideItems, aboveAt, List.getD_eq_getElem?_getD]
  refine and_congr_right fun _ => ?_
  by_cases hp : p.index < (above p.rank).length <;> simp [hp]

/-- The points on a side come in order, if the ranks do. -/
theorem pairwise_sideItems (above : Nat → List Bool) (h : g.ranks.Pairwise (· < ·)) (side : Bool) :
    (sideItems g above side).Pairwise Place.Before := by
  rw [sideItems, List.pairwise_flatMap]
  refine ⟨fun r _ => List.Pairwise.filter _ ?_, h.imp fun hlt p hp q hq => .inl ?_⟩
  · exact List.pairwise_map.2 (List.pairwise_lt_range.imp fun hlt => .inr ⟨rfl, hlt⟩)
  · rwa [(mem_ownSide.1 hp).1, (mem_ownSide.1 hq).1]

section

variable (above) (hg : g.ranks.Nodup)

include hg

/-- The ranks of a half get the shares of the points on its side, in order. -/
theorem map_slotCount (side : Bool) :
    (g.half side).ranks.map (slotCount g above) =
      (List.range (g.half side).size).map (sideShares g above side).length := by
  refine List.ext_getElem (by simp [Group.size]) fun i hi _ => ?_
  have hi : i < (g.half side).ranks.length := by simpa using hi
  rw [List.getElem_map, List.getElem_map, List.getElem_range, slotCount,
    Group.sideOf_of_mem hg (List.getElem_mem hi), (Group.nodup_half hg side).idxOf_getElem i hi]

theorem slotCount_le_succ (side : Bool) {r s : Nat} (hr : r ∈ (g.half side).ranks)
    (hs : s ∈ (g.half side).ranks) : slotCount g above r ≤ slotCount g above s + 1 := by
  simp only [slotCount, Group.sideOf_of_mem hg hr, Group.sideOf_of_mem hg hs]
  exact Shares.length_le_succ _ _ _

theorem sum_slotCount (hsize : 1 < g.size) (side : Bool) :
    ((g.half side).ranks.map (slotCount g above)).sum =
      (g.ranks.map fun r => (above r).count side).sum := by
  rw [map_slotCount above hg, sum_count_side]
  exact (Shares.sum_length _ _).trans (Shares.first_size (Group.size_half_pos hsize side))

end

/-! ## All members -/

theorem slotOf_before (above : Nat → List Bool) (hsize : 1 < g.size)
    (hg : g.ranks.Pairwise (· < ·)) (hp : p ∈ sideItems g above side)
    (hq : q ∈ sideItems g above side) (hpq : p.Before q) :
    (slotOf g above p).Before (slotOf g above q) := by
  have hlt := Place.idxOf_lt_of_before (pairwise_sideItems above hg side) hp hq hpq
  have hlast : (sideItems g above side).idxOf q < (sideShares g above side).total :=
    List.idxOf_lt_length_of_mem hq
  simp only [slotOf, (mem_sideItems.1 hp).2.2, (mem_sideItems.1 hq).2.2]
  exact onHalf_before (Group.pairwise_half hg side)
    (Shares.rank_lt_size (Group.size_half_pos hsize side) hlast) (Shares.place_before hlt hlast)

/-- The members of a group of more than one rank spread their points over its halves: whichever
    points are above the plane, no member fails, and the points on either side are dealt out to
    the ranks of its half, evenly and in order. Numbers of points travel as words, so that one
    more than the points on a side has to be a word. -/
theorem spreadHalves_spreadsEvenly [Alphabet κ] [LawfulAlphabet κ] (hg : g.ranks.Pairwise (· < ·))
    (hn : ∀ r ∈ g.ranks, r < n) (hsize : 1 < g.size)
    (hroom : ∀ side, (g.ranks.map fun r => (above r).count side).sum + 1 < 2 ^ 64) :
    ∃ slot count,
      MembersYield n g.ranks
        (fun r => (spreadHalves (Seat.of r n) g (above r) : Proc κ (List Place × Nat)).toProgram)
        (fun r => .ok ((Place.own r (above r).length).map slot, count r)) ∧
      SpreadsEvenly g above slot count := by
  have hnodup : g.ranks.Nodup := hg.imp Nat.ne_of_lt
  simp only [sum_count_side] at hroom
  refine ⟨slotOf g above, slotCount g above,
    (spreadHalves_inStep hsize hroom hnodup hn).together.membersYield, ?_⟩
  constructor
  case bijOn =>
    intro side
    simpa only [mem_sideItems_iff] using bijOn_side above hnodup hsize side
  case count_le_succ => exact fun side r hr s hs => slotCount_le_succ above hnodup side hr hs
  case sum_count => exact sum_slotCount above hnodup hsize
  case before =>
    intro p q hp hq side hpside hqside hpq
    exact slotOf_before above hsize hg (mem_sideItems_iff.2 ⟨hp, hpside⟩)
      (mem_sideItems_iff.2 ⟨hq, hqside⟩) hpq

/-- Three ranks after the first of a world of five, the middle one without points. Of the two
    halves, one rank and two, the first gets the two points below the plane, and the other one
    the single point above. -/
theorem spreadHalves_spreadsEvenly_threeOfFive :
    let members := Group.ofRange 1 4
    let above : Nat → List Bool := fun r => if r = 1 then [true, false] else if r = 3 then [false]
      else []
    (members.ranks.Pairwise (· < ·) ∧ (∀ r ∈ members.ranks, r < 5) ∧ 1 < members.size ∧
      ∀ side, (members.ranks.map fun r => (above r).count side).sum + 1 < 2 ^ 64) ∧
    ∃ slot count,
      MembersYield 5 members.ranks (fun r => (spreadHalves (Seat.of r 5) members (above r) :
        Proc UInt8 (List Place × Nat)).toProgram)
        (fun r => .ok ((Place.own r (above r).length).map slot, count r)) ∧
      SpreadsEvenly members above slot count ∧
      count 1 = 2 ∧ (slot ⟨1, 1⟩).Before (slot ⟨3, 0⟩) := by
  intro members above
  have hg := Group.pairwise_ofRange 1 4
  have hn : ∀ r ∈ members.ranks, r < 5 := by decide
  have hroom : ∀ side, (members.ranks.map fun r => (above r).count side).sum + 1 < 2 ^ 64 := by
    decide
  obtain ⟨slot, count, hyield, hdealt⟩ :=
    spreadHalves_spreadsEvenly (κ := UInt8) hg hn (by decide) hroom
  refine ⟨⟨hg, hn, by decide, hroom⟩, slot, count, hyield, hdealt, ?_, ?_⟩
  · have hsum : ([1].map count).sum = 2 := hdealt.sum_count false
    simpa using hsum
  · exact hdealt.before ⟨1, 1⟩ ⟨3, 0⟩ (by decide) (by decide) false rfl rfl (.inl (by decide))

end SharedMesh
