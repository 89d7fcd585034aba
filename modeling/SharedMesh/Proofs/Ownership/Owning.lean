import SharedMesh.Proofs.Ownership.Wishing

/-!
# Owners of numbers

All copies of a number get one owner, who is one of them: the copy with the smallest index on
the rank that they all wish for, or without wishes the one that the policy picks. If there is no
such copy of some number, no rank gets any owner. The owners own themselves, so the entities can
be numbered by them, and copies get one number just if they have had one (`OwnersLaw`).

This holds for any numbers, as long as what the ranks serve and hold can be held in memory
(`ownersOfNumbers_lawful`). Without that, a rank stops (`not_ownersOfNumbers_lawful_of_words`).
-/

namespace SharedMesh

open Route

variable {κ : Type} {n : Nat} {numbers : Nat → List Nat}

/-! ## What is promised -/

/-- All copies of a number wish for one rank, and this rank holds one of them. -/
def Grantable (n : Nat) (numbers wishes : Nat → List Nat) (g : Nat) : Prop :=
  ∃ rank, (∀ q ∈ namers n numbers g, (wishes q.rank)[q.index]? = some rank) ∧
    ∃ q ∈ namers n numbers g, q.rank = rank

/-- The copy of a number with the smallest index on the rank that all copies wish for. -/
structure IsFirstWished (n : Nat) (numbers wishes : Nat → List Nat) (g : Nat) (owner : Place) :
    Prop where
  mem : owner ∈ namers n numbers g
  wished : ∀ q ∈ namers n numbers g, (wishes q.rank)[q.index]? = some owner.rank
  index_le : ∀ q ∈ namers n numbers g, q.rank = owner.rank → owner.index ≤ q.index

/-- The ranks find owners for numbers that are all good, and for no number otherwise. -/
structure Owns (κ : Type) [Alphabet κ] (n : Nat) (numbers : Nat → List Nat)
    (wishes : Option (Nat → List Nat)) (policy : OwnerPolicy) (Good : Nat → Prop)
    (IsOwner : Nat → Place → Prop) : Prop where
  /-- All copies of a number get its owner, and by their owners they are numbered as before. -/
  succeeds : (∀ r < n, ∀ g ∈ numbers r, Good g) → ∃ (owner : Nat → Place) (number : Nat → Nat),
    (∀ r < n, ∀ g ∈ numbers r, IsOwner g (owner g)) ∧
    (World.start ((List.range n).map fun r => (ownersOfNumbers (κ := κ) (Seat.of r n) (numbers r)
      (wishes.map (· r)) policy).toProgram)).Yields
        ((List.range n).map fun r => .ok ((numbers r).map owner)) ∧
    (World.start ((List.range n).map fun r => (numberOwned (κ := κ) (Seat.of r n)
      ((numbers r).map owner)).toProgram)).Yields
        ((List.range n).map fun r => .ok ((numbers r).map number)) ∧
    ∀ r < n, ∀ g ∈ numbers r, ∀ s < n, ∀ h ∈ numbers s, number g = number h ↔ g = h
  fails : (∃ r < n, ∃ g ∈ numbers r, ¬ Good g) → ∃ e : Nat → MeshError,
    (World.start ((List.range n).map fun r => (ownersOfNumbers (κ := κ) (Seat.of r n) (numbers r)
      (wishes.map (· r)) policy).toProgram)).Yields ((List.range n).map fun r => .error (e r))

/-- Owners of numbers, by wishes and by policies. -/
structure OwnersLaw (κ : Type) [Alphabet κ] (n : Nat) (numbers : Nat → List Nat) : Prop where
  byWish : ∀ (wishes : Nat → List Nat) (policy : OwnerPolicy),
    (∀ r < n, (wishes r).length = (numbers r).length ∧ ∀ w ∈ wishes r, w < 2 ^ 64) →
      Owns κ n numbers (some wishes) policy (Grantable n numbers wishes)
        (IsFirstWished n numbers wishes)
  byPolicy : ∀ policy : OwnerPolicy, Owns κ n numbers none policy
    (fun g => ∃ owner ∈ namers n numbers g, policy (namers n numbers g) = some owner)
    fun g owner => policy (namers n numbers g) = some owner

/-- What the ranks serve, three words for each number, and all copies, four words for each, take
    less than half of all addresses. -/
structure OwningRoom (n : Nat) (numbers : Nat → List Nat) : Prop where
  rank_room : n ≤ 2 ^ 32
  share_room : ∀ r < n, (sharesOf n numbers).length r * 24 < 2 ^ 63
  copies_room : itemTotal n numbers * 32 < 2 ^ 63

/-! ## Copies of numbers -/

/-- The copies of a number are the items that have it as their key. -/
theorem namers_numberKeys (numbers : Nat → List Nat) (g : Nat) :
    namers n (fun r => numberKeys (numbers r)) [g] = namers n numbers g := by
  rw [namers, namers]
  refine List.flatMap_congr fun r _ => ?_
  rw [numberKeys, List.zipIdx_map, List.filter_map, List.map_map]
  simp [Function.comp_def]

theorem resolves_numberKeys {policy : OwnerPolicy} {g : Nat} :
    Resolves n (fun r => numberKeys (numbers r)) policy [g] ↔
      ∃ owner ∈ namers n numbers g, policy (namers n numbers g) = some owner := by
  rw [Resolves, namers_numberKeys]

/-- The owner of a number is the copy that the policy picks, if it picks one. -/
theorem ownerOf_numberKeys {policy : OwnerPolicy} {g : Nat}
    (h : ∃ owner ∈ namers n numbers g, policy (namers n numbers g) = some owner) :
    ownerOf n (fun r => numberKeys (numbers r)) policy [g] ∈ namers n numbers g ∧
      policy (namers n numbers g) =
        some (ownerOf n (fun r => numberKeys (numbers r)) policy [g]) := by
  obtain ⟨owner, hmem, hpolicy⟩ := h
  rw [ownerOf, namers_numberKeys, hpolicy, Option.getD_some]
  exact ⟨hmem, rfl⟩

theorem itemTotal_numberKeys (n : Nat) (numbers : Nat → List Nat) :
    itemTotal n (fun r => numberKeys (numbers r)) = itemTotal n numbers := by
  simp [itemTotal, numberKeys]

theorem OwningRoom.meetingRoom (h : OwningRoom n numbers) :
    MeetingRoom n 1 numbers fun r => numberKeys (numbers r) := by
  have hcopies := h.copies_room
  refine meetingRoom_of_shares h.rank_room h.share_room ?_ ?_ <;> rw [itemTotal_numberKeys] <;>
    omega

/-! ## Numbering by owners -/

section

variable {owner : Nat → Place} (howner : ∀ r < n, ∀ g ∈ numbers r, owner g ∈ namers n numbers g)

include howner

/-- Owners that are copies of their numbers own themselves. -/
theorem selfOwned_of_mem_namers : SelfOwned n fun r => (numbers r).map owner := by
  constructor <;> intro r hr p hp <;> obtain ⟨g, hg, rfl⟩ := List.mem_map.1 hp <;>
    obtain ⟨hrank, hat⟩ := mem_namers.1 (howner r hr g hg)
  · exact hrank
  · rw [List.getElem?_map, hat, Option.map_some]

/-- Different numbers have different owners, and these have different positions. -/
theorem idxOf_owner_eq_iff {r s g h : Nat} (hr : r < n) (hg : g ∈ numbers r) (hs : s < n)
    (hh : h ∈ numbers s) :
    (allOwned n fun r => (numbers r).map owner).idxOf (owner g) =
      (allOwned n fun r => (numbers r).map owner).idxOf (owner h) ↔ g = h := by
  have hself := selfOwned_of_mem_namers howner
  have hmem : owner g ∈ allOwned n fun r => (numbers r).map owner :=
    mem_allOwned.2 (hself.mem_selfOwners hr (List.mem_map_of_mem hg))
  rw [List.idxOf_inj hmem]
  refine ⟨fun heq => ?_, fun heq => heq ▸ rfl⟩
  have hat := (mem_namers.1 (howner r hr g hg)).2
  rw [heq, (mem_namers.1 (howner s hs h hh)).2] at hat
  exact (Option.some.inj hat).symm

/-- The copies of a number are numbered by the position of their owner. -/
theorem numberOwned_together_of_namers [Alphabet κ] [LawfulAlphabet κ]
    (hroom : OwningRoom n numbers) :
    Together n (List.range n)
      (fun r => (numberOwned (Seat.of r n) ((numbers r).map owner) : Proc κ _).toProgram)
      (fun r => .ok ((numbers r).map fun g =>
        (allOwned n fun r => (numbers r).map owner).idxOf (owner g))) := by
  have hcopies := hroom.copies_room
  have htotal : itemTotal n (fun r => (numbers r).map owner) = itemTotal n numbers := by
    simp [itemTotal]
  refine (numberOwned_together (selfOwned_of_mem_namers howner)
    (numberingRoom_of_sum (by omega))).congr (fun _ _ => rfl) fun r _ => ?_
  rw [List.map_map]
  rfl

end

/-! ## Wishes that can be granted -/

section

variable {wishes : Nat → List Nat} (hlength : ∀ r < n, (wishes r).length = (numbers r).length)

include hlength

theorem wishAt_eq_iff {g rank : Nat} {q : Place} (hq : q ∈ namers n numbers g) :
    wishAt wishes q = rank ↔ (wishes q.rank)[q.index]? = some rank := by
  obtain ⟨hrank, hat⟩ := mem_namers.1 hq
  have hindex : q.index < (wishes q.rank).length := by
    rw [hlength _ hrank]
    exact (List.getElem?_eq_some_iff.1 hat).1
  simp [wishAt, hindex]

theorem wishPolicy_namers_iff {g : Nat} {owner : Place} :
    wishPolicy wishes (namers n numbers g) = some owner ↔ IsFirstWished n numbers wishes g owner := by
  rw [wishPolicy_eq_some_iff (pairwise_namers g)]
  constructor
  · rintro ⟨hmem, hall, hleast⟩
    exact ⟨hmem, fun q hq => (wishAt_eq_iff hlength hq).1 (hall q hq), hleast⟩
  · rintro ⟨hmem, hall, hleast⟩
    exact ⟨hmem, fun q hq => (wishAt_eq_iff hlength hq).2 (hall q hq), hleast⟩

/-- The policy of those who know all wishes picks an owner just if their wish can be granted. -/
theorem grantable_iff {g : Nat} : Grantable n numbers wishes g ↔
    ∃ owner ∈ namers n numbers g, wishPolicy wishes (namers n numbers g) = some owner := by
  constructor
  · rintro ⟨_, hall, p, hp, rfl⟩
    -- the first of the copies on that rank
    have hexists : ∃ i, (⟨p.rank, i⟩ : Place) ∈ namers n numbers g := ⟨p.index, hp⟩
    have hfirst := Nat.find_spec hexists
    refine ⟨_, hfirst, (wishPolicy_namers_iff hlength).2 ⟨hfirst, hall, fun ⟨rank, j⟩ hj hrank => ?_⟩⟩
    obtain rfl : rank = p.rank := hrank
    exact Nat.find_min' hexists hj
  · rintro ⟨owner, hmem, hpolicy⟩
    exact ⟨owner.rank, ((wishPolicy_namers_iff hlength).1 hpolicy).wished, owner, hmem, rfl⟩

end

/-! ## All ranks -/

section

variable [Alphabet κ]

/-- Owners may be described otherwise. -/
theorem Owns.congr {wishes : Option (Nat → List Nat)} {policy : OwnerPolicy}
    {Good Good' : Nat → Prop} {IsOwner IsOwner' : Nat → Place → Prop}
    (h : Owns κ n numbers wishes policy Good IsOwner) (hgood : ∀ g, Good' g ↔ Good g)
    (howner : ∀ g p, IsOwner g p → IsOwner' g p) :
    Owns κ n numbers wishes policy Good' IsOwner' where
  succeeds hall := by
    obtain ⟨owner, number, hown, hrest⟩ := h.succeeds fun r hr g hg => (hgood g).1 (hall r hr g hg)
    exact ⟨owner, number, fun r hr g hg => howner _ _ (hown r hr g hg), hrest⟩
  fails := by
    rintro ⟨r, hr, g, hg, hbad⟩
    exact h.fails ⟨r, hr, g, hg, mt (hgood g).2 hbad⟩

variable [LawfulAlphabet κ]

/-- The ranks find the owners that the wishes or the policy decide on. -/
theorem owns_of_decider (hnumbers : ∀ r < n, ∀ g ∈ numbers r, g < 2 ^ 64 - 2)
    (hroom : OwningRoom n numbers) (wishes : Option (Nat → List Nat)) (policy : OwnerPolicy)
    (hwishes : ∀ list ∈ wishes, ∀ r < n,
      (list r).length = (numbers r).length ∧ ∀ w ∈ list r, w < 2 ^ 64) :
    Owns κ n numbers wishes policy
      (fun g => ∃ owner ∈ namers n numbers g,
        decider wishes policy (namers n numbers g) = some owner)
      fun g owner => decider wishes policy (namers n numbers g) = some owner := by
  have hmeeting := (keyed_numberKeys hnumbers).meeting (κ := κ) hroom.meetingRoom
  constructor
  case succeeds =>
    intro hgood
    let owner (g : Nat) : Place :=
      ownerOf n (fun r => numberKeys (numbers r)) (decider wishes policy) [g]
    have howner : ∀ r < n, ∀ g ∈ numbers r, owner g ∈ namers n numbers g := fun r hr g hg =>
      (ownerOf_numberKeys (hgood r hr g hg)).1
    have hresolves : ∀ r < n, ∀ key ∈ numberKeys (numbers r),
        Resolves n (fun r => numberKeys (numbers r)) (decider wishes policy) key := by
      intro r hr key hkey
      obtain ⟨g, hg, rfl⟩ := List.mem_map.1 hkey
      exact resolves_numberKeys.2 (hgood r hr g hg)
    refine ⟨owner, fun g => (allOwned n fun r => (numbers r).map owner).idxOf (owner g),
      fun r hr g hg => (ownerOf_numberKeys (hgood r hr g hg)).2, ?_,
      (numberOwned_together_of_namers howner hroom).yields,
      fun r hr g hg s hs h hh => idxOf_owner_eq_iff howner hr hg hs hh⟩
    refine ((ownersOfNumbers_together_of_report hnumbers hroom.meetingRoom hwishes
      (report_together hmeeting hresolves)).congr (fun _ _ => rfl) fun r _ => ?_).yields
    rw [numberKeys, List.map_map]
    rfl
  case fails =>
    rintro ⟨r, hr, g, hg, hbad⟩
    obtain ⟨e, hreport, _⟩ := report_together_error hmeeting hr (List.mem_map_of_mem hg)
      (mt resolves_numberKeys.1 hbad)
    exact ⟨e, (ownersOfNumbers_together_of_report hnumbers hroom.meetingRoom hwishes
      hreport).yields⟩

/-- All copies of a number get one owner, by their wishes or by a policy, and can be numbered by
    their owners. -/
theorem ownersOfNumbers_lawful (hnumbers : ∀ r < n, ∀ g ∈ numbers r, g < 2 ^ 64 - 2)
    (hroom : OwningRoom n numbers) : OwnersLaw κ n numbers := by
  constructor
  case byWish =>
    intro wishes policy hwishes
    have hlength : ∀ r < n, (wishes r).length = (numbers r).length := fun r hr => (hwishes r hr).1
    have howns := owns_of_decider (κ := κ) hnumbers hroom (some wishes) policy
      fun list hlist => by cases hlist; exact hwishes
    exact howns.congr (fun _ => grantable_iff hlength) fun _ _ => (wishPolicy_namers_iff hlength).1
  case byPolicy =>
    intro policy
    exact owns_of_decider hnumbers hroom none policy fun list hlist => by cases hlist

end

/-- The numbers on two ranks: both hold 4 and 7, and the first one holds 4 twice. -/
def sharedNumbers (r : Nat) : List Nat := if r = 0 then [4, 7, 4] else [7, 4]

/-- All copies of 4 wish for the second rank, and all copies of 7 for the first one. -/
def sharedWishes (r : Nat) : List Nat := if r = 0 then [1, 0, 1] else [0, 1]

/-- The wishes of `sharedWishes` are granted; but not every copy can be its own owner. -/
theorem ownersOfNumbers_lawful_sharedNumbers :
    (World.start ((List.range 2).map fun r => (ownersOfNumbers (κ := UInt8) (Seat.of r 2)
      (sharedNumbers r) (some (sharedWishes r)) .smallest).toProgram)).Yields
        [.ok [⟨1, 1⟩, ⟨0, 1⟩, ⟨1, 1⟩], .ok [⟨0, 1⟩, ⟨1, 1⟩]] ∧
    ∃ e : Nat → MeshError, (World.start ((List.range 2).map fun r =>
      (ownersOfNumbers (κ := UInt8) (Seat.of r 2) (sharedNumbers r)
        (some ((sharedNumbers r).map fun _ => r)) .smallest).toProgram)).Yields
          ((List.range 2).map fun r => .error (e r)) := by
  have hroom : OwningRoom 2 sharedNumbers := ⟨by decide, by decide, by decide⟩
  have hlaw : OwnersLaw UInt8 2 sharedNumbers := ownersOfNumbers_lawful (by decide) hroom
  have hcases : ∀ r < 2, ∀ g ∈ sharedNumbers r, g = 4 ∨ g = 7 := by decide
  obtain ⟨owner, _, howner, hyields, _⟩ := (hlaw.byWish sharedWishes .smallest (by decide)).succeeds
    fun r hr g hg => by
      rcases hcases r hr g hg with rfl | rfl
      · exact ⟨1, by decide, by decide⟩
      · exact ⟨0, by decide, by decide⟩
  have hfirst : ∀ g p, (∀ p' ∈ namers 2 sharedNumbers g,
      (∀ q ∈ namers 2 sharedNumbers g, (sharedWishes q.rank)[q.index]? = some p'.rank) →
        (∀ q ∈ namers 2 sharedNumbers g, q.rank = p'.rank → p'.index ≤ q.index) → p' = p) →
      IsFirstWished 2 sharedNumbers sharedWishes g (owner g) → owner g = p :=
    fun g p honly h => honly _ h.mem h.wished h.index_le
  have hfour : owner 4 = ⟨1, 1⟩ := hfirst 4 ⟨1, 1⟩ (by decide) (howner 0 (by decide) 4 (by decide))
  have hseven : owner 7 = ⟨0, 1⟩ := hfirst 7 ⟨0, 1⟩ (by decide) (howner 0 (by decide) 7 (by decide))
  have hresults : ((List.range 2).map fun r => (Except.ok ((sharedNumbers r).map owner) :
      Checked (List Place))) = [.ok [⟨1, 1⟩, ⟨0, 1⟩, ⟨1, 1⟩], .ok [⟨0, 1⟩, ⟨1, 1⟩]] := by
    rw [← hfour, ← hseven]
    rfl
  refine ⟨hresults ▸ hyields, (hlaw.byWish (fun r => (sharedNumbers r).map fun _ => r) .smallest
    (by decide)).fails ⟨0, by decide, 4, by decide, ?_⟩⟩
  rintro ⟨rank, hall, _⟩
  have hzero : some 0 = some rank := hall ⟨0, 0⟩ (by decide)
  have hone : some 1 = some rank := hall ⟨1, 1⟩ (by decide)
  exact absurd (hzero.trans hone.symm) (by decide)

/-- Words are not enough: a rank that serves too many numbers to count them stops, though its
    only number has an owner. -/
theorem not_ownersOfNumbers_lawful_of_words :
    ¬ ∀ (n : Nat) (numbers : Nat → List Nat), (∀ r < n, ∀ g ∈ numbers r, g < 2 ^ 64 - 2) →
      OwnersLaw UInt8 n numbers := by
  intro h
  have hnumbers : ∀ r < 1, ∀ g ∈ [2 ^ 62], g < 2 ^ 64 - 2 := by decide
  obtain ⟨owner, _, _, hyields, _⟩ := ((h 1 (fun _ => [2 ^ 62]) hnumbers).byPolicy .smallest).succeeds
    (by decide)
  have hsound : Sound 1 (fun _ => (numberKeys [2 ^ 62]).map (homeOf 1 fun _ => [2 ^ 62]))
      (sharesOf 1 fun _ => [2 ^ 62]).length := ⟨by decide, by decide⟩
  have hstop := ownersOfNumbers_of_meetAtHome (meetAtHome_of_meet (κ := UInt8) .smallest
    (keyed_numberKeys hnumbers)
      (plan_together_noRoom hsound (by decide) (by decide) (by decide) (by decide)).orFail)
  have hresults := hyields.run_eq.symm.trans hstop.yields.run_eq
  simp at hresults

end SharedMesh
