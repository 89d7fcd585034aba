import SharedMesh.Proofs.Ownership.Meeting
import SharedMesh.Proofs.Shares

/-!
# Homes

The home of a key is where its first number is held, among the shares of all numbers that
the ranks know. All ranks come to the same total (`totalNumbers_together`), so all of them
find the same home for a key, and the items with that key meet there (`meetAtHome_together`).
-/

namespace SharedMesh

variable {κ : Type} {n : Nat} {numbers : Nat → List Nat}

/-! ## The total -/

/-- One more than the largest of some numbers. -/
def totalOf (numbers : List Nat) : Nat := numbers.max?.elim 0 (· + 1)

/-- One more than the largest number that a rank knows. -/
def totalOfAll (n : Nat) (numbers : Nat → List Nat) : Nat :=
  ((List.range n).map fun r => totalOf (numbers r)).max?.getD 0

theorem lt_totalOf {gs : List Nat} {g : Nat} (hg : g ∈ gs) : g < totalOf gs := by
  rw [totalOf]
  cases h : gs.max? with
  | none => rw [List.max?_eq_none_iff.1 h] at hg; cases hg
  | some m => exact Nat.lt_succ_of_le ((List.max?_eq_some_iff.1 h).2 g hg)

theorem totalOf_le {gs : List Nat} {bound : Nat} (h : ∀ g ∈ gs, g < bound) :
    totalOf gs ≤ bound := by
  rw [totalOf]
  cases hmax : gs.max? with
  | none => exact Nat.zero_le _
  | some m => exact h m (List.max?_mem hmax)

theorem localTotal_eq_ok {gs : List Nat} (h : totalOf gs < 2 ^ 64) :
    localTotal gs = .ok (totalOf gs) := by
  rw [totalOf] at *
  rw [localTotal]
  cases hmax : gs.max? with
  | none => rfl
  | some m =>
    rw [hmax] at h
    exact word_eq_ok h

theorem totalOf_le_totalOfAll {r : Nat} (hr : r < n) :
    totalOf (numbers r) ≤ totalOfAll n numbers := by
  have hmem := List.mem_map_of_mem (f := fun r => totalOf (numbers r)) (List.mem_range.2 hr)
  rw [totalOfAll]
  cases h : ((List.range n).map fun r => totalOf (numbers r)).max? with
  | none => rw [List.max?_eq_none_iff.1 h] at hmem; cases hmem
  | some m => exact (List.max?_eq_some_iff.1 h).2 _ hmem

theorem lt_totalOfAll {r : Nat} (hr : r < n) {g : Nat} (hg : g ∈ numbers r) :
    g < totalOfAll n numbers :=
  Nat.lt_of_lt_of_le (lt_totalOf hg) (totalOf_le_totalOfAll hr)

theorem totalOfAll_le {bound : Nat} (h : ∀ r < n, ∀ g ∈ numbers r, g < bound) :
    totalOfAll n numbers ≤ bound := by
  rw [totalOfAll]
  cases hmax : ((List.range n).map fun r => totalOf (numbers r)).max? with
  | none => exact Nat.zero_le _
  | some m =>
    obtain ⟨r, hr, rfl⟩ := List.mem_map.1 (List.max?_mem hmax)
    exact totalOf_le (h r (List.mem_range.1 hr))

/-- All ranks come to the same total. -/
theorem totalNumbers_together [Alphabet κ] [LawfulAlphabet κ] (h : totalOfAll n numbers < 2 ^ 64) :
    Together n (List.range n)
      (fun r => (totalNumbers (Seat.of r n) (numbers r) : Proc κ Nat).toProgram)
      (fun _ => .ok (totalOfAll n numbers)) := by
  have hword : ∀ r ∈ List.range n, totalOf (numbers r) < 2 ^ 64 := fun r hr =>
    (totalOf_le_totalOfAll (List.mem_range.1 hr)).trans_lt h
  have hmax : ∀ r ∈ List.range n, ((List.range n).map fun r => totalOf (numbers r)).max?.getD
      (totalOf (numbers r)) = totalOfAll n numbers := by
    intro r hr
    rw [totalOfAll]
    cases h : ((List.range n).map fun r => totalOf (numbers r)).max? with
    | none =>
      rw [List.max?_eq_none_iff, List.map_eq_nil_iff] at h
      rw [h] at hr
      cases hr
    | some m => rfl
  refine Together.ofCheckedThen (a := fun r => totalOf (numbers r)) (fun r hr =>
    localTotal_eq_ok (hword r hr)) ?_
  refine Together.andThen (a := fun _ => totalOfAll n numbers) ?_ ?_
  · simp only [Group.all_of]
    exact (maxNumber_together (g := ⟨List.range n⟩) List.nodup_range
      (fun _ hr => List.mem_range.1 hr) hword).congr (fun _ _ => rfl) fun r hr =>
        congrArg Except.ok (hmax r hr)
  · exact (agree_together h).mapOk

/-! ## Keys at home -/

/-- The shares of the numbers of all ranks. -/
def sharesOf (n : Nat) (numbers : Nat → List Nat) : Shares := ⟨totalOfAll n numbers, n⟩

/-- Where the first number of a key is held. -/
def homeOf (n : Nat) (numbers : Nat → List Nat) (key : List Nat) : Place :=
  (sharesOf n numbers).place (key.headD 0)

/-- The items send their keys to where the first numbers of the keys are held, among the
    shares of `numbers`. -/
def meetAtHome [Alphabet κ] (seat : Seat) (numbers firsts : List Nat) (width : Nat)
    (flat : List Nat) (policy : OwnerPolicy) : Proc κ (List Place) := do
  let total ← totalNumbers seat numbers
  let shares ← Proc.ofChecked (Shares.deal total seat.size)
  let servers ← Proc.ofChecked (shares.holders firsts)
  let served ← Proc.ofChecked (shares.count seat.rank)
  meet seat servers served width flat policy

/-- Items with keys of `width` numbers that the ranks know. -/
structure Keyed (n width : Nat) (numbers : Nat → List Nat) (keys : Nat → List (List Nat)) :
    Prop where
  width_pos : 0 < width
  length_key : ∀ r < n, ∀ k ∈ keys r, k.length = width
  mem_numbers : ∀ r < n, ∀ k ∈ keys r, ∀ g ∈ k, g ∈ numbers r
  /-- The total of the numbers, and one more, are words. -/
  number_lt : ∀ r < n, ∀ g ∈ numbers r, g < 2 ^ 64 - 2

/-- How many items meet on a rank. -/
def meetingCount (n : Nat) (numbers : Nat → List Nat) (keys : Nat → List (List Nat)) (r : Nat) :
    Nat :=
  (Route.copies n (fun r => (keys r).map (homeOf n numbers)) r
    ((sharesOf n numbers).length r)).length

/-- What the ranks hold while keys meet takes less than half of all addresses: three words for
    each number that they serve; and for each item, and each of all items that meet on one
    rank, its key, and four words. -/
structure MeetingRoom (n width : Nat) (numbers : Nat → List Nat) (keys : Nat → List (List Nat)) :
    Prop where
  rank_room : n ≤ 2 ^ 32
  share_room : ∀ r < n, (sharesOf n numbers).length r * 24 < 2 ^ 63
  items_room : ∀ r < n, (keys r).length * width * 8 < 2 ^ 63 ∧ (keys r).length * 32 < 2 ^ 63
  copies_room : ∀ r < n, meetingCount n numbers keys r * width * 8 < 2 ^ 63 ∧
    meetingCount n numbers keys r * 32 < 2 ^ 63

/-- What the ranks hold while items meet at `servers` takes less than half of all addresses:
    three words for each root that they serve; and for each item and each copy its key, and
    four words. -/
structure ServingRoom (n width : Nat) (servers : Nat → List Place) (served : Nat → Nat) :
    Prop where
  roots_room : ∀ r < n, served r * 24 < 2 ^ 63
  items_room : ∀ r < n, (servers r).length * width * 8 < 2 ^ 63 ∧ (servers r).length * 32 < 2 ^ 63
  copies_room : ∀ r < n, (Route.copies n servers r (served r)).length * width * 8 < 2 ^ 63 ∧
    (Route.copies n servers r (served r)).length * 32 < 2 ^ 63

namespace ServingRoom

variable {width : Nat} {servers : Nat → List Place} {served : Nat → Nat}

theorem fits (h : ServingRoom n width servers served) : Route.Fits n servers served where
  roots_room r hr := by
    have := h.roots_room r hr
    omega
  items_room r hr := by
    have := (h.items_room r hr).2
    omega
  copies_room r hr := (h.copies_room r hr).2

theorem keys_room [Alphabet κ] (h : ServingRoom n width servers served) :
    Route.HasRoom κ UInt64 n (Route.planned n servers served) width := fun r hr => by
  rw [Route.itemCount_planned, Route.itemCount_far_planned]
  exact ⟨(h.items_room r hr).1, (h.copies_room r hr).1⟩

/-- There is room for a word of each item, as there is for a key. -/
theorem words_room [Alphabet κ] (h : ServingRoom n width servers served) (hwidth : 0 < width) :
    Route.HasRoom κ UInt64 n (Route.planned n servers served) 1 := by
  intro r hr
  obtain ⟨hitems, hcopies⟩ := h.keys_room (κ := κ) r hr
  have hle : ∀ count : Nat,
      count * 1 * Layout.size κ UInt64 ≤ count * width * Layout.size κ UInt64 := fun count =>
    Nat.mul_le_mul_right _ (Nat.mul_le_mul_left count hwidth)
  exact ⟨(hle _).trans_lt hitems, (hle _).trans_lt hcopies⟩

theorem owners_room [Alphabet κ] (h : ServingRoom n width servers served) :
    Route.HasRoom κ PlaceRecord n (Route.planned n servers served) 1 := fun r hr => by
  have hsize : Layout.size κ PlaceRecord = 16 := rfl
  have hitems := (h.items_room r hr).2
  have hcopies := (h.copies_room r hr).2
  rw [Route.itemCount_planned, Route.itemCount_far_planned, hsize]
  omega

end ServingRoom

section

variable {width : Nat} {keys : Nat → List (List Nat)} {policy : OwnerPolicy}

theorem MeetingRoom.serving (h : MeetingRoom n width numbers keys) :
    ServingRoom n width (fun r => (keys r).map (homeOf n numbers)) (sharesOf n numbers).length :=
  ⟨h.share_room, fun r hr => by rw [List.length_map]; exact h.items_room r hr, h.copies_room⟩

theorem Keyed.total_lt (h : Keyed n width numbers keys) : totalOfAll n numbers + 1 < 2 ^ 64 := by
  have := totalOfAll_le h.number_lt
  omega

/-- The first number of a key is below the total. -/
theorem Keyed.head_lt (h : Keyed n width numbers keys) {r : Nat} (hr : r < n) {key : List Nat}
    (hkey : key ∈ keys r) : key.headD 0 < (sharesOf n numbers).total := by
  have hlength := h.length_key r hr key hkey
  cases key with
  | nil =>
    have := h.width_pos
    simp only [List.length_nil] at hlength
    omega
  | cons g rest => exact lt_totalOfAll hr (h.mem_numbers r hr _ hkey g List.mem_cons_self)

/-- Keys of known numbers meet at their homes. -/
theorem Keyed.meeting [Alphabet κ] (h : Keyed n width numbers keys)
    (hroom : MeetingRoom n width numbers keys) :
    Meeting κ n width keys (homeOf n numbers) (sharesOf n numbers).length where
  width_pos := h.width_pos
  length_key := h.length_key
  word_key r hr k hk g hg := by
    have := h.number_lt r hr g (h.mem_numbers r hr k hk g hg)
    omega
  home_rank r hr k hk := Shares.rank_lt_size (Nat.zero_lt_of_lt hr) (h.head_lt hr hk)
  home_index r hr k hk := Shares.index_lt_length (h.head_lt hr hk)
  rank_room := hroom.rank_room
  fits := hroom.serving.fits
  settle_room := hroom.share_room
  keys_room := hroom.serving.keys_room
  owners_room := hroom.serving.owners_room

variable [Alphabet κ] [LawfulAlphabet κ]

/-- All ranks find the homes of their keys, and how many numbers they serve themselves. -/
theorem Keyed.findHomes_together {β : Type} (h : Keyed n width numbers keys)
    {f : Nat → List Place → Nat → Proc κ β} {y : Nat → Checked β}
    (hf : Together n (List.range n) (fun r =>
      (f r ((keys r).map (homeOf n numbers)) ((sharesOf n numbers).length r)).toProgram) y) :
    Together n (List.range n) (fun r => (do
      let total ← totalNumbers (Seat.of r n) (numbers r)
      let shares ← Proc.ofChecked (Shares.deal total n)
      let servers ← Proc.ofChecked (shares.holders ((keys r).map (List.headD · 0)))
      let served ← Proc.ofChecked (shares.count r)
      f r servers served : Proc κ β).toProgram) y := by
  have htotal := h.total_lt
  have hsize : ∀ r ∈ List.range n, 0 < n := fun r hr => Nat.zero_lt_of_lt (List.mem_range.1 hr)
  -- all ranks come to know the same total, and so the same shares
  refine Together.andThen (totalNumbers_together (Nat.lt_of_succ_lt htotal)) ?_
  refine Together.ofCheckedThen (a := fun _ => sharesOf n numbers) (fun r hr =>
    if_neg (Nat.ne_of_gt (hsize r hr))) ?_
  refine Together.ofCheckedThen (a := fun r => (keys r).map (homeOf n numbers)) (fun r hr => ?_) ?_
  · rw [Shares.holders_eq_ok (hsize r hr) (fun g hg => ?_) htotal, List.map_map]
    · rfl
    · obtain ⟨key, hkey, rfl⟩ := List.mem_map.1 hg
      exact h.head_lt (List.mem_range.1 hr) hkey
  exact Together.ofCheckedThen (fun r hr => Shares.count_eq_ok (List.mem_range.1 hr)
    (Nat.lt_of_succ_lt htotal)) hf

theorem meetAtHome_of_meet (policy : OwnerPolicy) (h : Keyed n width numbers keys)
    {y : Nat → Checked (List Place)}
    (hmeet : Together n (List.range n) (fun r => (meet (κ := κ) (Seat.of r n)
      ((keys r).map (homeOf n numbers)) ((sharesOf n numbers).length r) width (keys r).flatten
        policy).toProgram) y) :
    Together n (List.range n) (fun r => (meetAtHome (κ := κ) (Seat.of r n) (numbers r)
      ((keys r).map (List.headD · 0)) width (keys r).flatten policy).toProgram) y :=
  h.findHomes_together hmeet

/-- If the policy resolves all keys, each item gets the owner of its key. -/
theorem meetAtHome_together (h : Keyed n width numbers keys)
    (hroom : MeetingRoom n width numbers keys)
    (hresolves : ∀ r < n, ∀ key ∈ keys r, Resolves n keys policy key) :
    Together n (List.range n) (fun r => (meetAtHome (κ := κ) (Seat.of r n) (numbers r)
      ((keys r).map (List.headD · 0)) width (keys r).flatten policy).toProgram)
      (fun r => .ok ((keys r).map (ownerOf n keys policy))) :=
  meetAtHome_of_meet _ h (meet_together (h.meeting hroom) hresolves)

/-- If the policy does not resolve some key, all ranks fail, and a rank on which such a key
    is at home reports it. -/
theorem meetAtHome_together_error (h : Keyed n width numbers keys)
    (hroom : MeetingRoom n width numbers keys) {r : Nat} (hr : r < n) {key : List Nat}
    (hkey : key ∈ keys r) (hfails : ¬ Resolves n keys policy key) :
    ∃ e : Nat → MeshError, Together n (List.range n) (fun r => (meetAtHome (κ := κ) (Seat.of r n)
        (numbers r) ((keys r).map (List.headD · 0)) width (keys r).flatten policy).toProgram)
          (fun r => .error (e r)) ∧
      ∀ r < n, ∀ key ∈ keys r, ¬ Resolves n keys policy key →
        ∃ vertex owner, e (homeOf n numbers key).rank = .unresolved vertex owner := by
  obtain ⟨e, hmeet, he⟩ := meet_together_error (h.meeting (κ := κ) hroom) hr hkey hfails
  exact ⟨e, meetAtHome_of_meet _ h hmeet, he⟩

end

/-! ## Numbers as keys -/

/-- The keys of numbers, of one number each. -/
def numberKeys (numbers : List Nat) : List (List Nat) := numbers.map fun g => [g]

theorem headD_numberKeys (numbers : List Nat) :
    (numberKeys numbers).map (List.headD · 0) = numbers := by
  rw [numberKeys, List.map_map]
  exact List.map_id numbers

theorem flatten_numberKeys (numbers : List Nat) : (numberKeys numbers).flatten = numbers :=
  (Route.flatten_singletons id numbers).trans (List.map_id numbers)

theorem keyed_numberKeys (h : ∀ r < n, ∀ g ∈ numbers r, g < 2 ^ 64 - 2) :
    Keyed n 1 numbers fun r => numberKeys (numbers r) where
  width_pos := Nat.one_pos
  length_key r _ key hkey := by
    obtain ⟨g, _, rfl⟩ := List.mem_map.1 hkey
    rfl
  mem_numbers r _ key hkey g hg := by
    obtain ⟨g', hg', rfl⟩ := List.mem_map.1 hkey
    rwa [List.mem_singleton.1 hg]
  number_lt := h

section

variable [Alphabet κ] [LawfulAlphabet κ] {policy : OwnerPolicy}

/-- Without wishes, the copies of a number meet at its home. -/
theorem ownersOfNumbers_of_meetAtHome {y : Nat → Checked (List Place)}
    (hmeet : Together n (List.range n) (fun r => (meetAtHome (κ := κ) (Seat.of r n) (numbers r)
      ((numberKeys (numbers r)).map (List.headD · 0)) 1 (numberKeys (numbers r)).flatten
        policy).toProgram) y) :
    Together n (List.range n) (fun r => (ownersOfNumbers (κ := κ) (Seat.of r n) (numbers r) none
      policy).toProgram) y := by
  simp only [headD_numberKeys, flatten_numberKeys] at hmeet
  refine Together.allPassThen (a := fun _ => ()) (fun _ _ => rfl) (hmeet.congr (fun r _ => ?_)
    fun _ _ => rfl)
  simp only [meetAtHome, meet]

/-- If the policy resolves all numbers, each copy of a number gets its owner. -/
theorem ownersOfNumbers_together (h : ∀ r < n, ∀ g ∈ numbers r, g < 2 ^ 64 - 2)
    (hroom : MeetingRoom n 1 numbers fun r => numberKeys (numbers r))
    (hresolves : ∀ r < n, ∀ key ∈ numberKeys (numbers r),
      Resolves n (fun r => numberKeys (numbers r)) policy key) :
    Together n (List.range n) (fun r => (ownersOfNumbers (κ := κ) (Seat.of r n) (numbers r) none
        policy).toProgram) fun r => .ok ((numberKeys (numbers r)).map
          (ownerOf n (fun r => numberKeys (numbers r)) policy)) :=
  ownersOfNumbers_of_meetAtHome (meetAtHome_together (keyed_numberKeys h) hroom hresolves)

end

end SharedMesh
