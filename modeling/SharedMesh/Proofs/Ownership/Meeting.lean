import SharedMesh.Ownership.Resolve
import SharedMesh.Proofs.Ownership.Settling
import SharedMesh.Proofs.Route.Answering

/-!
# Where copies meet

The items of all ranks have keys; items with the same key are copies of one entity. Each key
has a home, the root where the copies meet (`Meeting`). There the class of a key is complete
and in order (`Served.classes` of what was carried), so what the ranks decide together is
decided as by one who sees all items at once (`meet_together`): the owner of a key is
what the policy chooses among `Route.namers n keys key`, and if that is nobody of them, the
rank on which the key is at home reports it (`meet_together_error`).
-/

namespace SharedMesh

open Route

variable {κ : Type} {n : Nat}

/-! ## Keys with a home -/

/-- Items with keys of the same width, whose home is among the roots that the ranks serve,
    and room for all that moves. -/
structure Meeting (κ : Type) [Alphabet κ] (n width : Nat) (keys : Nat → List (List Nat))
    (home : List Nat → Place) (served : Nat → Nat) : Prop where
  width_pos : 0 < width
  length_key : ∀ r < n, ∀ k ∈ keys r, k.length = width
  word_key : ∀ r < n, ∀ k ∈ keys r, ∀ g ∈ k, g < 2 ^ 64
  home_rank : ∀ r < n, ∀ k ∈ keys r, (home k).rank < n
  home_index : ∀ r < n, ∀ k ∈ keys r, (home k).index < served (home k).rank
  /-- Ranks are written with four bytes. -/
  rank_room : n ≤ 2 ^ 32
  fits : Fits n (fun r => (keys r).map home) served
  settle_room : ∀ r < n, served r * 24 < 2 ^ 63
  keys_room : HasRoom κ UInt64 n (planned n (fun r => (keys r).map home) served) width
  owners_room : HasRoom κ PlaceRecord n (planned n (fun r => (keys r).map home) served) 1

/-- The policy chooses an owner for a key, who is one of the items with that key. -/
def Resolves (n : Nat) (keys : Nat → List (List Nat)) (policy : OwnerPolicy) (key : List Nat) :
    Prop :=
  ∃ owner ∈ namers n keys key, policy (namers n keys key) = some owner

/-- The owner of the items with a key. -/
def ownerOf (n : Nat) (keys : Nat → List (List Nat)) (policy : OwnerPolicy) (key : List Nat) :
    Place :=
  (policy (namers n keys key)).getD default

/-- The items send their keys home, where their owners are chosen, and sent back. -/
def meet [Alphabet κ] (seat : Seat) (servers : List Place) (served width : Nat)
    (numbers : List Nat) (policy : OwnerPolicy) : Proc κ (List Place) := do
  let route ← Route.plan seat servers served
  let keys ← route.carryNumbers seat width numbers
  let back := route.reverse
  let origins := back.near.places
  let copies := Served.list origins (rows width keys) (origins.map fun _ => 0)
  settleServed seat back (byPolicy policy) copies

section

variable {width : Nat} {keys : Nat → List (List Nat)} {home : List Nat → Place}
  {served : Nat → Nat} {policy : OwnerPolicy}

/-- The key of an item. -/
def keyAt (keys : Nat → List (List Nat)) (q : Place) : List Nat := (keys q.rank).getD q.index []

/-- An item whose key has a home is in the list of its rank. -/
theorem keyAt_of_home {q p : Place} (h : ((keys q.rank).map home)[q.index]? = some p) :
    keyAt keys q ∈ keys q.rank ∧ home (keyAt keys q) = p := by
  rw [List.getElem?_map, Option.map_eq_some_iff] at h
  obtain ⟨key, hkey, rfl⟩ := h
  have hat : keyAt keys q = key := by
    rw [keyAt, List.getD_eq_getElem?_getD, hkey, Option.getD_some]
  rw [hat]
  exact ⟨List.mem_of_getElem? hkey, rfl⟩

/-- The copies that meet at a root, numbered from `start` on. -/
def groupAt (n : Nat) (keys : Nat → List (List Nat)) (home : List Nat → Place) (p : Place)
    (start : Nat) : List Served :=
  ((namers n (fun r => (keys r).map home) p).zipIdx start).map fun x =>
    ⟨x.2, x.1, keyAt keys x.1, 0⟩

/-- The copies that meet on rank `s`, root by root. -/
def meetingAt (n : Nat) (keys : Nat → List (List Nat)) (home : List Nat → Place) (s count : Nat) :
    List (List Served) :=
  (List.range count).map fun root => groupAt n keys home ⟨s, root⟩
    (copies n (fun r => (keys r).map home) s root).length

/-- The items that go to a root and have a key are all items with that key. -/
theorem filter_namers_home (key : List Nat) :
    (namers n (fun r => (keys r).map home) (home key)).filter (fun q => keyAt keys q = key) =
      namers n keys key := by
  rw [namers, List.filter_flatMap, namers]
  refine List.flatMap_congr fun r _ => ?_
  rw [List.zipIdx_map, List.filter_map, List.filter_map, List.filter_map, List.map_map,
    List.filter_filter]
  have : ((keys r).zipIdx.filter fun x => x.1 = key) = (keys r).zipIdx.filter
      fun x => decide (keyAt keys ⟨r, x.2⟩ = key) && decide (home x.1 = home key) := by
    refine List.filter_congr fun x hx => ?_
    have hx := List.mem_zipIdx_iff_getElem?.1 hx
    have hkey : keyAt keys ⟨r, x.2⟩ = x.1 := by
      rw [keyAt, List.getD_eq_getElem?_getD, hx, Option.getD_some]
    rw [hkey, ← Bool.decide_and, decide_eq_decide]
    exact ⟨fun h => ⟨h, congrArg home h⟩, And.left⟩
  rw [this]
  rfl

theorem flatten_meetingAt (s count : Nat) : (meetingAt n keys home s count).flatten =
    (copies n (fun r => (keys r).map home) s count).zipIdx.map fun x =>
      ⟨x.2, x.1, keyAt keys x.1, 0⟩ := by
  rw [meetingAt, ← List.flatMap_def, zipIdx_copies, List.map_flatMap]
  rfl

theorem map_length_meetingAt (s : Nat) : (meetingAt n keys home s (served s)).map List.length =
    (planned n (fun r => (keys r).map home) served s).far.fanCounts := by
  rw [Side.fanCounts_map_range rfl, meetingAt, List.map_map]
  refine List.map_congr_left fun root _ => ?_
  rw [copies_succ, List.length_append]
  simp [groupAt]

/-- What a rank makes of the keys that are carried to it. -/
theorem list_delivered (home : List Nat → Place) (served : Nat → Nat)
    (h : ∀ r < n, ∀ k ∈ keys r, k.length = width) (hw : 0 < width) (s : Nat) :
    Served.list (planned n (fun r => (keys r).map home) served s).far.places
      (rows width (delivered (planned n (fun r => (keys r).map home) served) keys s).flatten)
      ((planned n (fun r => (keys r).map home) served s).far.places.map fun _ => 0) =
        (meetingAt n keys home s (served s)).flatten := by
  have hlength : ∀ record ∈ delivered (planned n (fun r => (keys r).map home) served) keys s,
      record.length = width := by
    intro record hrecord
    rw [delivered_planned] at hrecord
    obtain ⟨q, hq, rfl⟩ := List.mem_map.1 hrecord
    obtain ⟨hrank, _, _, hi⟩ := mem_copies.1 hq
    exact h _ hrank _ (keyAt_of_home hi).1
  rw [rows_flatten hw hlength, delivered_planned, places_planned, flatten_meetingAt, Served.list]
  refine List.ext_getElem (by simp) fun i _ _ => ?_
  simp [keyAt]

/-- The copies at a root come in the order of their origins. -/
theorem sorted_groupAt (p : Place) (start : Nat) :
    Served.sorted (groupAt n keys home p start) = groupAt n keys home p start := by
  have htrans : ∀ a b c : Served, a.origin.le b.origin = true → b.origin.le c.origin = true →
      a.origin.le c.origin = true := fun _ _ _ => Place.le_trans
  refine mergeSort_eq_of_perm htrans (fun _ _ => Place.le_total _ _) (.refl _) ?_
  have h : (namers n (fun r => (keys r).map home) p).Pairwise Place.Before := pairwise_namers p
  rw [← List.zipIdx_map_fst start (namers n _ p), List.pairwise_map] at h
  rw [groupAt, List.pairwise_map]
  exact h.imp fun hlt => hlt.le

theorem origins_of_key {p : Place} {key : List Nat} (hp : home key = p) (start : Nat) :
    ((groupAt n keys home p start).filter fun c => c.key = key).map Served.origin =
      namers n keys key := by
  subst hp
  rw [groupAt, List.filter_map, List.map_map]
  exact (map_fst_filter_zipIdx (fun q => decide (keyAt keys q = key)) _ start).trans
    (filter_namers_home key)

/-- The classes at a root are those of the keys at home there, each complete. -/
theorem mem_classes_groupAt {p : Place} {start : Nat} {members : List Served} :
    members ∈ Served.classes (groupAt n keys home p start) ↔
      ∃ r < n, ∃ key ∈ keys r, home key = p ∧
        members = (groupAt n keys home p start).filter fun c => c.key = key := by
  have hkey : ∀ key, key ∈ (groupAt n keys home p start).map Served.key ↔
      ∃ r < n, key ∈ keys r ∧ home key = p := by
    intro key
    have hmap : (groupAt n keys home p start).map Served.key =
        (namers n (fun r => (keys r).map home) p).map (keyAt keys) := by
      rw [groupAt, List.map_map]
      conv_rhs => rw [← List.zipIdx_map_fst start (namers n _ p), List.map_map]
      rfl
    rw [hmap, List.mem_map]
    constructor
    · rintro ⟨q, hq, rfl⟩
      obtain ⟨hrank, hi⟩ := mem_namers.1 hq
      obtain ⟨hmem, hp⟩ := keyAt_of_home hi
      exact ⟨q.rank, hrank, hmem, hp⟩
    · rintro ⟨r, hr, hmem, rfl⟩
      obtain ⟨i, hi⟩ := List.mem_iff_getElem?.1 hmem
      refine ⟨⟨r, i⟩, mem_namers.2 ⟨hr, ?_⟩, ?_⟩
      · rw [List.getElem?_map, hi, Option.map_some]
      · rw [keyAt, List.getD_eq_getElem?_getD, hi, Option.getD_some]
  rw [Served.classes, List.mem_map]
  constructor
  · rintro ⟨key, hmem, rfl⟩
    obtain ⟨r, hr, hk, hp⟩ := (hkey key).1 (List.mem_eraseDups.1 hmem)
    exact ⟨r, hr, key, hk, hp, rfl⟩
  · rintro ⟨r, hr, key, hk, hp, rfl⟩
    exact ⟨key, List.mem_eraseDups.2 ((hkey key).2 ⟨r, hr, hk, hp⟩), rfl⟩

/-- A rank settles all keys that are at home on it, if the policy resolves them. -/
theorem settle_meetingAt {s count : Nat}
    (h : ∀ r < n, ∀ key ∈ keys r, (home key).rank = s → Resolves n keys policy key) :
    settle (byPolicy policy) ((meetingAt n keys home s count).map List.length)
      (meetingAt n keys home s count).flatten =
        .ok ((copies n (fun r => (keys r).map home) s count).map fun q =>
          ownerOf n keys policy (keyAt keys q)) := by
  have hslots : (meetingAt n keys home s count).flatten.Pairwise fun a b => a.slot < b.slot := by
    rw [flatten_meetingAt, List.pairwise_map]
    exact pairwise_zipIdx _ 0
  rw [settle_eq_ok (fun c => ownerOf n keys policy c.key) hslots]
  · rw [flatten_meetingAt, List.map_map]
    conv_rhs => rw [← List.zipIdx_map_fst 0 (copies n _ s count), List.map_map]
    rfl
  · intro group hgroup members hmembers
    obtain ⟨root, _, rfl⟩ := List.mem_map.1 hgroup
    rw [sorted_groupAt] at hmembers
    obtain ⟨r, hr, key, hkey, hp, rfl⟩ := mem_classes_groupAt.1 hmembers
    have horigins : ((groupAt n keys home ⟨s, root⟩ (copies n (fun r => (keys r).map home) s
        root).length).filter fun c => c.key = key).map Served.origin = namers n keys key :=
      origins_of_key hp _
    obtain ⟨owner, hmem, hchoose⟩ := h r hr key hkey (by rw [hp])
    refine ⟨owner, horigins ▸ hmem, ?_, fun c hc => ?_⟩
    · rw [byPolicy, horigins, hchoose]
    · have hc : c.key = key := by simpa using (List.mem_filter.1 hc).2
      rw [hc, ownerOf, hchoose, Option.getD_some]

/-- A rank on which a key is at home that the policy does not resolve reports it. -/
theorem settle_meetingAt_error {s count r : Nat} (hr : r < n) {key : List Nat} (hkey : key ∈ keys r)
    (hrank : (home key).rank = s) (hindex : (home key).index < count)
    (h : ¬ Resolves n keys policy key) :
    ∃ vertex owner, settle (byPolicy policy) ((meetingAt n keys home s count).map List.length)
      (meetingAt n keys home s count).flatten = .error (.unresolved vertex owner) := by
  have hp : home key = ⟨s, (home key).index⟩ := by rw [← hrank]
  let start := (copies n (fun r => (keys r).map home) s (home key).index).length
  refine settle_eq_error ⟨groupAt n keys home ⟨s, (home key).index⟩ start,
    List.mem_map.2 ⟨(home key).index, List.mem_range.2 hindex, rfl⟩,
    (groupAt n keys home ⟨s, (home key).index⟩ start).filter fun c => c.key = key, ?_, ?_⟩
  · rw [sorted_groupAt]
    exact mem_classes_groupAt.2 ⟨r, hr, key, hkey, hp, rfl⟩
  · rintro ⟨owner, hmem, hchoose⟩
    rw [byPolicy] at hchoose
    rw [origins_of_key hp] at hmem hchoose
    exact h ⟨owner, hmem, hchoose⟩

/-! ## All ranks -/

variable [Alphabet κ]

theorem Meeting.sound (h : Meeting κ n width keys home served) :
    Sound n (fun r => (keys r).map home) served := by
  constructor <;> intro r hr p hp <;> obtain ⟨k, hk, rfl⟩ := List.mem_map.1 hp
  · exact h.home_rank r hr k hk
  · exact h.home_index r hr k hk

/-- The owner of a key is an item that is there. -/
theorem Meeting.owner_lt (h : Meeting κ n width keys home served) {key : List Nat}
    (hkey : Resolves n keys policy key) :
    (ownerOf n keys policy key).rank < 2 ^ 32 ∧ (ownerOf n keys policy key).index < 2 ^ 64 := by
  obtain ⟨owner, hmem, hchoose⟩ := hkey
  obtain ⟨hrank, hi⟩ := mem_namers.1 hmem
  have hlength := h.fits.items_lt hrank
  rw [List.length_map] at hlength
  rw [ownerOf, hchoose, Option.getD_some]
  exact ⟨Nat.lt_of_lt_of_le hrank h.rank_room,
    (List.getElem?_eq_some_iff.1 hi).1.trans hlength⟩

/-- If there is room for what the roots settle on, owners are found and reported. -/
theorem settleServed_together {targets : Nat → List Place} {roots : Nat → Nat}
    (choose : Nat → List Served → Option Place) (hroom : ∀ r < n, roots r * 24 < 2 ^ 63)
    {copies : Nat → List Served} {y : Nat → Checked (List Place)}
    (hreport : Together n (List.range n) (fun r =>
      (reportOwners (κ := κ) (Seat.of r n) (planned n targets roots r).reverse
        (settle (choose r) (planned n targets roots r).far.fanCounts (copies r))).toProgram) y) :
    Together n (List.range n) (fun r => (settleServed (κ := κ) (Seat.of r n)
      (planned n targets roots r).reverse (choose r) (copies r)).toProgram) y := by
  refine Together.ofCheckedThen (a := fun _ => ()) (fun r hr => checkRoom_eq_ok ?_) hreport
  rw [show (planned n targets roots r).reverse.near.rootCount = roots r from
    rootCount_far_planned r]
  exact hroom r (List.mem_range.1 hr)

variable [LawfulAlphabet κ]

/-- The ranks plan the routes to the homes of their keys, and send the keys there. -/
theorem Meeting.sendKeys_together {β : Type} (h : Meeting κ n width keys home served)
    {f : Nat → Route → List Nat → Proc κ β} {y : Nat → Checked β}
    (hf : Together n (List.range n) (fun r =>
      (f r (planned n (fun r => (keys r).map home) served r)
        (delivered (planned n (fun r => (keys r).map home) served) keys r).flatten).toProgram) y) :
    Together n (List.range n) (fun r => (do
      let route ← Route.plan (Seat.of r n) ((keys r).map home) (served r)
      let numbers ← route.carryNumbers (Seat.of r n) width (keys r).flatten
      f r route numbers : Proc κ β).toProgram) y := by
  have hitems : Records n (fun r => (planned n (fun r => (keys r).map home) served r).near) width
      keys := fun r hr => ⟨by rw [itemCount_planned, List.length_map], h.length_key r hr⟩
  refine Together.andThen (plan_together h.sound h.fits) ?_
  exact Together.andThen (carryNumbers_together (paired_planned h.sound) h.width_pos h.keys_room
    hitems h.word_key) hf

/-- What the ranks do before the owners are reported. -/
theorem meet_together_of_report (h : Meeting κ n width keys home served)
    {y : Nat → Checked (List Place)}
    (hreport : Together n (List.range n) (fun r =>
      (reportOwners (κ := κ) (Seat.of r n) (planned n (fun r => (keys r).map home) served r).reverse
        (settle (byPolicy policy) ((meetingAt n keys home r (served r)).map List.length)
          (meetingAt n keys home r (served r)).flatten)).toProgram) y) :
    Together n (List.range n) (fun r => (meet (κ := κ) (Seat.of r n) ((keys r).map home) (served r)
      width (keys r).flatten policy).toProgram) y := by
  refine h.sendKeys_together (settleServed_together _ h.settle_room
    (hreport.congr (fun r _ => ?_) fun _ _ => rfl))
  have hlist := list_delivered home served h.length_key h.width_pos r
  rw [map_length_meetingAt, ← hlist]
  rfl

/-- If the policy resolves all keys, each item is told the owner of its key. -/
theorem report_together (h : Meeting κ n width keys home served)
    (hresolves : ∀ r < n, ∀ key ∈ keys r, Resolves n keys policy key) :
    Together n (List.range n) (fun r =>
      (reportOwners (κ := κ) (Seat.of r n) (planned n (fun r => (keys r).map home) served r).reverse
        (settle (byPolicy policy) ((meetingAt n keys home r (served r)).map List.length)
          (meetingAt n keys home r (served r)).flatten)).toProgram)
      (fun r => .ok ((keys r).map (ownerOf n keys policy))) := by
  refine Together.allPassThen (fun r _ => settle_meetingAt fun r' hr' key hkey _ =>
    hresolves r' hr' key hkey) ?_
  -- the owners go back on the reverse of the route on which the keys came
  refine (carryPlaces_together (paired_planned h.sound).reverse h.owners_room.reverse
    (fun r _ => ?_) fun r hr p hp => ?_).congr (fun _ _ => rfl) fun r hr => congrArg Except.ok ?_
  · simp [planned, reverse, Side.itemCount]
  · obtain ⟨q, hq, rfl⟩ := List.mem_map.1 hp
    obtain ⟨hrank, _, _, hi⟩ := mem_copies.1 hq
    exact h.owner_lt (hresolves _ hrank _ (keyAt_of_home hi).1)
  · rw [map_far_reverse_planned h.sound (List.mem_range.1 hr)
      (fun q => ownerOf n keys policy (keyAt keys q)), List.length_map]
    refine List.ext_getElem (by simp) fun i hi _ => ?_
    have hi : i < (keys r).length := by simpa using hi
    simp [keyAt, hi]

/-- If the policy does not resolve some key, no rank is told any owner, and a rank on which such
    a key is at home reports it. -/
theorem report_together_error (h : Meeting κ n width keys home served) {r : Nat} (hr : r < n)
    {key : List Nat} (hkey : key ∈ keys r) (hfails : ¬ Resolves n keys policy key) :
    ∃ e : Nat → MeshError, Together n (List.range n) (fun r =>
      (reportOwners (κ := κ) (Seat.of r n) (planned n (fun r => (keys r).map home) served r).reverse
        (settle (byPolicy policy) ((meetingAt n keys home r (served r)).map List.length)
          (meetingAt n keys home r (served r)).flatten)).toProgram) (fun r => .error (e r)) ∧
      ∀ r < n, ∀ key ∈ keys r, ¬ Resolves n keys policy key →
        ∃ vertex owner, e (home key).rank = .unresolved vertex owner := by
  let settled : Nat → Checked (List Place) := fun s =>
    settle (byPolicy policy) ((meetingAt n keys home s (served s)).map List.length)
      (meetingAt n keys home s (served s)).flatten
  have hunresolved : ∀ r < n, ∀ key ∈ keys r, ¬ Resolves n keys policy key →
      ∃ vertex owner, settled (home key).rank = .error (.unresolved vertex owner) :=
    fun r hr key hkey hfails => settle_meetingAt_error hr hkey rfl (h.home_index r hr key hkey)
      hfails
  obtain ⟨vertex, owner, herror⟩ := hunresolved r hr key hkey hfails
  obtain ⟨e, he⟩ := Classical.skolem.1
    (agreed_eq_error .duplicateOwners (h.home_rank r hr key hkey) herror)
  refine ⟨e, Together.orFail ?_, fun r hr key hkey hfails => ?_⟩
  · exact (allPass_together .duplicateOwners settled).congr (fun _ _ => rfl) fun s _ => he s
  · obtain ⟨vertex, owner, herror⟩ := hunresolved r hr key hkey hfails
    exact ⟨vertex, owner, Except.error.inj ((he _).symm.trans (agreed_of_error herror))⟩

/-- If the policy resolves all keys, each item gets the owner of its key. -/
theorem meet_together (h : Meeting κ n width keys home served)
    (hresolves : ∀ r < n, ∀ key ∈ keys r, Resolves n keys policy key) :
    Together n (List.range n) (fun r => (meet (κ := κ) (Seat.of r n) ((keys r).map home) (served r)
      width (keys r).flatten policy).toProgram)
      (fun r => .ok ((keys r).map (ownerOf n keys policy))) :=
  meet_together_of_report h (report_together h hresolves)

/-- If the policy does not resolve some key, all ranks fail, and a rank on which such a key
    is at home reports it. -/
theorem meet_together_error (h : Meeting κ n width keys home served) {r : Nat} (hr : r < n)
    {key : List Nat} (hkey : key ∈ keys r) (hfails : ¬ Resolves n keys policy key) :
    ∃ e : Nat → MeshError, Together n (List.range n) (fun r => (meet (κ := κ) (Seat.of r n)
        ((keys r).map home) (served r) width (keys r).flatten policy).toProgram)
          (fun r => .error (e r)) ∧
      ∀ r < n, ∀ key ∈ keys r, ¬ Resolves n keys policy key →
        ∃ vertex owner, e (home key).rank = .unresolved vertex owner := by
  obtain ⟨e, hreport, he⟩ := report_together_error h hr hkey hfails
  exact ⟨e, meet_together_of_report h hreport, he⟩

end

end SharedMesh
