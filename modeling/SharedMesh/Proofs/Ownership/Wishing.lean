import SharedMesh.Proofs.Ownership.Failing

/-!
# Wishes are a policy

The wishes of copies travel apart from their numbers, on the same route, so both arrive in the
order of the copies (`flatten_delivered_wishes`). A rank that settles copies by their wishes
then does what it would do without any, by the policy of those who know all wishes
(`settle_byWish`). So what is known of policies holds of wishes as well
(`ownersOfNumbers_together_of_report`), and what that policy chooses can be said in terms of the
wishes (`wishPolicy_eq_some_iff`).
-/

namespace SharedMesh

open Route

variable {n : Nat} {wishes : Nat → List Nat}

/-- The rank that the item in a place wishes to be owned by. -/
def wishAt (wishes : Nat → List Nat) (q : Place) : Nat := (wishes q.rank).getD q.index 0

/-- The policy by which the first copy on the rank that all copies wish for is the owner. -/
def wishPolicy (wishes : Nat → List Nat) : OwnerPolicy
  | [] => none
  | first :: rest =>
    if (first :: rest).all fun q => wishAt wishes q = wishAt wishes first then
      Place.first? ((first :: rest).filter fun q => q.rank = wishAt wishes first)
    else none

/-- The policy that decides: that of the wishes, if there are any. -/
def decider (wishes : Option (Nat → List Nat)) (policy : OwnerPolicy) : OwnerPolicy :=
  wishes.elim policy wishPolicy

/-! ## What the policy chooses -/

/-- The policy chooses the first copy on the rank that all copies wish for. -/
theorem wishPolicy_eq_some_iff {places : List Place} (h : places.Pairwise Place.Before)
    {owner : Place} : wishPolicy wishes places = some owner ↔
      owner ∈ places ∧ (∀ q ∈ places, wishAt wishes q = owner.rank) ∧
        ∀ q ∈ places, q.rank = owner.rank → owner.index ≤ q.index := by
  cases places with
  | nil => simp [wishPolicy]
  | cons first rest =>
    have hfiltered := h.filter fun q => q.rank = wishAt wishes first
    rw [wishPolicy, first?_of_pairwise hfiltered]
    constructor
    · intro hchosen
      split at hchosen
      · next hall =>
        have hall : ∀ q ∈ first :: rest, wishAt wishes q = wishAt wishes first := by
          simpa only [List.all_eq_true, decide_eq_true_eq] using hall
        obtain ⟨others, hothers⟩ := List.head?_eq_some_iff.1 hchosen
        have hmem := List.mem_filter.1 (hothers ▸ List.mem_cons_self)
        have hrank : owner.rank = wishAt wishes first := by simpa using hmem.2
        refine ⟨hmem.1, fun q hq => (hall q hq).trans hrank.symm, fun q hq hqrank => ?_⟩
        -- the owner comes before the others on its rank
        have hq : q ∈ owner :: others :=
          hothers ▸ List.mem_filter.2 ⟨hq, by simpa using hqrank.trans hrank⟩
        rw [hothers] at hfiltered
        rcases List.mem_cons.1 hq with rfl | hq
        · exact Nat.le_refl _
        · rcases (List.pairwise_cons.1 hfiltered).1 q hq with hlt | ⟨_, hlt⟩
          · exact absurd hqrank (Nat.ne_of_gt hlt)
          · exact Nat.le_of_lt hlt
      · cases hchosen
    · rintro ⟨hmem, hall, hleast⟩
      have hfirst : wishAt wishes first = owner.rank := hall first List.mem_cons_self
      rw [if_pos (by simpa only [List.all_eq_true, decide_eq_true_eq, hfirst] using hall)]
      cases hothers : (first :: rest).filter fun q => q.rank = wishAt wishes first with
      | nil => exact absurd (List.filter_eq_nil_iff.1 hothers owner hmem) (by simp [hfirst])
      | cons p others =>
        -- the first copy on the rank is no later than the owner, and the owner no later than it
        have hp := List.mem_filter.1 (hothers ▸ List.mem_cons_self)
        have hprank : p.rank = owner.rank := by simpa [hfirst] using hp.2
        have howner : owner ∈ p :: others :=
          hothers ▸ List.mem_filter.2 ⟨hmem, by simp [hfirst]⟩
        rw [hothers] at hfiltered
        rcases List.mem_cons.1 howner with rfl | howner
        · rfl
        · have hle := hleast p hp.1 hprank
          rcases (List.pairwise_cons.1 hfiltered).1 owner howner with hlt | ⟨_, hlt⟩ <;> omega

/-! ## Settling by wishes -/

/-- A copy with the wish of its origin. -/
def Served.withWish (wishes : Nat → List Nat) (c : Served) : Served :=
  { c with wish := wishAt wishes c.origin }

theorem byWish_withWish (wishes : Nat → List Nat) (members : List Served) :
    byWish (members.map (Served.withWish wishes)) = byPolicy (wishPolicy wishes) members := by
  cases members with
  | nil => rfl
  | cons first rest =>
    simp only [byWish, byPolicy, wishPolicy, Served.withWish, List.map_cons, List.map_map,
      List.all_cons, List.all_map, Function.comp_def]
    rfl

theorem list_withWish (origins : List Place) (keys : List (List Nat)) :
    Served.list origins keys (origins.map (wishAt wishes)) =
      (Served.list origins keys (origins.map fun _ => 0)).map (Served.withWish wishes) := by
  refine List.ext_getElem (by simp [Served.list]) fun i _ _ => ?_
  simp [Served.list, Served.withWish]

/-- Copies are settled by their wishes as by the policy that knows these. -/
theorem settle_byWish (wishes : Nat → List Nat) (counts : List Nat) (origins : List Place) (keys : List (List Nat)) :
    settle byWish counts (Served.list origins keys (origins.map (wishAt wishes))) =
      settle (byPolicy (wishPolicy wishes)) counts
        (Served.list origins keys (origins.map fun _ => 0)) := by
  rw [list_withWish,
    settle_map (f := Served.withWish wishes) (fun _ => rfl) (fun _ => rfl) fun _ => rfl]
  simp only [byWish_withWish]

/-- The wishes arrive in the order of the copies. -/
theorem flatten_delivered_wishes {targets : Nat → List Place} {roots : Nat → Nat}
    (h : ∀ r < n, (wishes r).length = (targets r).length) (r : Nat) :
    (delivered (planned n targets roots) (fun s => (wishes s).map fun wish => [wish]) r).flatten =
      (planned n targets roots r).far.places.map (wishAt wishes) := by
  have hwish : ∀ q ∈ copies n targets r (roots r),
      ((wishes q.rank).map fun wish => [wish]).getD q.index [] = [wishAt wishes q] := by
    intro q hq
    obtain ⟨hrank, _, _, htarget⟩ := mem_copies.1 hq
    have hindex : q.index < (wishes q.rank).length := by
      rw [h _ hrank]
      exact (List.getElem?_eq_some_iff.1 htarget).1
    simp [wishAt, hindex]
  rw [delivered_planned, List.map_congr_left hwish, flatten_singletons, places_planned]

/-! ## All ranks -/

section

variable {κ : Type} [Alphabet κ] [LawfulAlphabet κ] {policy : OwnerPolicy}

/-- What the ranks do before the owners are reported: with wishes, these are carried as well. -/
theorem serve_together_of_report {keys : Nat → List (List Nat)} {home : List Nat → Place}
    {served : Nat → Nat} (h : Meeting κ n 1 keys home served) {wishes : Option (Nat → List Nat)}
    (hwishes : WishesFor n (fun r => (keys r).map home) wishes) {y : Nat → Checked (List Place)}
    (hreport : Together n (List.range n) (fun r =>
      (reportOwners (κ := κ) (Seat.of r n) (planned n (fun r => (keys r).map home) served r).reverse
        (settle (byPolicy (decider wishes policy))
          ((meetingAt n keys home r (served r)).map List.length)
          (meetingAt n keys home r (served r)).flatten)).toProgram) y) :
    Together n (List.range n) (fun r => (serve (κ := κ) (Seat.of r n) ((keys r).map home) (served r)
      1 (keys r).flatten (wishes.map (· r)) policy).toProgram) y := by
  cases wishes with
  | none => exact meet_together_of_report h hreport
  | some wishes =>
    refine h.sendKeys_together (Together.andThen
      (carryWishes_together h.sound h.keys_room hwishes)
        (settleServed_together (fun _ => byWish) h.settle_room
          (hreport.congr (fun r _ => ?_) fun _ _ => rfl)))
    have hlist := list_delivered home served h.length_key h.width_pos r
    have hsettle := settle_byWish wishes
      (planned n (fun r => (keys r).map home) served r).far.fanCounts
      (planned n (fun r => (keys r).map home) served r).far.places
      (rows 1 (delivered (planned n (fun r => (keys r).map home) served) keys r).flatten)
    rw [flatten_delivered_wishes fun r hr => (hwishes r hr).1, map_length_meetingAt, ← hlist]
    exact congrArg (fun owners => (reportOwners (κ := κ) (Seat.of r n)
      (planned n (fun r => (keys r).map home) served r).reverse owners).toProgram) hsettle.symm

/-- Finding owners ends as reporting them does, by the wishes or by the policy. -/
theorem ownersOfNumbers_together_of_report {numbers : Nat → List Nat}
    (hnumbers : ∀ r < n, ∀ g ∈ numbers r, g < 2 ^ 64 - 2)
    (hroom : MeetingRoom n 1 numbers fun r => numberKeys (numbers r))
    {wishes : Option (Nat → List Nat)}
    (hwishes : ∀ list ∈ wishes, ∀ r < n,
      (list r).length = (numbers r).length ∧ ∀ w ∈ list r, w < 2 ^ 64)
    {y : Nat → Checked (List Place)}
    (hreport : Together n (List.range n) (fun r => (reportOwners (κ := κ) (Seat.of r n)
      (planned n (fun r => (numberKeys (numbers r)).map (homeOf n numbers))
        (sharesOf n numbers).length r).reverse
      (settle (byPolicy (decider wishes policy))
        ((meetingAt n (fun r => numberKeys (numbers r)) (homeOf n numbers) r
          ((sharesOf n numbers).length r)).map List.length)
        (meetingAt n (fun r => numberKeys (numbers r)) (homeOf n numbers) r
          ((sharesOf n numbers).length r)).flatten)).toProgram) y) :
    Together n (List.range n) (fun r => (ownersOfNumbers (κ := κ) (Seat.of r n) (numbers r)
      (wishes.map (· r)) policy).toProgram) y := by
  have hkeyed := keyed_numberKeys hnumbers
  have hwishes' : WishesFor n (fun r => (numberKeys (numbers r)).map (homeOf n numbers)) wishes := by
    cases wishes with
    | none => trivial
    | some list =>
      intro r hr
      rw [List.length_map, numberKeys, List.length_map]
      exact hwishes list rfl r hr
  have hchecked : ∀ r < n, checkWishes (numbers r) (wishes.map (· r)) = .ok () := by
    intro r hr
    cases wishes with
    | none => rfl
    | some list => exact if_neg (not_not_intro (hwishes list rfl r hr).1)
  have hserve := serve_together_of_report (hkeyed.meeting (κ := κ) hroom) hwishes' hreport
  have hhomes := hkeyed.findHomes_together (y := y) (f := fun r servers served =>
    serve (κ := κ) (Seat.of r n) servers served 1 (numberKeys (numbers r)).flatten
      (wishes.map (· r)) policy)
  have hfound := hhomes hserve
  simp only [headD_numberKeys, flatten_numberKeys] at hfound
  refine Together.allPassThen (a := fun _ => ()) hchecked
    (hfound.congr (fun r _ => ?_) fun _ _ => rfl)
  cases wishes <;> rfl

end

end SharedMesh
