import SharedMesh.Proofs.Ownership.FirstCopies
import SharedMesh.Proofs.Ownership.Homes

/-!
# Room for copies

No rank sees more copies than there are items on all ranks. So if the items of all ranks
could be held on one, every rank has room for what it sees (`meetingRoom_of_shares`,
`numberingRoom_of_sum`).
-/

namespace SharedMesh

open Route

variable {n : Nat}

theorem meetingRoom_of_shares {width : Nat} {numbers : Nat → List Nat}
    {keys : Nat → List (List Nat)} (hn : n ≤ 2 ^ 32)
    (hshares : ∀ r < n, (sharesOf n numbers).length r * 24 < 2 ^ 63)
    (hkeys : itemTotal n keys * width * 8 < 2 ^ 63) (harrivals : itemTotal n keys * 32 < 2 ^ 63) :
    MeetingRoom n width numbers keys := by
  have hbound : ∀ k ≤ itemTotal n keys, k * width * 8 < 2 ^ 63 ∧ k * 32 < 2 ^ 63 := by
    intro k hk
    have := Nat.mul_le_mul_right width hk
    omega
  have hcopies : ∀ r, meetingCount n numbers keys r ≤ itemTotal n keys := by
    intro r
    refine (length_copies_le_sum _ r _).trans_eq ?_
    simp [itemTotal]
  exact ⟨hn, hshares, fun r hr => hbound _ (length_le_itemTotal keys hr),
    fun r _ => hbound _ (hcopies r)⟩

theorem numberingRoom_of_sum {owners : Nat → List Place} (h : itemTotal n owners * 32 < 2 ^ 63) :
    NumberingRoom n owners := by
  constructor
  case items_room =>
    intro r hr
    have := length_le_itemTotal owners hr
    omega
  case arrivals_room =>
    intro r _
    have := length_arriving_le_sum (n := n) owners r
    omega
  case total_lt =>
    have hle : (allOwned n owners).length ≤ itemTotal n owners := by
      rw [allOwned, List.length_flatMap, itemTotal]
      refine List.sum_le_sum fun r _ => (List.length_filter_le _ _).trans_eq ?_
      simp [Place.own]
    omega

end SharedMesh
