import Mathlib.Data.Nat.Basic

/-!
# The reflected Gray code

The blocks of a grid are visited in the order of a Gray code: a list of digits, one for each
axis, has a rank (`grayRank`), and from one rank to the next only one digit changes. More is
true, which makes the curve go on from a block into the next one: the digits after the one that
changes lead to the side where these blocks meet (`grayStep_of_rank`).
-/

namespace SharedMesh.Hilbert

-- Powers are those of core, also beside Mathlib.
attribute [local instance (high)] instPowNat

/-- The place of some digits in the Gray code. A digit counts for itself or, after an odd
    number of ones, for the other one. -/
def grayRank : Bool → List Bool → Nat
  | _, [] => 0
  | odd, digit :: digits =>
    2 ^ digits.length * (digit ^^ odd).toNat + grayRank (digit ^^ odd) digits

/-! ## Ranks -/

section

variable {odd digit : Bool} {digits digits' : List Bool}

theorem grayRank_lt (odd : Bool) (digits : List Bool) :
    grayRank odd digits < 2 ^ digits.length := by
  induction digits generalizing odd with
  | nil => exact Nat.one_pos
  | cons digit digits ih =>
    have hrest := ih (digit ^^ odd)
    have hbit : 2 ^ digits.length * (digit ^^ odd).toNat ≤ 2 ^ digits.length * 1 :=
      Nat.mul_le_mul_left _ (Bool.toNat_le _)
    rw [grayRank, List.length_cons, Nat.pow_succ]
    omega

theorem grayRank_cons_of_false (h : (digit ^^ odd) = false) (digits : List Bool) :
    grayRank odd (digit :: digits) = grayRank false digits := by
  rw [grayRank, h, Bool.toNat_false, Nat.mul_zero, Nat.zero_add]

theorem grayRank_cons_of_true (h : (digit ^^ odd) = true) (digits : List Bool) :
    grayRank odd (digit :: digits) = 2 ^ digits.length + grayRank true digits := by
  rw [grayRank, h, Bool.toNat_true, Nat.mul_one]

/-- After an odd number of ones, ranks are counted from the other end. -/
theorem grayRank_flip (digits : List Bool) :
    grayRank true digits + grayRank false digits + 1 = 2 ^ digits.length := by
  induction digits with
  | nil => rfl
  | cons digit digits ih =>
    rw [List.length_cons, Nat.pow_succ]
    cases digit with
    | false =>
      rw [grayRank_cons_of_true rfl, grayRank_cons_of_false rfl]
      omega
    | true =>
      rw [grayRank_cons_of_false rfl, grayRank_cons_of_true rfl]
      omega

/-- Different digits have different ranks. -/
theorem grayRank_inj (hlength : digits.length = digits'.length)
    (h : grayRank odd digits = grayRank odd digits') : digits = digits' := by
  induction digits generalizing odd digits' with
  | nil => exact (List.eq_nil_of_length_eq_zero hlength.symm).symm
  | cons digit digits ih =>
    cases digits' with
    | nil => cases hlength
    | cons digit' digits' =>
      have hrest : digits.length = digits'.length := Nat.succ.inj hlength
      have hlt := grayRank_lt false digits
      have hlt' := grayRank_lt false digits'
      cases hbit : digit ^^ odd <;> cases hbit' : digit' ^^ odd
      all_goals
        simp only [grayRank_cons_of_false, grayRank_cons_of_true, hbit, hbit', ← hrest] at h hlt'
      · rw [Bool.xor_left_inj.1 (hbit.trans hbit'.symm), ih hrest h]
      · omega
      · omega
      · rw [Bool.xor_left_inj.1 (hbit.trans hbit'.symm), ih hrest (Nat.add_left_cancel h)]

end

/-! ## Steps -/

/-- On which side of a block the curve comes to one of its ends along the first axis, by the
    digits of the other axes. `last` says whether this stands for the last cell of the smaller
    grid, or for the first one. -/
def side (last : Bool) : List Bool → Bool
  | [] => last
  | digit :: digits => digit && !side last digits

/-- Digits of which one changes, on the way from a block to the next. The digits after it say
    that the curve is on the side where these blocks meet. -/
inductive GrayStep (last : Bool) : List Bool → List Bool → Prop
  | here {digit : Bool} {digits : List Bool} :
    side last digits = true → GrayStep last (digit :: digits) ((!digit) :: digits)
  | there {digit : Bool} {digits digits' : List Bool} :
    GrayStep last digits digits' → GrayStep last (digit :: digits) (digit :: digits')

section

variable {odd digit : Bool} {digits digits' : List Bool}

theorem side_eq_false (h : grayRank false digits = 0) : side false digits = false := by
  match digits with
  | [] => rfl
  | false :: _ => rfl
  | true :: digits =>
    have := Nat.two_pow_pos digits.length
    rw [grayRank_cons_of_true rfl] at h
    omega

/-- Where the digits after a change are the first ones, the curve is on the side where the
    blocks meet. -/
theorem side_eq_true (h : grayRank true digits = 0) :
    side (decide (grayRank false digits % 2 = 0)) digits = true := by
  match digits with
  | [] => rfl
  | false :: digits =>
    have := Nat.two_pow_pos digits.length
    rw [grayRank_cons_of_true rfl] at h
    omega
  | true :: digits =>
    have hflip := grayRank_flip (true :: digits)
    rw [h, List.length_cons, Nat.pow_succ] at hflip
    rw [grayRank_cons_of_false rfl] at h
    rw [decide_eq_false (by omega), side, side_eq_false h]
    rfl

/-- From one rank to the next, one digit changes. -/
theorem grayStep_of_rank (hlength : digits.length = digits'.length)
    (h : grayRank odd digits' = grayRank odd digits + 1) :
    GrayStep (decide (grayRank odd digits % 2 = 0)) digits digits' := by
  induction digits generalizing odd digits' with
  | nil =>
    obtain rfl := List.eq_nil_of_length_eq_zero hlength.symm
    cases h
  | cons digit digits ih =>
    cases digits' with
    | nil => cases hlength
    | cons digit' digits' =>
      have hrest : digits.length = digits'.length := Nat.succ.inj hlength
      by_cases hdigit : digit' = digit
      · -- the step is among the other digits, of which there are some
        subst hdigit
        have hnext : grayRank (digit' ^^ odd) digits' = grayRank (digit' ^^ odd) digits + 1 := by
          rw [grayRank, grayRank, ← hrest] at h
          omega
        have hlt := grayRank_lt (digit' ^^ odd) digits'
        obtain ⟨n, hn⟩ : ∃ n, digits.length = n + 1 :=
          Nat.exists_eq_succ_of_ne_zero fun hnil => by
            rw [← hrest, hnil] at hlt
            omega
        have heven : grayRank odd (digit' :: digits) % 2 = grayRank (digit' ^^ odd) digits % 2 := by
          rw [grayRank, hn, Nat.pow_succ, Nat.mul_right_comm, Nat.mul_add_mod_self_right]
        rw [heven]
        exact .there (ih hrest hnext)
      · -- the other digits are the last ones before the step, and the first ones after it
        obtain rfl : digit' = !digit := Bool.eq_not.2 hdigit
        have hlt' := grayRank_lt false digits'
        have hflip := grayRank_flip digits
        rw [← hrest] at hlt'
        cases hbit : digit ^^ odd with
        | true =>
          have hbit' : (!digit ^^ odd) = false := by rw [Bool.not_xor, hbit]; rfl
          rw [grayRank_cons_of_true hbit, grayRank_cons_of_false hbit'] at h
          omega
        | false =>
          have hbit' : (!digit ^^ odd) = true := by rw [Bool.not_xor, hbit]; rfl
          rw [grayRank_cons_of_false hbit, grayRank_cons_of_true hbit', ← hrest] at h
          have hfirst : grayRank true digits' = grayRank true digits := by omega
          obtain rfl := grayRank_inj hrest hfirst.symm
          rw [grayRank_cons_of_false hbit]
          exact .here (side_eq_true (by omega))

end

end SharedMesh.Hilbert
