import Mathlib.Data.Nat.Log
import Mathlib.Tactic.FieldSimp
import Mathlib.Tactic.Linarith
import Mathlib.Tactic.Positivity
import Mathlib.Tactic.Ring
import Mathlib.Algebra.Order.Field.Rat
import SharedMesh.Bisection.Recursive

/-!
# Halving shares

A group of ranks has a share of some mass. If it is halved, each half may miss its part of
the share by some of the group's mean (`Halves`). The misses of all levels add up to no more
than one miss per level: a half that has to be halved again has at least two ranks, so that
its mean is missed by less than it was given leave to (`Halves.chain`).
-/

namespace SharedMesh

/-! ## The number of halvings -/

theorem halvings_of_le_one {n : Nat} (h : n ≤ 1) : halvings n = 0 := if_pos h

theorem halvings_succ_log2 {n : Nat} (h : 1 < n) : halvings n = Nat.log2 (n - 1) + 1 :=
  if_neg (Nat.not_le.2 h)

theorem log2_div_two {n : Nat} (h : 2 ≤ n) : Nat.log2 (n / 2) + 1 = Nat.log2 n := by
  conv_rhs => rw [Nat.log2_def, if_pos h]

theorem log2_mono {m n : Nat} (h : m ≤ n) : Nat.log2 m ≤ Nat.log2 n := by
  rw [Nat.log2_eq_log_two, Nat.log2_eq_log_two]
  exact Nat.log_mono_right h

/-- Either half of a group is halved less often. -/
theorem halvings_half_lt {n k : Nat} (hn : 1 < n) (hk : k ≤ n - n / 2) :
    halvings k < halvings n := by
  rw [halvings_succ_log2 hn]
  rcases Nat.lt_or_ge 1 k with hlt | hle
  · rw [halvings_succ_log2 hlt, ← log2_div_two (by omega : 2 ≤ n - 1)]
    have := log2_mono (by omega : k - 1 ≤ (n - 1) / 2)
    omega
  · rw [halvings_of_le_one hle]
    exact Nat.succ_pos _

/-! ## Shares -/

/-- The mass of a group of ranks, and how many ranks it has. -/
structure GroupShare where
  size : Nat
  mass : ℚ

/-- The fair share of a rank. -/
def GroupShare.mean (s : GroupShare) : ℚ := s.mass / s.size

/-- One half of a group, which may miss its part of the mass by a part `ε` of the group's
    mean. A rank that is alone keeps its mass. -/
structure Halves (ε : ℚ) (whole part : GroupShare) : Prop where
  alone : whole.size ≤ 1 → part = whole
  size_pos : 1 < whole.size → 0 < part.size
  size_le : 1 < whole.size → part.size ≤ whole.size - whole.size / 2
  near : 1 < whole.size → |part.mass - part.size * whole.mean| ≤ ε * whole.mean

namespace Halves

variable {ε : ℚ} {whole part : GroupShare}

/-- The means of a group and of its half. -/
theorem mean_near (h : Halves ε whole part) (hsize : 1 < whole.size) :
    |part.mean - whole.mean| ≤ ε * whole.mean / part.size := by
  have hpos : (0 : ℚ) < part.size := by exact_mod_cast h.size_pos hsize
  have hmean : part.mean - whole.mean = (part.mass - part.size * whole.mean) / part.size := by
    rw [GroupShare.mean]
    field_simp
  rw [hmean, abs_div, abs_of_pos hpos]
  exact div_le_div_of_nonneg_right (h.near hsize) hpos.le

/-- A half does not have a negative mean. -/
theorem mean_nonneg (h : Halves ε whole part) (hsize : 1 < whole.size) (hε : ε ≤ 1)
    (hmean : 0 ≤ whole.mean) : 0 ≤ part.mean := by
  have hpos : (1 : ℚ) ≤ part.size := by exact_mod_cast h.size_pos hsize
  have hmiss : ε * whole.mean / part.size ≤ whole.mean :=
    (div_le_iff₀ (by linarith)).2 (by nlinarith)
  have := (abs_le.1 (h.mean_near hsize)).1
  linarith

/-- The halvings of a half leave room for the miss of the half itself. -/
theorem misses_le {k : Nat} (hk : 0 < k) (hroom : halvings k * ε ≤ 1) :
    halvings k * (1 + ε / k) + 1 / k ≤ (halvings k + 1 : ℚ) := by
  have hpos : (0 : ℚ) < k := by exact_mod_cast hk
  -- a half that is halved again has at least two ranks
  have hle : halvings k * ε + 1 ≤ (k : ℚ) := by
    rcases Nat.lt_or_ge 1 k with hlt | hone
    · have : (2 : ℚ) ≤ k := by exact_mod_cast hlt
      linarith
    · rw [halvings_of_le_one hone, Nat.cast_zero, zero_mul, zero_add]
      exact_mod_cast hk
  have hdiv : (halvings k * ε + 1) / k ≤ 1 := (div_le_one hpos).2 hle
  calc halvings k * (1 + ε / k) + 1 / k
      = halvings k + (halvings k * ε + 1) / k := by ring
    _ ≤ halvings k + 1 := by linarith

/-- What is near to the mean of a half is near to the mean of the group. -/
theorem near_trans (h : Halves ε whole part) (hsize : 1 < whole.size) (hε : 0 ≤ ε)
    (hroom : halvings part.size * ε ≤ 1) (hmean : 0 ≤ whole.mean) {m : ℚ}
    (hm : |m - part.mean| ≤ halvings part.size * (ε * part.mean)) :
    |m - whole.mean| ≤ (halvings part.size + 1) * (ε * whole.mean) := by
  have hnear := h.mean_near hsize
  have hmiss : 0 ≤ ε * whole.mean := mul_nonneg hε hmean
  have hpart : part.mean ≤ whole.mean + ε * whole.mean / part.size := by
    linarith [(abs_le.1 hnear).2]
  have hcount : (0 : ℚ) ≤ halvings part.size := Nat.cast_nonneg _
  calc |m - whole.mean|
      ≤ |m - part.mean| + |part.mean - whole.mean| := abs_sub_le _ _ _
    _ ≤ halvings part.size * (ε * part.mean) + ε * whole.mean / part.size := add_le_add hm hnear
    _ ≤ halvings part.size * (ε * (whole.mean + ε * whole.mean / part.size)) +
          ε * whole.mean / part.size := by gcongr
    _ = (halvings part.size * (1 + ε / part.size) + 1 / part.size) * (ε * whole.mean) := by ring
    _ ≤ (halvings part.size + 1) * (ε * whole.mean) :=
        mul_le_mul_of_nonneg_right (misses_le (h.size_pos hsize) hroom) hmiss

/-- A rank that is alone after some levels has its fair share, up to a miss for each halving
    of its group. -/
theorem chain {shares : Nat → GroupShare} {levels : Nat} (hε : 0 ≤ ε)
    (h : ∀ level < levels, Halves ε (shares level) (shares (level + 1)))
    (hpos : 0 < (shares 0).size) (hlevels : halvings (shares 0).size ≤ levels)
    (hroom : halvings (shares 0).size * ε ≤ 1) (hmean : 0 ≤ (shares 0).mean) :
    (shares levels).size = 1 ∧ |(shares levels).mean - (shares 0).mean| ≤
      halvings (shares 0).size * (ε * (shares 0).mean) := by
  induction levels generalizing shares with
  | zero =>
    have hsize : (shares 0).size = 1 := by
      by_contra hne
      rw [halvings_succ_log2 (by omega)] at hlevels
      omega
    exact ⟨hsize, by rw [sub_self, abs_zero]; positivity⟩
  | succ levels ih =>
    have hfirst : Halves ε (shares 0) (shares 1) := h 0 (Nat.succ_pos _)
    have ih := @ih (fun level => shares (level + 1)) fun level hlevel =>
      h (level + 1) (Nat.succ_lt_succ hlevel)
    rcases Nat.lt_or_ge 1 (shares 0).size with hsize | hone
    · have hless := halvings_half_lt hsize (hfirst.size_le hsize)
      have hcast : (halvings (shares 1).size + 1 : ℚ) ≤ halvings (shares 0).size := by
        exact_mod_cast hless
      have hcount : (0 : ℚ) ≤ halvings (shares 1).size := Nat.cast_nonneg _
      have hroom' : halvings (shares 1).size * ε ≤ 1 := by nlinarith
      have hone : ε ≤ 1 := by nlinarith
      obtain ⟨hlast, hmiss⟩ := ih (hfirst.size_pos hsize)
        (Nat.lt_succ_iff.1 (hless.trans_le hlevels)) hroom'
        (hfirst.mean_nonneg hsize hone hmean)
      refine ⟨hlast, (hfirst.near_trans hsize hε hroom' hmean hmiss).trans ?_⟩
      exact mul_le_mul_of_nonneg_right hcast (mul_nonneg hε hmean)
    · -- a rank that is alone has all that its group had
      have hsame : shares 1 = shares 0 := hfirst.alone hone
      simp only [Nat.zero_add, hsame] at ih
      exact ih hpos (by rw [halvings_of_le_one hone]; exact Nat.zero_le _) hroom hmean

end Halves

end SharedMesh
