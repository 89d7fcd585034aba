import SharedMesh.Proofs.Shares

/-!
# Shares are computed in words

Slices, counts and holders, written with a check at every single operation (`sliceSteps`,
`countSteps`, `holderSteps`), are the same functions (`slice_eq_steps`, `count_eq_steps`,
`holder_eq_steps`): an intermediate value that is no word, or is below zero, stops the rank.

If the total is a word, slices and counts never come to that. Holders do in one case only. The
length of the longer slices is computed even if no slice is longer, and it is no word if a single
rank has all of the `2 ^ 64 - 1` numbers (`stayWords_iff`).
-/

namespace SharedMesh

/-! ## Operations on words -/

/-- The sum of two words, which must be a word. -/
def addWord (a b : Nat) : Checked Nat := word (a + b)

/-- The product of two words, which must be a word. -/
def mulWord (a b : Nat) : Checked Nat := word (a * b)

/-- The difference of two words, which must not be below zero. -/
def subWord (a b : Nat) : Checked Nat :=
  if b ≤ a then .ok (a - b) else .error (.breach .wordOverflow)

/-- The quotient of two words. -/
def divWord (a b : Nat) : Checked Nat :=
  if b = 0 then .error (.breach .zeroDivision) else .ok (a / b)

/-- The remainder of two words. -/
def modWord (a b : Nat) : Checked Nat :=
  if b = 0 then .error (.breach .zeroDivision) else .ok (a % b)

/-- If a sum is a word, so are its parts. -/
theorem word_bind_addWord {β : Type} (a b : Nat) (f : Nat → Checked β) :
    (word a >>= fun x => addWord x b >>= f) = (word (a + b) >>= f) := by
  rcases Nat.lt_or_ge a (2 ^ 64) with h | h
  · exact bind_of_ok (word_eq_ok h) _
  · rw [word_eq_error h, word_eq_error (Nat.le_add_right_of_le h)]
    rfl

namespace Shares

variable {s : Shares} {g rank : Nat}

/-! ## Every step checked -/

/-- The slice of a rank, with every operation checked. -/
def sliceSteps (s : Shares) (rank : Nat) : Checked Slice := do
  let quotient ← divWord s.total s.size
  let remainder ← modWord s.total s.size
  if rank < remainder then
    let start ← addWord (← mulWord quotient rank) rank
    let stop ← addWord (← addWord start quotient) 1
    return ⟨start, stop⟩
  else
    let start ← addWord (← mulWord quotient rank) remainder
    let stop ← addWord start quotient
    return ⟨start, stop⟩

/-- How many numbers a rank holds, with every operation checked. -/
def countSteps (s : Shares) (rank : Nat) : Checked Nat := do
  let slice ← s.sliceSteps rank
  subWord slice.stop slice.start

/-- The holder of a number, with every operation checked. -/
def holderSteps (s : Shares) (global : Nat) : Checked Place := do
  if s.total ≤ global then throw (.globalRange global s.total)
  let quotient ← divWord s.total s.size
  let remainder ← modWord s.total s.size
  let longer ← addWord quotient 1
  let split ← mulWord longer remainder
  if global < split then
    let rank ← divWord global longer
    let index ← modWord global longer
    return ⟨rank, index⟩
  else
    let past ← subWord global split
    let rank ← addWord (← divWord past quotient) remainder
    let index ← modWord past quotient
    return ⟨rank, index⟩

theorem slice_eq_steps (s : Shares) (rank : Nat) : s.slice rank = s.sliceSteps rank := by
  by_cases hsize : s.size = 0
  · rw [slice, if_pos hsize, sliceSteps, divWord, if_pos hsize]
    rfl
  · rw [slice, if_neg hsize, sliceSteps, divWord, if_neg hsize, modWord, if_neg hsize]
    change (if rank < s.remainder then _ else _) = if rank < s.remainder then _ else _
    by_cases hrank : rank < s.remainder
    · rw [if_pos hrank, if_pos hrank]
      simp only [mulWord, word_bind_addWord]
      exact bind_congr fun start => (word_bind_addWord (start + s.quotient) 1 _).symm
    · rw [if_neg hrank, if_neg hrank]
      simp only [mulWord, word_bind_addWord]
      rfl

/-- A slice does not end before it starts. -/
theorem start_le_stop {slice : Slice} (h : s.slice rank = .ok slice) :
    slice.start ≤ slice.stop := by
  rw [Shares.slice] at h
  split at h
  · cases h
  · change (if rank < s.remainder then _ else _) = _ at h
    split at h <;>
    · obtain ⟨start, _, h⟩ := bind_eq_ok h
      obtain ⟨stop, hstop, h⟩ := bind_eq_ok h
      cases h
      rw [← eq_of_word hstop]
      simp only
      omega

theorem count_eq_steps (s : Shares) (rank : Nat) : s.count rank = s.countSteps rank := by
  rw [count, countSteps, ← slice_eq_steps]
  cases h : s.slice rank with
  | error e => rfl
  | ok slice => exact (if_pos (start_le_stop h)).symm

theorem holder_eq_steps (s : Shares) (g : Nat) : s.holder g = s.holderSteps g := by
  by_cases hg : s.total ≤ g
  · rw [holder, if_pos hg, holderSteps, if_pos hg]
    rfl
  by_cases hsize : s.size = 0
  · rw [holder, if_neg hg, if_pos hsize, holderSteps, if_neg hg, divWord, if_pos hsize]
    rfl
  rw [holder, if_neg hg, if_neg hsize, holderSteps, if_neg hg, divWord, if_neg hsize, modWord,
    if_neg hsize]
  refine bind_congr_of_ok fun longer hlonger => bind_congr fun split => ?_
  have hpos : longer ≠ 0 := by
    rw [← eq_of_word hlonger]
    exact Nat.succ_ne_zero _
  by_cases hg' : g < split
  · rw [if_pos hg', if_pos hg', divWord, if_neg hpos, modWord, if_neg hpos]
    rfl
  · rw [if_neg hg', if_neg hg', subWord, if_pos (Nat.le_of_not_lt hg')]
    refine Eq.trans ?_ (bind_of_ok rfl _).symm
    by_cases hquotient : s.total / s.size = 0
    · rw [if_pos (show s.quotient = 0 from hquotient), divWord, if_pos hquotient]
      rfl
    · rw [if_neg (show s.quotient ≠ 0 from hquotient), divWord, if_neg hquotient, modWord,
        if_neg hquotient]
      rfl

/-! ## Where the words end -/

/-- No operation on the way to slices, counts or holders leads out of the words. -/
structure StayWords (s : Shares) : Prop where
  slices : ∀ rank < s.size, ∃ slice, s.sliceSteps rank = .ok slice
  counts : ∀ rank < s.size, ∃ count, s.countSteps rank = .ok count
  holders : ∀ g < s.total, ∃ p, s.holderSteps g = .ok p

theorem sliceSteps_eq_ok (h : rank < s.size) (ht : s.total < 2 ^ 64) :
    s.sliceSteps rank = .ok ⟨s.first rank, s.first rank + s.length rank⟩ :=
  (slice_eq_steps s rank).symm.trans (slice_eq_ok h ht)

theorem countSteps_eq_ok (h : rank < s.size) (ht : s.total < 2 ^ 64) :
    s.countSteps rank = .ok (s.length rank) :=
  (count_eq_steps s rank).symm.trans (count_eq_ok h ht)

/-- The longer slices have a word of numbers, unless a single rank has all numbers there can be. -/
theorem longer_lt_iff (hsize : 0 < s.size) (ht : s.total < 2 ^ 64) :
    s.quotient + 1 < 2 ^ 64 ↔ ¬(s.total = 2 ^ 64 - 1 ∧ s.size = 1) := by
  constructor
  · rintro hlt ⟨hall, hone⟩
    rw [quotient, hall, hone, Nat.div_one] at hlt
    exact absurd hlt (by decide)
  · intro h
    refine Nat.lt_of_not_le fun hle => h ?_
    have htotal := s.total_eq
    -- two ranks of such slices would have too many numbers
    have hone : s.size = 1 := by
      refine Nat.le_antisymm (Nat.le_of_not_lt fun htwo => ?_) hsize
      have := Nat.mul_le_mul_left s.quotient htwo
      omega
    rw [hone] at htotal
    exact ⟨by omega, hone⟩

/-- If the longer slices would have more numbers than a word can say, no holder is found, even
    if no slice is longer. -/
theorem holder_eq_overflow (hsize : 0 < s.size) (h : g < s.total)
    (hlonger : 2 ^ 64 ≤ s.quotient + 1) : s.holder g = .error (.breach .wordOverflow) := by
  rw [holder, if_neg (Nat.not_le.2 h), if_neg (Nat.ne_of_gt hsize)]
  change (word (s.quotient + 1) >>= fun longer => _) = _
  rw [word_eq_error hlonger]
  rfl

theorem stayWords_of_longer (hsize : 0 < s.size) (ht : s.total < 2 ^ 64)
    (hlonger : s.quotient + 1 < 2 ^ 64) : s.StayWords where
  slices := fun _ hrank => ⟨_, sliceSteps_eq_ok hrank ht⟩
  counts := fun _ hrank => ⟨_, countSteps_eq_ok hrank ht⟩
  holders := fun g hg =>
    ⟨s.place g, (holder_eq_steps s g).symm.trans (holder_eq_ok_of_longer hsize hg ht hlonger)⟩

theorem longer_of_stayWords (hsize : 0 < s.size) (h : s.StayWords) : s.quotient + 1 < 2 ^ 64 := by
  refine Nat.lt_of_not_le fun hlonger => ?_
  -- there is a number whose holder to look for
  have hpos : 0 < s.total := by
    refine Nat.pos_of_ne_zero fun hzero => ?_
    rw [quotient, hzero, Nat.zero_div] at hlonger
    exact absurd hlonger (by decide)
  obtain ⟨p, hp⟩ := h.holders 0 hpos
  rw [← holder_eq_steps, holder_eq_overflow hsize hpos hlonger] at hp
  cases hp

/-- Slices and counts never lead out of the words, and holders only if a single rank has
    `2 ^ 64 - 1` numbers. -/
theorem stayWords_iff (hsize : 0 < s.size) (ht : s.total < 2 ^ 64) :
    (∀ rank, s.slice rank = s.sliceSteps rank ∧ s.count rank = s.countSteps rank) ∧
      (∀ g, s.holder g = s.holderSteps g) ∧
      (∀ rank < s.size, s.sliceSteps rank = .ok ⟨s.first rank, s.first rank + s.length rank⟩ ∧
        s.countSteps rank = .ok (s.length rank)) ∧
      (s.StayWords ↔ ¬(s.total = 2 ^ 64 - 1 ∧ s.size = 1)) ∧
      (s.total = 2 ^ 64 - 1 ∧ s.size = 1 →
        ∀ g < s.total, s.holder g = .error (.breach .wordOverflow)) := by
  refine ⟨fun rank => ⟨slice_eq_steps s rank, count_eq_steps s rank⟩, holder_eq_steps s,
    fun rank hrank => ⟨sliceSteps_eq_ok hrank ht, countSteps_eq_ok hrank ht⟩, ?_, ?_⟩
  · rw [← longer_lt_iff hsize ht]
    exact ⟨longer_of_stayWords hsize, stayWords_of_longer hsize ht⟩
  · intro hall g hg
    refine holder_eq_overflow hsize hg (Nat.le_of_not_lt fun hlonger => ?_)
    exact (longer_lt_iff hsize ht).1 hlonger hall

/-- Two ranks can share as many numbers as a word can say, also the last one. -/
theorem stayWords_iff_twoRanks : (0 < 2 ∧ 2 ^ 64 - 1 < 2 ^ 64) ∧
    (⟨2 ^ 64 - 1, 2⟩ : Shares).StayWords ∧
    (⟨2 ^ 64 - 1, 2⟩ : Shares).holder (2 ^ 64 - 2) = .ok ⟨1, 2 ^ 63 - 2⟩ := by
  obtain ⟨-, -, -, hwords, -⟩ := stayWords_iff (s := ⟨2 ^ 64 - 1, 2⟩) (by decide) (by decide)
  exact ⟨by decide, hwords.2 (by decide), rfl⟩

/-- A single rank cannot have them all: one more than the length of its slice is asked for. -/
theorem not_stayWords : ¬∀ total size : Nat, total < 2 ^ 64 → 0 < size → size < 2 ^ 64 →
    (⟨total, size⟩ : Shares).StayWords := by
  intro hwords
  have hsingle := hwords (2 ^ 64 - 1) 1 (by decide) (by decide) (by decide)
  obtain ⟨p, hp⟩ := hsingle.holders 0 (by decide)
  rw [← holder_eq_steps, holder_eq_overflow (by decide) (by decide) (by decide)] at hp
  cases hp

end Shares

end SharedMesh
