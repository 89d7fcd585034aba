import SharedMesh.Proofs.Bisection.Permuting

/-!
# Groups walk in step

At every level of a bisection the members of a group find one cut in step: whatever steers
the search for the plane is the same on all of them, so they make the same calls, one for each
plane that is tried. Groups do not get messages of each other, though they use the same tags
and may try different numbers of planes; only then do all ranks move their points together
(`LevelLogs`). The log of a rank is that of its levels, one after the other
(`bisectLevels_logged`), and the same in every interleaving (`bisect_walksInStep`).
-/

namespace SharedMesh

open Route

variable {κ α β : Type} {n : Nat}

/-! ## Logs of groups -/

/-- If each group acts in step, all ranks act together, and every group has a log of its own. -/
theorem Arranged.exists_log {groups : Nat → Group} (harranged : Arranged n groups)
    {p : Nat → Program κ β} {a : Nat → β} (calls : Group → List UInt16)
    (h : ∀ r < n, InStep n (groups r) p a (calls (groups r))) : ∃ log : Nat → List (Event κ),
      Together n (List.range n) (fun r => (p r).logged) (fun r => (a r, log r)) ∧
        ∀ r < n, Confined (groups r).ranks log ∧ ∀ s ∈ (groups r).ranks,
          (log s).map Event.kind = (calls (groups r)).flatMap (callKinds (groups r)) := by
  -- one log for each group, and of that log the part of each rank
  have hgroup : ∀ g : Group, ∃ log : Nat → List (Event κ), ∀ r < n, groups r = g →
      Together n g.ranks (fun r => (p r).logged) (fun r => (a r, log r)) ∧
        Confined g.ranks log ∧
          ∀ s ∈ g.ranks, (log s).map Event.kind = (calls g).flatMap (callKinds g) := by
    intro g
    by_cases hg : ∃ r < n, groups r = g
    · obtain ⟨r, hr, rfl⟩ := hg
      obtain ⟨log, hlog⟩ := h r hr
      exact ⟨log, fun _ _ _ => hlog⟩
    · exact ⟨fun _ => [], fun r hr hrg => absurd ⟨r, hr, hrg⟩ hg⟩
  choose logOf hlogOf using hgroup
  have hsame : ∀ r < n, ∀ s ∈ (groups r).ranks, logOf (groups r) s = logOf (groups s) s :=
    fun r hr s hs => by rw [harranged.same hr hs]
  refine ⟨fun s => logOf (groups s) s, .ofBlocks harranged.blocks fun r hr => ?_,
    fun r hr => ⟨?_, fun s hs => ?_⟩⟩
  · exact (hlogOf _ r hr rfl).1.congr (fun _ _ => rfl) fun s hs => by rw [hsame r hr s hs]
  · exact (hlogOf _ r hr rfl).2.1.congr (hsame r hr)
  · exact (congrArg _ (hsame r hr s hs)).symm.trans ((hlogOf _ r hr rfl).2.2 s hs)

variable [Scalar α] [AxisSolver α]

/-! ## Logs of levels -/

/-- What the ranks log at one level: every group by itself as it chooses slots, and then all
    ranks as they move their points. -/
structure LevelLogs [Alphabet κ] [Layout κ α] (n : Nat) (tolerance : α) (steps : Nat)
    (h : Nat → Holding α) (groupLog moveLog : Nat → List (Event κ)) : Prop where
  chosen : Together n (List.range n)
    (fun r => (chooseSlots (κ := κ) (Seat.of r n) tolerance steps (h r)).toProgram.logged)
    (fun r => (.ok (levelTargets tolerance steps h r, levelCount tolerance steps h r,
      levelCuts tolerance steps h r), groupLog r))
  played : Together n (List.range n)
    (fun r => (bisectLevel (κ := κ) (Seat.of r n) tolerance steps (h r)).toProgram.logged)
    (fun r => (.ok (nextHolding tolerance steps n h r), groupLog r ++ moveLog r))
  confined : ∀ r < n, Confined (h r).group.ranks groupLog
  confined_moves : Confined (List.range n) moveLog
  kinds : ∀ r < n, ∀ s ∈ (h r).group.ranks, (groupLog s).map Event.kind =
    (levelCalls tolerance steps h (h r).group).flatMap (callKinds (h r).group)

variable [Alphabet κ] [LawfulAlphabet κ] [Layout κ α] [LawfulLayout κ α]

section

variable (tolerance : α) (steps : Nat) {given : Nat → List (Point α)} {h : Nat → Holding α}

/-- The ranks log what they do at a level. -/
theorem Bisecting.exists_levelLogs (hb : Bisecting n given h) (hn : n ≤ 2 ^ 32)
    (hroom : itemTotal n given * pointRoom κ α < 2 ^ 63) :
    ∃ groupLog moveLog : Nat → List (Event κ),
      LevelLogs n tolerance steps h groupLog moveLog := by
  rw [← hb.itemTotal_eq] at hroom
  have := arrivals_lt_of_pointRoom hroom
  obtain ⟨groupLog, hchosen, hgroup⟩ := hb.arranged.exists_log (levelCalls tolerance steps h)
    fun r hr => chooseSlots_inStep (κ := κ) tolerance steps hb.arranged hr (by omega)
  obtain ⟨moveLog, hmoved, hconfined, _⟩ := (movePoints_together (κ := κ) tolerance steps
    hb.arranged hroom (hb.origin_fits hn (hb.itemTotal_eq ▸ hroom))).exists_log
      fun _ hr => List.mem_range.1 hr
  exact ⟨groupLog, moveLog, hchosen, hchosen.bindLogged hmoved, fun r hr => (hgroup r hr).1,
    hconfined, fun r hr => (hgroup r hr).2⟩

/-- The logs of some levels in order. -/
def logsOf (groupLog moveLog : Nat → Nat → List (Event κ)) (levels : List Nat) (r : Nat) :
    List (Event κ) :=
  levels.flatMap fun level => groupLog level r ++ moveLog level r

omit [LawfulAlphabet κ] [LawfulLayout κ α] in
/-- The ranks log one level after the other. -/
theorem bisectLevels_logged {held : Nat → Nat → Holding α}
    {groupLog moveLog : Nat → Nat → List (Event κ)}
    (hheld : ∀ level, held (level + 1) = nextHolding tolerance steps n (held level))
    (h : ∀ level, LevelLogs n tolerance steps (held level) (groupLog level) (moveLog level))
    (first levels : Nat) :
    Together n (List.range n)
      (fun r => (bisectLevels (κ := κ) (Seat.of r n) tolerance steps levels
        (held first r)).toProgram.logged)
      (fun r => (.ok (held (first + levels) r),
        logsOf groupLog moveLog (List.range' first levels) r)) := by
  induction levels generalizing first with
  | zero => exact Together.done _
  | succ levels ih =>
    have hnext := ih (first + 1)
    rw [hheld, Nat.add_right_comm] at hnext
    exact (h first).played.bindLogged hnext

end

/-! ## The law of walking in step -/

/-- How groups walk through a bisection. `held` is what the ranks hold level by level, and
    `results` is what they get. At each level the ranks log `groupLog` until they have slots for
    their points, and `moveLog` as they move them; `homeLog` is what they log in the end. -/
structure WalksInStep (κ : Type) [Alphabet κ] [Layout κ α] (n : Nat)
    (settings : BisectionSettings α) (coords masses : Nat → List α)
    (held : Nat → Nat → Holding α) (results : Nat → Bisection α)
    (groupLog moveLog : Nat → Nat → List (Event κ)) (homeLog : Nat → List (Event κ)) : Prop where
  /-- Bisecting returns on every rank, level by level, in any order of sends and receives. -/
  plays : Plays κ n settings coords masses held results
  /-- And in any order, the ranks log the same. -/
  logged : (World.start ((List.range n).map fun r =>
      (bisect (κ := κ) (Seat.of r n) settings (coords r) (masses r)).toProgram.logged)).Yields
    ((List.range n).map fun r =>
      (.ok (results r), logsOf groupLog moveLog (List.range (halvings n)) r ++ homeLog r))
  /-- What they log first at a level is how they choose slots. -/
  chosen : ∀ level < halvings n, ∃ slots : Nat → List Place × Nat × List (Cut α),
    (World.start ((List.range n).map fun r => (chooseSlots (κ := κ) (Seat.of r n)
        (levelTolerance settings n) settings.steps (held level r)).toProgram.logged)).Yields
      ((List.range n).map fun r => (.ok (slots r), groupLog level r))
  /-- The members of a group find one cut and make the same calls, one for each plane that
      they try. -/
  in_step : ∀ level < halvings n, ∀ r < n, 1 < (held level r).group.size →
    ∃ (cut : Cut α) (calls : List UInt16), calls.count planeTag = cut.tried.length ∧
      ∀ s ∈ (held level r).group.ranks, (held level s).group = (held level r).group ∧
        (held (level + 1) s).cuts = cut :: (held level s).cuts ∧
          (groupLog level s).map Event.kind = calls.flatMap (callKinds (held level r).group)
  /-- A rank that is alone sends and gets nothing. -/
  alone : ∀ level < halvings n, ∀ r < n, (held level r).group.size ≤ 1 → groupLog level r = []
  /-- The members of a group exchange messages among themselves only. -/
  confined : ∀ level < halvings n, ∀ r < n, Confined (held level r).group.ranks (groupLog level)
  /-- No message of a level is left for the next one. -/
  confined_moves : ∀ level < halvings n, Confined (List.range n) (moveLog level)
  confined_home : Confined (List.range n) homeLog

/-- There is one call for every plane that a group tries. -/
theorem count_planeTag_levelCalls (tolerance : α) (steps : Nat) (h : Nat → Holding α) {r : Nat}
    (hsize : 1 < (h r).group.size) :
    (levelCalls tolerance steps h (h r).group).count planeTag =
      (levelCut tolerance steps h r).tried.length := by
  have hinertia : (inertiaCalls (h r).group fun s => (h s).points).count planeTag = 0 := by
    rw [inertiaCalls]
    split <;> rfl
  have hspread : [spreadTag, spreadTag].count planeTag = 0 := rfl
  rw [levelCalls, if_neg (by omega), cutCalls, List.count_append, List.count_append, hinertia,
    hspread, List.count_cons_of_ne (by decide), List.count_cons_of_ne (by decide),
    List.count_replicate_self, levelCut]
  omega

section

variable (settings : BisectionSettings α) {coords masses : Nat → List α}

/-- The ranks log all levels, and what brings the points home. -/
theorem exists_bisectionLogs (h : ∀ r < n, WeightedPoints (coords r) (masses r))
    (hn : n ≤ 2 ^ 32) (hroom : itemTotal n masses * pointRoom κ α < 2 ^ 63) :
    ∃ (groupLog moveLog : Nat → Nat → List (Event κ)) (homeLog : Nat → List (Event κ)),
      (∀ level, LevelLogs n (levelTolerance settings n) settings.steps
        (heldAfter settings coords masses n level) (groupLog level) (moveLog level)) ∧
      Confined (List.range n) homeLog ∧
      Together n (List.range n)
        (fun r => (bisect (κ := κ) (Seat.of r n) settings (coords r) (masses r)).toProgram.logged)
        (fun r => (.ok (bisected settings coords masses n r),
          logsOf groupLog moveLog (List.range (halvings n)) r ++ homeLog r)) := by
  have hplaces : itemTotal n masses * 32 < 2 ^ 63 := arrivals_lt_of_pointRoom hroom
  rw [← itemTotal_homePoints h] at hroom
  choose groupLog moveLog hlevels using fun level =>
    (bisecting_heldAfter settings coords masses h level).exists_levelLogs (κ := κ)
      (levelTolerance settings n) settings.steps hn hroom
  obtain ⟨homeLog, hhome, hconfined, _⟩ :=
    (callHome_together (κ := κ) settings coords masses h hn hplaces).exists_log
      fun _ hr => List.mem_range.1 hr
  refine ⟨groupLog, moveLog, homeLog, hlevels, hconfined, ?_⟩
  have hplayed := bisectLevels_logged (levelTolerance settings n) settings.steps
    (heldAfter_succ settings coords masses n) hlevels 0 (halvings n)
  rw [Nat.zero_add, ← List.range_eq_range'] at hplayed
  exact Together.ofCheckedThenLogged (fun r hr => (h r (List.mem_range.1 hr)).check)
    (hplayed.bindLogged hhome)

/-- Groups walk through a bisection in step, if there are no more than `2 ^ 32` ranks, as ranks
    travel in four bytes, and if the points fit in the memory of a rank. -/
theorem bisect_walksInStep (h : ∀ r < n, checkPoints (coords r) (masses r) = .ok ())
    (hn : n ≤ 2 ^ 32) (hroom : itemTotal n masses * pointRoom κ α < 2 ^ 63) :
    ∃ held results groupLog moveLog homeLog,
      WalksInStep κ n settings coords masses held results groupLog moveLog homeLog := by
  have hpoints : ∀ r < n, WeightedPoints (coords r) (masses r) := fun r hr => .of_check (h r hr)
  obtain ⟨groupLog, moveLog, homeLog, hlevels, hhome, hlogged⟩ :=
    exists_bisectionLogs (κ := κ) settings hpoints hn hroom
  have harranged : ∀ level,
      Arranged n fun r => (heldAfter settings coords masses n level r).group :=
    fun level => (bisecting_heldAfter settings coords masses hpoints level).arranged
  refine ⟨heldAfter settings coords masses n, bisected settings coords masses n, groupLog, moveLog,
    homeLog, ?_⟩
  constructor
  case plays => exact plays_heldAfter settings hpoints hn hroom
  case logged => exact hlogged.yields
  case chosen => exact fun level _ => ⟨_, (hlevels level).chosen.yields⟩
  case in_step =>
    intro level _ r hr hsize
    refine ⟨_, _, count_planeTag_levelCalls (levelTolerance settings n) settings.steps _ hsize,
      fun s hs => ⟨(harranged level).same hr hs, ?_, (hlevels level).kinds r hr s hs⟩⟩
    rw [heldAfter_succ, nextHolding, levelCuts, (harranged level).same hr hs,
      if_neg (Nat.not_le.2 hsize), (harranged level).levelCut_eq _ _ hr hs]
  case alone =>
    intro level _ r hr hsize
    have hkinds := (hlevels level).kinds r hr r ((harranged level).blocks.mem r hr)
    rw [levelCalls, if_pos hsize] at hkinds
    exact List.map_eq_nil_iff.1 hkinds
  case confined => exact fun level _ => (hlevels level).confined
  case confined_moves => exact fun level _ => (hlevels level).confined_moves
  case confined_home => exact hhome

end

attribute [local instance] wordScalar wordAxis

/-- Three ranks walk in step, of which the second has no points. -/
theorem bisect_walksInStep_words :
    (∀ r < 3, checkPoints (wordCoords r) (wordMasses r) = .ok ()) ∧ 3 ≤ 2 ^ 32 ∧
      itemTotal 3 wordMasses * pointRoom UInt8 UInt64 < 2 ^ 63 ∧
        ∃ held results groupLog moveLog homeLog, WalksInStep UInt8 3 ⟨1, 64⟩ wordCoords wordMasses
          held results groupLog moveLog homeLog := by
  have hpoints : ∀ r < 3, checkPoints (wordCoords r) (wordMasses r) = .ok () := by
    intro r hr
    have : r = 0 ∨ r = 1 ∨ r = 2 := by omega
    rcases this with rfl | rfl | rfl <;> rfl
  have hsize : itemTotal 3 wordMasses * pointRoom UInt8 UInt64 = 144 := rfl
  have hroom : itemTotal 3 wordMasses * pointRoom UInt8 UInt64 < 2 ^ 63 := by omega
  exact ⟨hpoints, by omega, hroom, bisect_walksInStep ⟨1, 64⟩ hpoints (by omega) hroom⟩

end SharedMesh
