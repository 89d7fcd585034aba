import SharedMesh.Proofs.Collective.Gather

/-!
# Reducing

When the members of a group reduce lists of one length, all of them get the same list: the
lists of the members combined position by position, in the order of the group
(`reduced`). No law of the operation is needed for that. Lists of different lengths cannot be
combined, and every member finds out, whether its own length is that of the first member or
not (`foldContributions_eq_error`).

When they scan, the parts of the members lie end to end in the order of the group
(`flatMap_partStart`).

So the members agree on what they reduce (`reductions_agree`): on whether there is a result, on
the result, and on where each part starts.
-/

namespace SharedMesh

variable {κ α : Type} {width n : Nat} {g : Group} {values : Nat → List α}

/-! ## Lists -/

/-- The lists of some ranks, combined position by position from the first rank on. -/
def reduced (combine : α → α → α) (values : Nat → List α) : List Nat → List α
  | [] => []
  | first :: rest => rest.foldl (fun sofar r => sofar.zipWith combine (values r)) (values first)

theorem zip_map_self {β : Type} (f : Nat → β) (ranks : List Nat) :
    (ranks.map f).zip ranks = ranks.map fun r => (f r, r) := by
  rw [List.zip, List.zipWith_map_left, List.zipWith_self]

/-- Lists of one length can be combined. -/
theorem foldContributions_eq_ok (combine : α → α → α) {ranks : List Nat} (hne : ranks ≠ [])
    {own : List α} (hown : own.length = width) (h : ∀ r ∈ ranks, (values r).length = width) :
    foldContributions combine own ((ranks.map values).zip ranks) =
      .ok (reduced combine values ranks) := by
  obtain ⟨first, rest, rfl⟩ := List.exists_cons_of_ne_nil hne
  obtain ⟨hfirst, hrest⟩ := List.forall_mem_cons.1 h
  rw [zip_map_self, List.map_cons, foldContributions, if_neg (by simp [hfirst, hown])]
  refine (foldlM_eq_ok (g := fun sofar x => sofar.zipWith combine x.1)
    (P := fun sofar => sofar.length = width) ?_ ?_ hfirst).trans ?_
  · intro sofar hsofar x hx
    obtain ⟨r, hr, rfl⟩ := List.mem_map.1 hx
    exact if_neg (not_not_intro ((hrest r hr).trans hsofar.symm))
  · intro sofar hsofar x hx
    obtain ⟨r, hr, rfl⟩ := List.mem_map.1 hx
    simp [hrest r hr, hsofar]
  · rw [List.foldl_map]
    rfl

/-- A rank whose list has another length than that of some rank cannot combine the lists. -/
theorem foldContributions_eq_error (combine : α → α → α) {ranks : List Nat} {own : List α} {s : Nat}
    (hs : s ∈ ranks) (h : (values s).length ≠ own.length) :
    ∃ e, foldContributions combine own ((ranks.map values).zip ranks) = .error e := by
  obtain ⟨first, rest, rfl⟩ := List.exists_cons_of_ne_nil (List.ne_nil_of_mem hs)
  rw [zip_map_self, List.map_cons, foldContributions]
  by_cases hfirst : (values first).length = own.length
  case neg => exact ⟨_, by rw [if_pos hfirst]; rfl⟩
  rw [if_neg (not_not_intro hfirst)]
  -- what was combined so far is as long as the own list, until the fold comes to `s`
  have hrest : s ∈ rest := List.mem_of_ne_of_mem (fun hsame => h (hsame ▸ hfirst)) hs
  have hmem : (values s, s) ∈ rest.map fun r => (values r, r) := List.mem_map.2 ⟨s, hrest, rfl⟩
  refine foldlM_eq_error (P := fun sofar : List α => sofar.length = own.length) hmem ?_ ?_ hfirst
  · rintro sofar hsofar ⟨next, rank⟩ sofar' hstep
    by_cases hnext : next.length = sofar.length
    · cases (if_neg (not_not_intro hnext)).symm.trans hstep
      simp [hnext, hsofar]
    · cases (if_pos hnext).symm.trans hstep
  · intro sofar hsofar
    exact ⟨_, if_pos (hsofar ▸ h)⟩

/-! ## Parts -/

/-- Where the part of a rank starts, if the parts of some ranks are laid end to end. -/
def partStart (numbers : Nat → Nat) (ranks : List Nat) (r : Nat) : Nat :=
  ((ranks.takeWhile (· ≠ r)).map numbers).sum

/-- The part of a rank starts after those of the ranks before it. -/
theorem partStart_getElem (numbers : Nat → Nat) {ranks : List Nat} (h : ranks.Nodup) {k : Nat}
    (hk : k < ranks.length) :
    partStart numbers ranks ranks[k] = ((ranks.take k).map numbers).sum := by
  have hsplit : ranks = ranks.take k ++ ranks[k] :: ranks.drop (k + 1) := by
    rw [← List.drop_eq_getElem_cons hk, List.take_append_drop]
  have hfresh : ranks[k] ∉ ranks.take k := fun hmem => by
    rw [hsplit] at h
    exact (List.nodup_append.1 h).2.2 _ hmem _ List.mem_cons_self rfl
  have hbefore : (ranks.take k ++ ranks[k] :: ranks.drop (k + 1)).takeWhile (· ≠ ranks[k]) =
      ranks.take k := takeWhile_ne_append hfresh
  rw [← hsplit] at hbefore
  rw [partStart, hbefore]

theorem partStart_cons_of_ne (numbers : Nat → Nat) {first r : Nat} (ranks : List Nat)
    (h : first ≠ r) :
    partStart numbers (first :: ranks) r = numbers first + partStart numbers ranks r := by
  rw [partStart, List.takeWhile_cons_of_pos (by simpa using h), List.map_cons, List.sum_cons]
  rfl

/-- The parts follow each other without gaps. -/
theorem flatMap_partStart_from (numbers : Nat → Nat) {ranks : List Nat} (h : ranks.Nodup)
    (start : Nat) :
    ranks.flatMap (fun r => List.range' (start + partStart numbers ranks r) (numbers r)) =
      List.range' start (ranks.map numbers).sum := by
  induction ranks generalizing start with
  | nil => rfl
  | cons first ranks ih =>
    obtain ⟨hfirst, hranks⟩ := List.nodup_cons.1 h
    have hstart : partStart numbers (first :: ranks) first = 0 := by
      rw [partStart, List.takeWhile_cons_of_neg (by simp)]
      rfl
    have hrest : ranks.flatMap (fun r =>
        List.range' (start + partStart numbers (first :: ranks) r) (numbers r)) =
          List.range' (start + numbers first) (ranks.map numbers).sum := by
      rw [← ih hranks (start + numbers first)]
      refine List.flatMap_congr fun r hr => ?_
      have hne : first ≠ r := fun hsame => hfirst (hsame ▸ hr)
      rw [partStart_cons_of_ne numbers ranks hne, Nat.add_assoc]
    rw [List.flatMap_cons, hrest, hstart, Nat.add_zero, List.map_cons, List.sum_cons,
      List.range'_append_1]

/-- The parts of all ranks tile what they add up to. -/
theorem flatMap_partStart (numbers : Nat → Nat) {ranks : List Nat} (h : ranks.Nodup) :
    ranks.flatMap (fun r => List.range' (partStart numbers ranks r) (numbers r)) =
      List.range (ranks.map numbers).sum := by
  have := flatMap_partStart_from numbers h 0
  simpa only [Nat.zero_add, ← List.range_eq_range'] using this

/-! ## All members -/

section

variable [Alphabet κ] [LawfulAlphabet κ] (hg : g.ranks.Nodup) (hn : ∀ r ∈ g.ranks, r < n)

include hg hn

/-- Every member combines the lists of all by itself. -/
theorem reduceScalars_together [Layout κ α] [LawfulLayout κ α] (tag : UInt16)
    (combine : α → α → α) (hlength : ∀ r ∈ g.ranks, (values r).length < 2 ^ 64) :
    Together n g.ranks
      (fun r => (reduceScalars combine (Seat.of r n) g tag (values r) : Proc κ _).toProgram)
      (fun r => foldContributions combine (values r) ((g.ranks.map values).zip g.ranks)) :=
  (gather_together tag hg hn values hlength).andThen (Together.ofChecked _)

/-- The members of a group agree on what they reduce. If their lists have the same length, all
    get the lists combined position by position in the order of the group, and otherwise all
    fail. And if they scan numbers whose sum is a word, all get the same sum, and the parts of
    the members, one after the other in the order of the group, tile it. -/
theorem reductions_agree [Layout κ α] [LawfulLayout κ α] (tag : UInt16) (combine : α → α → α)
    (hlength : ∀ r ∈ g.ranks, (values r).length < 2 ^ 64) (numbers : Nat → Nat) :
    (∃ results : Nat → Checked (List α),
      MembersYield n g.ranks
        (fun r => (reduceScalars combine (Seat.of r n) g tag (values r) : Proc κ _).toProgram)
        results ∧
      ((∀ r ∈ g.ranks, ∀ s ∈ g.ranks, (values r).length = (values s).length) →
        ∀ r ∈ g.ranks, results r = .ok (reduced combine values g.ranks)) ∧
      ((¬ ∀ r ∈ g.ranks, ∀ s ∈ g.ranks, (values r).length = (values s).length) →
        ∀ r ∈ g.ranks, ∃ e, results r = .error e)) ∧
    ((g.ranks.map numbers).sum < 2 ^ 64 → ∃ starts : Nat → Nat,
      MembersYield n g.ranks
        (fun r => (scanNumbers (Seat.of r n) g tag (numbers r) : Proc κ (Nat × Nat)).toProgram)
        (fun r => .ok (starts r, (g.ranks.map numbers).sum)) ∧
      (∀ (k : Nat) (hk : k < g.ranks.length),
        starts g.ranks[k] = ((g.ranks.take k).map numbers).sum) ∧
      g.ranks.flatMap (fun r => List.range' (starts r) (numbers r)) =
        List.range (g.ranks.map numbers).sum) := by
  constructor
  · refine ⟨_, (reduceScalars_together hg hn tag combine hlength).membersYield, fun hsame r hr =>
      ?_, fun hdiffer r hr => ?_⟩
    · exact foldContributions_eq_ok combine (List.ne_nil_of_mem hr) rfl fun s hs => hsame s hs r hr
    · -- the own length differs from that of one of two members that differ
      obtain ⟨s, hs, hne⟩ : ∃ s ∈ g.ranks, (values s).length ≠ (values r).length := by
        by_contra hall
        push Not at hall
        exact hdiffer fun s hs t ht => (hall s hs).trans (hall t ht).symm
      exact foldContributions_eq_error combine hs hne
  · intro hsum
    exact ⟨partStart numbers g.ranks, (scanNumbers_together hg hn numbers hsum).membersYield,
      fun _ hk => partStart_getElem numbers hg hk, flatMap_partStart numbers hg⟩

end

/-- Lists of two of three ranks, of one length or of two. -/
def wordLists (even : Bool) (r : Nat) : List UInt64 :=
  if r = 2 then [1, 5] else if even then [3, 4] else [3]

/-- The last of three ranks comes first in a group that the middle one is not in: so the lists
    are combined in the other order, and the part of the last rank lies below that of the
    first. -/
theorem reductions_agree_twoOfThree :
    let members : Group := ⟨[2, 0]⟩
    let combine : UInt64 → UInt64 → UInt64 := fun a b => 10 * a + b
    (members.ranks.Nodup ∧ (∀ r ∈ members.ranks, r < 3) ∧
      (∀ even, ∀ r ∈ members.ranks, (wordLists even r).length < 2 ^ 64) ∧
      (members.ranks.map (· + 3)).sum < 2 ^ 64) ∧
    (∃ results, MembersYield 3 members.ranks (fun r => (reduceScalars combine (Seat.of r 3) members
        reduceTag (wordLists true r) : Proc UInt8 _).toProgram) results ∧
      results 0 = .ok [13, 54] ∧ results 2 = .ok [13, 54]) ∧
    (∃ results, MembersYield 3 members.ranks (fun r => (reduceScalars combine (Seat.of r 3) members
        reduceTag (wordLists false r) : Proc UInt8 _).toProgram) results ∧
      (∃ e, results 0 = .error e) ∧ ∃ e, results 2 = .error e) ∧
    ∃ starts : Nat → Nat, MembersYield 3 members.ranks
        (fun r => (scanNumbers (Seat.of r 3) members reduceTag (r + 3) :
          Proc UInt8 (Nat × Nat)).toProgram) (fun r => .ok (starts r, 8)) ∧
      starts 2 = 0 ∧ starts 0 = 5 := by
  intro members combine
  have hnodup : members.ranks.Nodup := by decide
  have hlt : ∀ r ∈ members.ranks, r < 3 := by decide
  have hlength : ∀ even, ∀ r ∈ members.ranks, (wordLists even r).length < 2 ^ 64 := by decide
  have hsum : (members.ranks.map (· + 3)).sum < 2 ^ 64 := by decide
  obtain ⟨⟨results, hyield, hok, _⟩, hscans⟩ :=
    reductions_agree (κ := UInt8) hnodup hlt reduceTag combine (hlength true) (· + 3)
  obtain ⟨⟨results', hyield', _, herror⟩, _⟩ :=
    reductions_agree (κ := UInt8) hnodup hlt reduceTag combine (hlength false) (· + 3)
  obtain ⟨starts, hscan, hstart, _⟩ := hscans hsum
  have hok := hok (by decide)
  have herror := herror (by decide)
  exact ⟨⟨hnodup, hlt, hlength, hsum⟩,
    ⟨results, hyield, hok 0 (by decide), hok 2 (by decide)⟩,
    ⟨results', hyield', herror 0 (by decide), herror 2 (by decide)⟩,
    starts, hscan, hstart 0 (by decide), hstart 1 (by decide)⟩

end SharedMesh
