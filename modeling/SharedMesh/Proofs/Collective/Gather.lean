import Mathlib.Algebra.Order.BigOperators.Group.List
import Mathlib.Algebra.Order.Group.Nat
import SharedMesh.Collective.Agree
import SharedMesh.Proofs.Collective.Swap

/-!
# Gathering

What the members of a group know after they gathered a contribution of each: all of them
have the same list, one contribution after the other in the order of the group
(`gather_together`). Sums, scans and checks that are made together follow.

A check that all ranks make together passes on all of them or on none (`agreed`).
-/

namespace SharedMesh

variable {κ α β T : Type} [Alphabet κ] [LawfulAlphabet κ] {n : Nat} {tag : UInt16} {g : Group}

theorem Group.all_of (r n : Nat) : Group.all (Seat.of r n) = ⟨List.range n⟩ := by
  simp [all, ofRange, Seat.of, List.range_eq_range']

@[simp] theorem Seat.rank_of (r n : Nat) : (Seat.of r n).rank = r := rfl

@[simp] theorem Seat.size_of (r n : Nat) : (Seat.of r n).size = n := rfl

@[simp] theorem toNat_ofNat_word {v : Nat} (h : v < 2 ^ 64) : (UInt64.ofNat v).toNat = v := by
  rw [UInt64.toNat_ofNat', Nat.mod_eq_of_lt h]

/-- Words come out of a list of words as they went in. -/
theorem map_toNat_map_ofNat {numbers : List Nat} (h : ∀ v ∈ numbers, v < 2 ^ 64) :
    (numbers.map UInt64.ofNat).map UInt64.toNat = numbers := by
  rw [List.map_map]
  exact (List.map_congr_left fun v hv => toNat_ofNat_word (h v hv)).trans (List.map_id _)

/-! ## Lists and words -/

/-- Every member gets the lists of all. -/
theorem gather_together [Layout κ T] [LawfulLayout κ T] (tag : UInt16) (hg : g.ranks.Nodup)
    (hn : ∀ r ∈ g.ranks, r < n) (values : Nat → List T)
    (hword : ∀ r ∈ g.ranks, (values r).length < 2 ^ 64) :
    Together n g.ranks
      (fun r => (gather (Seat.of r n) g tag (values r) : Proc κ _).toProgram)
      (fun _ => .ok (g.ranks.map values)) := by
  have h := swap_together (κ := κ) tag hg hn
    (fun r => List.replicate g.size (values r)) (fun _ _ => List.length_replicate)
    (fun r hr list hl => by rw [List.eq_of_mem_replicate hl]; exact hword r hr)
    (fun r => Seat.of r n) fun _ _ => rfl
  refine h.congr (fun _ _ => rfl) fun r hr => congrArg _ ?_
  have hr : g.ranks.idxOf r < g.size := List.idxOf_lt_length_of_mem hr
  simp [Group.listsFor, Group.listFor, hr]

/-- Every member gets the values of all. -/
theorem gatherOne_together [Layout κ T] [LawfulLayout κ T] (hg : g.ranks.Nodup)
    (hn : ∀ r ∈ g.ranks, r < n) (value : Nat → T) :
    Together n g.ranks
      (fun r => (gatherOne (Seat.of r n) g tag (value r) : Proc κ _).toProgram)
      (fun _ => .ok (g.ranks.map value)) := by
  refine (gather_together tag hg hn (fun r => [value r]) fun _ _ => by simp).andThen ?_
  refine (Together.ofChecked _).congr (fun _ _ => rfl) fun _ _ => ?_
  rw [List.zip, List.zipWith_map_left, List.zipWith_self, List.mapM_map]
  exact mapM_eq_ok fun _ _ => rfl

/-- Every member gets the words of all. -/
theorem gatherNumbers_together (hg : g.ranks.Nodup) (hn : ∀ r ∈ g.ranks, r < n) {value : Nat → Nat}
    (hword : ∀ r ∈ g.ranks, value r < 2 ^ 64) :
    Together n g.ranks
      (fun r => (gatherNumbers (Seat.of r n) g tag (value r) : Proc κ _).toProgram)
      (fun _ => .ok (g.ranks.map value)) := by
  refine ((gatherOne_together hg hn fun r => UInt64.ofNat (value r)).mapOk
    (g := fun _ words => words.map UInt64.toNat)).congr (fun _ _ => rfl) fun _ _ => ?_
  rw [List.map_map]
  exact congrArg _ (List.map_congr_left fun r hr => toNat_ofNat_word (hword r hr))

/-- Every member gets the largest of the words. -/
theorem maxNumber_together (hg : g.ranks.Nodup) (hn : ∀ r ∈ g.ranks, r < n) {value : Nat → Nat}
    (hword : ∀ r ∈ g.ranks, value r < 2 ^ 64) :
    Together n g.ranks
      (fun r => (maxNumber (Seat.of r n) g tag (value r) : Proc κ _).toProgram)
      (fun r => .ok ((g.ranks.map value).max?.getD (value r))) :=
  ((gatherNumbers_together hg hn hword).mapOk
    (g := fun r values => values.max?.getD (value r))).congr (fun _ _ => rfl) fun _ _ => rfl

/-- Every member gets the sum of the words of the members before it, and of all. -/
theorem scanNumbers_together (hg : g.ranks.Nodup) (hn : ∀ r ∈ g.ranks, r < n) (value : Nat → Nat)
    (hword : (g.ranks.map value).sum < 2 ^ 64) :
    Together n g.ranks
      (fun r => (scanNumbers (Seat.of r n) g tag (value r) : Proc κ _).toProgram)
      (fun r => .ok (((g.ranks.takeWhile (· ≠ r)).map value).sum, (g.ranks.map value).sum)) := by
  refine (gatherNumbers_together hg hn fun r hr => ?_).andThen ?_
  · exact (List.le_sum_of_mem (List.mem_map_of_mem hr)).trans_lt hword
  refine Together.ofCheckedThen (fun _ _ => word_eq_ok hword) ?_
  refine (Together.done _).congr (fun _ _ => rfl) fun r _ => ?_
  rw [List.zip, List.zipWith_map_right, List.zipWith_self, List.takeWhile_map, List.map_map]
  rfl

/-- The members before a member. -/
theorem takeWhile_ne_append {r : Nat} {before after : List Nat} (h : r ∉ before) :
    (before ++ r :: after).takeWhile (fun s => decide (s ≠ r)) = before := by
  rw [List.takeWhile_append_of_pos fun s hs => by simpa using fun hsr : s = r => h (hsr ▸ hs),
    List.takeWhile_cons_of_neg (by simp), List.append_nil]

theorem takeWhile_ne_range {r : Nat} (hr : r < n) :
    (List.range n).takeWhile (fun s => decide (s ≠ r)) = List.range r := by
  obtain ⟨k, rfl⟩ := Nat.exists_eq_add_of_lt hr
  rw [Nat.add_assoc, List.range_add, List.range_succ_eq_map, List.map_cons]
  exact takeWhile_ne_append (by simp)

/-! ## All ranks -/

/-- Every rank gets the words of all. -/
theorem gatherWords_together (value : Nat → Nat) (hword : ∀ r < n, value r < 2 ^ 64) :
    Together n (List.range n)
      (fun r => (gatherWords (Seat.of r n) (value r) : Proc κ _).toProgram)
      (fun _ => .ok ((List.range n).map value)) := by
  have h := gather_together (κ := κ) (g := ⟨List.range n⟩) (n := n) gatherTag
    List.nodup_range (fun _ hr => List.mem_range.1 hr)
    (fun r => [UInt64.ofNat (value r)]) fun _ _ => by simp
  simp only [gatherWords, Group.all_of]
  refine Together.andThen h ?_
  refine (Together.ofChecked _).congr (fun _ _ => rfl) fun _ _ => ?_
  rw [List.mapM_map]
  exact mapM_eq_ok fun r hr => congrArg _ (toNat_ofNat_word (hword r (List.mem_range.1 hr)))

/-- Ranks that hold the same word agree. -/
theorem agree_together {what : Subject} {v : Nat} (hv : v < 2 ^ 64) :
    Together n (List.range n)
      (fun r => (agree (Seat.of r n) what v : Proc κ Unit).toProgram) (fun _ => .ok ()) := by
  refine (gatherWords_together (fun _ => v) fun _ _ => hv).andThen ?_
  refine (Together.done _).congr (fun r _ => ?_) fun _ _ => rfl
  rw [List.find?_eq_none.2 fun x hx => ?_]
  · rfl
  · obtain ⟨_, _, hv⟩ := List.mem_map.1 (List.fst_mem_of_mem_zipIdx hx)
    simp [← hv]

/-- All ranks swap. -/
theorem swapAll_together [Layout κ T] [LawfulLayout κ T] (list : Nat → Nat → List T)
    (hword : ∀ r < n, ∀ s < n, (list r s).length < 2 ^ 64) :
    Together n (List.range n)
      (fun r => (swap (Seat.of r n) (Group.all (Seat.of r n)) tag
        ((List.range n).map (list r)) : Proc κ _).toProgram)
      (fun r => .ok ((List.range n).map fun s => list s r)) := by
  have h := swap_together (κ := κ) (g := ⟨List.range n⟩) (n := n) tag
    List.nodup_range (fun _ hr => List.mem_range.1 hr)
    (fun r => (List.range n).map (list r)) (fun _ _ => List.length_map _)
    (fun r hr l hl => by
      obtain ⟨s, hs, rfl⟩ := List.mem_map.1 hl
      exact hword r (List.mem_range.1 hr) s (List.mem_range.1 hs))
    (fun r => Seat.of r n) fun _ _ => rfl
  refine h.congr (fun r _ => by rw [Group.all_of]) fun r hr => congrArg _ ?_
  refine List.map_congr_left fun s _ => ?_
  have hr : r < n := List.mem_range.1 hr
  have hlength : r < (List.range n).length := by simpa using hr
  have hidx := List.nodup_range.idxOf_getElem r hlength
  rw [List.getElem_range] at hidx
  simp [Group.listFor, hidx, hr]

/-- What a rank makes of a check by all of `n` ranks: its own error, or the value if all
    passed, or the first rank that did not. -/
def agreed (n : Nat) (what : Subject) (check : Nat → Checked α) (r : Nat) : Checked α := do
  let value ← check r
  match ((List.range n).map fun s => (check s).toBool.toNat).idxOf? 0 with
  | some rank => throw (.disagreement what rank 1 0)
  | none => return value

/-- All ranks check together. -/
theorem allPass_together (what : Subject) (check : Nat → Checked α) :
    Together n (List.range n)
      (fun r => (allPass (Seat.of r n) what (check r) : Proc κ _).toProgram)
      (agreed n what check) := by
  refine (gatherWords_together (fun r => (check r).toBool.toNat) fun r _ => ?_).andThen ?_
  · cases (check r).toBool <;> decide
  refine (Together.done _).congr (fun r _ => ?_) fun _ _ => rfl
  simp only [agreed]
  cases check r with
  | error e => rfl
  | ok a => cases ((List.range n).map fun s => (check s).toBool.toNat).idxOf? 0 <;> rfl

/-- If a check passes on all ranks, each has the value of its own. -/
theorem agreed_ok {what : Subject} {check : Nat → Checked α} {a : Nat → α}
    (h : ∀ s < n, check s = .ok (a s)) {r : Nat} (hr : r < n) :
    agreed n what check r = .ok (a r) := by
  have hnone : ((List.range n).map fun s => (check s).toBool.toNat).idxOf? 0 = none := by
    rw [List.idxOf?_eq_none_iff]
    intro hmem
    obtain ⟨s, hs, h0⟩ := List.mem_map.1 hmem
    rw [h s (List.mem_range.1 hs)] at h0
    cases h0
  rw [agreed, h r hr, hnone]
  rfl

/-- A rank that fails a check reports its own error. -/
theorem agreed_of_error {what : Subject} {check : Nat → Checked α} {r : Nat} {e : MeshError}
    (h : check r = .error e) : agreed n what check r = .error e := by
  rw [agreed, h]
  rfl

/-- If a check fails on any rank, it fails on all. -/
theorem agreed_eq_error (what : Subject) {check : Nat → Checked α} {s : Nat} (hs : s < n)
    {e : MeshError} (h : check s = .error e) (r : Nat) :
    ∃ e, agreed n what check r = .error e := by
  cases hr : check r with
  | error e => exact ⟨e, agreed_of_error hr⟩
  | ok a =>
    have hmem : 0 ∈ (List.range n).map fun s => (check s).toBool.toNat :=
      List.mem_map.2 ⟨s, List.mem_range.2 hs, by rw [h]; rfl⟩
    obtain ⟨rank, hrank⟩ := Option.ne_none_iff_exists'.1
      (mt List.idxOf?_eq_none_iff.1 (not_not_intro hmem))
    refine ⟨.disagreement what rank 1 0, ?_⟩
    rw [agreed, hr, hrank]
    rfl

/-- A check that passes on all ranks, and then a task. -/
theorem Together.allPassThen {what : Subject} {check : Nat → Checked α} {a : Nat → α}
    (h : ∀ r < n, check r = .ok (a r)) {f : Nat → α → Proc κ β} {y : Nat → Checked β}
    (hf : Together n (List.range n) (fun r => (f r (a r)).toProgram) y) :
    Together n (List.range n)
      (fun r => (allPass (Seat.of r n) what (check r) >>= f r).toProgram) y :=
  ((allPass_together what check).congr (fun _ _ => rfl) fun _ hr =>
    agreed_ok h (List.mem_range.1 hr)).andThen hf

/-- Nothing comes after a check that fails on any rank. -/
theorem Together.allPassFails (what : Subject) (check : Nat → Checked α) {s : Nat} (hs : s < n)
    {e : MeshError} (h : check s = .error e) :
    ∃ e : Nat → MeshError, (∀ r, agreed n what check r = .error (e r)) ∧
      ∀ f : Nat → α → Proc κ β, Together n (List.range n)
        (fun r => (allPass (Seat.of r n) what (check r) >>= f r).toProgram)
        fun r => .error (e r) := by
  choose e he using agreed_eq_error what hs h
  exact ⟨e, he, fun f =>
    ((allPass_together what check).congr (fun _ _ => rfl) fun r _ => he r).orFail⟩

end SharedMesh
