import SharedMesh.Proofs.Distinct
import SharedMesh.Proofs.Network.Together

/-!
# Blocks of ranks

Ranks that act together in blocks, each block on its own, act together as a whole
(`Together.ofBlocks`): while one block acts, the others wait, and none of them can tell.
-/

namespace SharedMesh

/-- The ranks fall into blocks: every rank is in its own, and has this one in common with the
    other ranks there. -/
structure Blocks (n : Nat) (block : Nat → List Nat) : Prop where
  mem : ∀ r < n, r ∈ block r
  lt : ∀ r < n, ∀ s ∈ block r, s < n
  same : ∀ r < n, ∀ s ∈ block r, block s = block r

/-- The blocks of ranks that meet are the same. -/
theorem Blocks.eq_of_mem {n : Nat} {block : Nat → List Nat} (h : Blocks n block) {r s q : Nat}
    (hr : r < n) (hs : s < n) (hqr : q ∈ block r) (hqs : q ∈ block s) : block r = block s :=
  (h.same r hr q hqr).symm.trans (h.same s hs q hqs)

namespace Together

variable {κ α : Type} {n : Nat} {p : Nat → Program κ α} {a : Nat → α}

/-- It does not matter in which order the members are listed. -/
theorem ofMembers {members others : List Nat} (h : Together n members p a)
    (hmem : ∀ r, r ∈ members ↔ r ∈ others) : Together n others p a := by
  intro β next rest
  have := h β next rest
  simpa only [hmem] using this

/-- First some ranks act, and then others. -/
theorem append {first second : List Nat} (h : Together n first p a)
    (h' : Together n second p a) (hdisjoint : ∀ r ∈ first, r ∉ second) :
    Together n (first ++ second) p a := by
  intro β next others
  have hfirst := h β next fun r => if r ∈ second then (p r).bind (next r) else others r
  have hsecond := h' β next fun r => if r ∈ first then next r (a r) else others r
  -- before, between and after
  have hstart : (fun r => if r ∈ first ++ second then (p r).bind (next r) else others r) =
      fun r => if r ∈ first then (p r).bind (next r) else
        if r ∈ second then (p r).bind (next r) else others r := by
    funext r
    by_cases hr : r ∈ first <;> simp [hr]
  have hbetween : (fun r => if r ∈ first then next r (a r) else
      if r ∈ second then (p r).bind (next r) else others r) =
        fun r => if r ∈ second then (p r).bind (next r) else
          if r ∈ first then next r (a r) else others r := by
    funext r
    by_cases hr : r ∈ first
    · simp [hr, hdisjoint r hr]
    · simp [hr]
  have hstop : (fun r => if r ∈ first ++ second then next r (a r) else others r) =
      fun r => if r ∈ second then next r (a r) else
        if r ∈ first then next r (a r) else others r := by
    funext r
    by_cases hr : r ∈ first <;> by_cases hr' : r ∈ second <;> simp [hr, hr']
  rw [hstart, hstop]
  rw [hbetween] at hfirst
  exact hfirst.trans hsecond

/-- Blocks that act one after the other. -/
theorem flatten {blocks : List (List Nat)} (h : ∀ b ∈ blocks, Together n b p a)
    (hdisjoint : blocks.Pairwise fun b c => ∀ r ∈ b, r ∉ c) :
    Together n blocks.flatten p a := by
  induction blocks with
  | nil => exact fun _ _ _ => .refl _
  | cons b blocks ih =>
    obtain ⟨hb, hblocks⟩ := List.pairwise_cons.1 hdisjoint
    rw [List.flatten_cons]
    refine (h b List.mem_cons_self).append
      (ih (fun c hc => h c (List.mem_cons_of_mem _ hc)) hblocks) fun r hr hmem => ?_
    obtain ⟨c, hc, hrc⟩ := List.mem_flatten.1 hmem
    exact hb c hc r hr hrc

/-- What each block does together, all ranks do together. -/
theorem ofBlocks {block : Nat → List Nat} (hblocks : Blocks n block)
    (h : ∀ r < n, Together n (block r) p a) : Together n (List.range n) p a := by
  let blocks := ((List.range n).map block).eraseDups
  have hof : ∀ b ∈ blocks, ∃ r < n, block r = b := fun b hb => by
    obtain ⟨r, hr, rfl⟩ := List.mem_map.1 (List.mem_eraseDups.1 hb)
    exact ⟨r, List.mem_range.1 hr, rfl⟩
  have hflatten : Together n blocks.flatten p a := by
    refine flatten (fun b hb => ?_) ?_
    · obtain ⟨r, hr, rfl⟩ := hof b hb
      exact h r hr
    · refine (nodup_eraseDups _).imp_of_mem fun {b c} hb hc hne q hqb hqc => hne ?_
      obtain ⟨r, hr, rfl⟩ := hof b hb
      obtain ⟨s, hs, rfl⟩ := hof c hc
      exact hblocks.eq_of_mem hr hs hqb hqc
  refine hflatten.ofMembers fun q => ?_
  rw [List.mem_flatten, List.mem_range]
  constructor
  · rintro ⟨b, hb, hq⟩
    obtain ⟨r, hr, rfl⟩ := hof b hb
    exact hblocks.lt r hr q hq
  · intro hq
    exact ⟨block q, List.mem_eraseDups.2 (List.mem_map_of_mem (List.mem_range.2 hq)),
      hblocks.mem q hq⟩

end Together

end SharedMesh
