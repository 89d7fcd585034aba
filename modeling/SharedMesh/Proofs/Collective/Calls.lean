import SharedMesh.Proofs.Collective.Swap

/-!
# Calls in any interleaving

Ranks make a sequence of swaps, each in a group of its own: a rank takes part in those
calls whose group it is in, and skips the others. The tags are arbitrary, so the messages
of different calls may travel on the same channels, and ranks that are in many groups lag
behind those that are in few.

Still every call delivers (`calls_yield_answers`): channels are queues, so it is enough that
the calls deliver one after the other, which is `swap_together`.
-/

namespace SharedMesh

variable {κ ι : Type} {T : ι → Type}

/-- A swap that the members of a group make together: the values are of the type `T kind`,
    and `sends rank` holds the lists that a member has for each member. -/
structure Call (T : ι → Type) where
  kind : ι
  group : Group
  tag : UInt16
  sends : Nat → List (List (T kind))

namespace Call

/-- The group consists of ranks of a world of `n`, none of them twice, and every member has
    one list for each member, with a word for its length. -/
structure Sound (c : Call T) (n : Nat) : Prop where
  nodup : c.group.ranks.Nodup
  rank_lt : ∀ r ∈ c.group.ranks, r < n
  length_sends : ∀ r ∈ c.group.ranks, (c.sends r).length = c.group.size
  length_lt : ∀ r ∈ c.group.ranks, ∀ list ∈ c.sends r, list.length < 2 ^ 64

/-- What the members have for a rank: the list at `k` is the one that member `k` passed
    for it. -/
def answer (c : Call T) (rank : Nat) : Σ kind, List (List (T kind)) :=
  ⟨c.kind, c.group.listsFor c.sends rank⟩

/-- The answers to the calls that a rank takes part in. -/
def answers (calls : List (Call T)) (rank : Nat) : List (Σ kind, List (List (T kind))) :=
  (calls.filter fun c => c.group.contains rank).map fun c => c.answer rank

variable [Alphabet κ] [∀ kind, Layout κ (T kind)]

/-- The program of a rank: the calls whose group it is in, in order. -/
def program (seat : Seat) : List (Call T) → Proc κ (List (Σ kind, List (List (T kind))))
  | [] => return []
  | c :: rest =>
    if c.group.contains seat.rank then do
      let lists ← swap seat c.group c.tag (c.sends seat.rank)
      let later ← program seat rest
      return ⟨c.kind, lists⟩ :: later
    else program seat rest

variable [LawfulAlphabet κ] [∀ kind, LawfulLayout κ (T kind)] {n : Nat}

/-- The calls can be made one after the other. -/
theorem program_together {calls : List (Call T)} (h : ∀ c ∈ calls, c.Sound n) :
    Together n (List.range n) (fun r => (program (κ := κ) (Seat.of r n) calls).toProgram)
      fun r => .ok (answers calls r) := by
  induction calls with
  | nil => exact .done _
  | cons c rest ih =>
    have hc : c.Sound n := h c List.mem_cons_self
    have ih := ih fun c' hc' => h c' (List.mem_cons_of_mem c hc')
    have hswap := swap_together (κ := κ) c.tag hc.nodup hc.rank_lt _ hc.length_sends
      hc.length_lt (fun r => Seat.of r n) fun _ _ => rfl
    -- the members swap while the other ranks wait, and then all ranks go on
    have hrest := ih.bind (f := fun r later => .done (if r ∈ c.group.ranks then
      later.map fun later => c.answer r :: later else later)) (.done _)
    refine ((hswap.someFirst (List.range n)
      (fun r hr => List.mem_range.2 (hc.rank_lt r hr))
      (f := fun r lists => (do
        let lists ← Proc.ofChecked lists
        let later ← program (Seat.of r n) rest
        return ⟨c.kind, lists⟩ :: later : Proc κ (List (Σ kind, List (List (T kind))))).toProgram)
      (q := fun r => (program (κ := κ) (Seat.of r n) rest).toProgram)
      (hrest.congr (fun r _ => ?_) fun _ _ => rfl)).congr (fun r _ => ?_) fun r _ => ?_)
    · split
      · exact congrArg _ (funext fun later => by cases later <;> rfl)
      · exact Program.bind_done _
    · by_cases hr : r ∈ c.group.ranks
      · rw [if_pos hr, program, if_pos (by simpa [Group.contains, Seat.of] using hr)]
        exact congrArg _ (funext fun lists => by cases lists <;> rfl)
      · rw [if_neg hr, program, if_neg (by simpa [Group.contains, Seat.of] using hr)]
    · by_cases hr : r ∈ c.group.ranks <;> simp [answers, Group.contains, hr, Except.map]

end Call

/-- Whatever the order of sends and receives, every call returns on every member the lists
    that the members passed for it; the ranks are never stuck; and at the end all
    channels are empty. -/
theorem calls_yield_answers [Alphabet κ] [LawfulAlphabet κ] [∀ kind, Layout κ (T kind)]
    [∀ kind, LawfulLayout κ (T kind)] {n : Nat} {calls : List (Call T)}
    (h : ∀ c ∈ calls, c.Sound n) :
    (World.start ((List.range n).map fun r =>
      (Call.program (κ := κ) (Seat.of r n) calls).toProgram)).Yields
        ((List.range n).map fun r => .ok (Call.answers calls r)) :=
  (Call.program_together h).yields

/-! ## Calls on neighbouring tags -/

/-- Words or bytes. -/
abbrev Entry : Bool → Type
  | true => UInt64
  | false => UInt8

instance [Alphabet κ] : ∀ wide, Layout κ (Entry wide)
  | true => inferInstanceAs (Layout κ UInt64)
  | false => inferInstanceAs (Layout κ UInt8)

instance [Alphabet κ] [LawfulAlphabet κ] : ∀ wide, LawfulLayout κ (Entry wide)
  | true => inferInstanceAs (LawfulLayout κ UInt64)
  | false => inferInstanceAs (LawfulLayout κ UInt8)

/-- Three calls in different groups. The values of the first travel under the tag that the
    second announces its values with, and the first and the last have the same tag. -/
def crossingCalls : List (Call Entry) :=
  [⟨true, ⟨[0, 1]⟩, 5, fun r => if r = 0 then [[7], [8, 9]] else [[], [3]]⟩,
    ⟨false, ⟨[2, 1]⟩, 6, fun r => [[UInt8.ofNat r], [1, 1, 1]]⟩,
    ⟨true, ⟨[1, 2, 0]⟩, 5, fun r => [[UInt64.ofNat r], [], [10, 20]]⟩]

theorem crossingCalls_yield :
    (∀ c ∈ crossingCalls, c.Sound 3) ∧
      (World.start ((List.range 3).map fun r =>
        (Call.program (κ := UInt8) (Seat.of r 3) crossingCalls).toProgram)).Yields
          [.ok [⟨true, [[7], []]⟩, ⟨true, [[10, 20], [10, 20], [10, 20]]⟩],
            .ok [⟨true, [[8, 9], [3]]⟩, ⟨false, [[1, 1, 1], [1, 1, 1]]⟩, ⟨true, [[1], [2], [0]]⟩],
            .ok [⟨false, [[2], [1]]⟩, ⟨true, [[], [], []]⟩]] := by
  have hsound : ∀ c ∈ crossingCalls, c.Sound 3 := by
    simp only [crossingCalls, List.forall_mem_cons, List.not_mem_nil, false_implies, implies_true,
      and_true]
    exact ⟨⟨by decide, by decide, by decide, by decide⟩,
      ⟨by decide, by decide, by decide, by decide⟩,
      ⟨by decide, by decide, by decide, by decide⟩⟩
  exact ⟨hsound, calls_yield_answers hsound⟩

end SharedMesh
