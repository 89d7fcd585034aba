import Mathlib.Data.List.InsertIdx
import SharedMesh.Collective.Swap
import SharedMesh.Proofs.Checked
import SharedMesh.Proofs.Collective.Round

/-!
# Swaps deliver

A swap is two rounds, one for the numbers of values and one for the values. In
each, what a member takes from its peers is exactly what they sent to it (`Takes`), so
every member gets the lists that the members have for it (`swap_together`).
-/

namespace SharedMesh

open World

variable {κ α T : Type} {n : Nat} {tag : UInt16} {members : List Nat} {r : Nat}

/-! ## Taking messages one by one -/

namespace Takes

theorem done {sent : Nat → List (List κ)} (h : ∀ s ∈ members, sent s = []) (a : α) :
    Takes n members tag r sent (.done a) a := by
  intro β q next mail hq hmail
  refine ⟨mail, ?_, fun c => ?_⟩
  · rw [show next a = q r from hq.symm, Function.update_eq_self]
    exact .refl _
  · split
    · next hc =>
      obtain ⟨s, t, g⟩ := c
      obtain ⟨hs, rfl, rfl⟩ := hc
      rw [hmail s hs, h s hs]
    · rfl

/-- The one message of a peer is taken, and then those of the other peers. -/
theorem recv (hr : r < n) {sent : Nat → List (List κ)} {peer room : Nat} {body : List κ}
    {next : Option (List κ) → Program κ α} {a : α} (hpeer : sent peer = [body])
    (h : Takes n members tag r (Function.update sent peer []) (next (some (body.take room))) a)
    (hmem : peer ∈ members) : Takes n members tag r sent (.recv peer tag room next) a := by
  intro β q next' mail hq hmail
  obtain ⟨mail₁, ht, hmail₁⟩ := Mailbox.take?_of_pending ((hmail peer hmem).trans hpeer)
  have h₁ := reaches_recv (n := n) hr hq ht
  obtain ⟨mail₂, h₂, hmail₂⟩ := h β
    (Function.update q r ((next (some (body.take room))).bind next')) next' mail₁
    (Function.update_self ..) fun s hs => by
    rw [hmail₁]
    by_cases hsp : s = peer
    · subst hsp
      simp
    · rw [Function.update_of_ne hsp, if_neg fun hc => hsp (Channel.mk.inj hc).1.symm, hmail s hs]
  rw [Function.update_idem] at h₂
  refine ⟨mail₂, h₁.trans h₂, fun c => ?_⟩
  rw [hmail₂, hmail₁]
  by_cases hc : c.source ∈ members ∧ c.target = r ∧ c.tag = tag
  · rw [if_pos hc, if_pos hc]
  · rw [if_neg hc, if_neg hc, if_neg]
    rintro rfl
    exact hc ⟨hmem, rfl, rfl⟩

theorem bindDone {β : Type} {sent : Nat → List (List κ)} {p : Program κ α} {a : α}
    (h : Takes n members tag r sent p a) (f : α → β) :
    Takes n members tag r sent (p.bind fun x => .done (f x)) (f a) := by
  intro γ q next mail hq hmail
  rw [Program.bind_assoc] at hq
  exact h γ q (fun x => next (f x)) mail hq hmail

end Takes

/-! ## Announcements and values -/

section

variable [Alphabet κ] [LawfulAlphabet κ]

theorem readCount_encode (peer : Nat) {count : Nat} (h : count < 2 ^ 64) :
    readCount peer (some (Layout.encode (UInt64.ofNat count) : List κ)) = .ok count := by
  have := Layout.decodeList_encodeList (κ := κ) peer [UInt64.ofNat count]
  simp only [Layout.encodeList, List.flatMap_cons, List.flatMap_nil, List.append_nil,
    List.length_singleton] at this
  simp only [readCount, this]
  refine congrArg Except.ok ?_
  rw [List.headD_cons, UInt64.toNat_ofNat', Nat.mod_eq_of_lt h]

/-- A rank takes the announcements of its peers. -/
theorem takes_recvCounts (hr : r < n) {peers : List Nat} (hpeers : peers.Nodup)
    (hmem : ∀ s ∈ peers, s ∈ members) {count : Nat → Nat} (hword : ∀ s ∈ peers, count s < 2 ^ 64)
    {sent : Nat → List (List κ)} (hsent : ∀ s ∈ members, sent s =
      if s ∈ peers then [Layout.encode (UInt64.ofNat (count s))] else []) :
    Takes n members tag r sent (recvCounts tag peers) (peers.map fun s => .ok (count s)) := by
  induction peers generalizing sent with
  | nil => exact .done (fun s hs => by simpa using hsent s hs) _
  | cons peer rest ih =>
    obtain ⟨hpeer, hrest⟩ := List.nodup_cons.1 hpeers
    have hm : peer ∈ members := hmem peer List.mem_cons_self
    refine .recv hr ((hsent peer hm).trans (if_pos List.mem_cons_self)) ?_ hm
    rw [List.take_of_length_le (Nat.le_of_eq (LawfulLayout.length_encode _)),
      readCount_encode peer (hword peer List.mem_cons_self)]
    refine (ih hrest (fun s hs => hmem s (List.mem_cons_of_mem _ hs))
      (fun s hs => hword s (List.mem_cons_of_mem _ hs)) fun s hs => ?_).bindDone _
    by_cases hsp : s = peer
    · subst hsp
      simp [hpeer]
    · rw [Function.update_of_ne hsp, hsent s hs]
      simp [hsp]

end

/-- A rank takes the values of those peers that announced any. -/
theorem takes_recvValues [Layout κ T] [LawfulLayout κ T] (hr : r < n) {peers : List Nat}
    (hpeers : peers.Nodup) (hmem : ∀ s ∈ peers, s ∈ members) {list : Nat → List T}
    {sent : Nat → List (List κ)} (hsent : ∀ s ∈ members, sent s =
      if s ∈ peers ∧ list s ≠ [] then [Layout.encodeList (list s)] else []) :
    Takes n members tag r sent (recvValues tag (peers.map fun s => (s, (list s).length)))
      (peers.map fun s => .ok (list s)) := by
  induction peers generalizing sent with
  | nil => exact .done (fun s hs => by simpa using hsent s hs) _
  | cons peer rest ih =>
    obtain ⟨hpeer, hrest⟩ := List.nodup_cons.1 hpeers
    have hm : peer ∈ members := hmem peer List.mem_cons_self
    have ih := @ih hrest fun s hs => hmem s (List.mem_cons_of_mem _ hs)
    rw [List.map_cons, List.map_cons, recvValues]
    by_cases hnil : list peer = []
    · -- nothing was announced, and nothing is waited for
      rw [if_pos (by rw [hnil]; rfl), hnil]
      refine (ih fun s hs => ?_).bindDone _
      rw [hsent s hs]
      by_cases hsp : s = peer
      · subst hsp
        simp [hnil]
      · simp [hsp]
    · rw [if_neg fun h => hnil (List.length_eq_zero_iff.1 h)]
      refine .recv hr ((hsent peer hm).trans (if_pos ⟨List.mem_cons_self, hnil⟩)) ?_ hm
      rw [List.take_of_length_le (Nat.le_of_eq (Layout.length_encodeList _)), readValues,
        Layout.decodeList_encodeList]
      refine (ih fun s hs => ?_).bindDone _
      by_cases hsp : s = peer
      · subst hsp
        simp [hpeer]
      · rw [Function.update_of_ne hsp, hsent s hs]
        simp [hsp]

/-! ## The lists of a swap -/

namespace Group

/-- The list for a member, among lists for all members. -/
def listFor (g : Group) (lists : List (List T)) (member : Nat) : List T :=
  lists.getD (g.ranks.idxOf member) []

/-- The lists that the members have for a rank, in the order of the group. -/
def listsFor (g : Group) (sends : Nat → List (List T)) (rank : Nat) : List (List T) :=
  g.ranks.map fun s => g.listFor (sends s) rank

/-- The members but one. -/
def peersOf (g : Group) (rank : Nat) : List Nat := g.ranks.eraseIdx (g.ranks.idxOf rank)

variable {g : Group} {rank : Nat}

theorem map_listFor (hg : g.ranks.Nodup) {lists : List (List T)}
    (hlists : lists.length = g.size) : g.ranks.map (g.listFor lists) = lists := by
  refine List.ext_getElem (by simp [hlists, size]) fun i hi hi' => ?_
  have hi₀ : i < g.ranks.length := by simpa using hi
  rw [List.getElem_map, listFor, hg.idxOf_getElem i hi₀]
  simp [hi']

theorem position?_of_mem (h : rank ∈ g.ranks) :
    g.position? rank = some (g.ranks.idxOf rank) := by
  refine List.idxOf?_eq_some_iff.2 ⟨List.idxOf_lt_length_of_mem h, List.getElem_idxOf _, ?_⟩
  intro j hj hjr
  simpa [hjr] using List.not_of_lt_findIdx hj

theorem mem_peersOf (hg : g.ranks.Nodup) {s : Nat} :
    s ∈ g.peersOf rank ↔ s ∈ g.ranks ∧ s ≠ rank := by
  rw [peersOf, List.eraseIdx_idxOf_eq_erase, hg.mem_erase_iff, and_comm]

theorem nodup_peersOf (hg : g.ranks.Nodup) : (g.peersOf rank).Nodup :=
  hg.sublist (List.eraseIdx_sublist ..)

/-- The lists for the peers, and the list of the rank itself put back. -/
theorem insertIdx_peersOf (h : rank ∈ g.ranks) (f : Nat → List T) :
    ((g.peersOf rank).map f).insertIdx (g.ranks.idxOf rank) (f rank) = g.ranks.map f := by
  have hlt : g.ranks.idxOf rank < (g.ranks.map f).length := by
    simpa using List.idxOf_lt_length_of_mem h
  have := List.insertIdx_eraseIdx_getElem hlt
  rwa [List.eraseIdx_map, List.getElem_map, List.getElem_idxOf] at this

end Group

theorem sentTo_map {peers : List Nat} (hpeers : peers.Nodup) (body : Nat → List κ) (peer : Nat) :
    sentTo (peers.map fun s => (s, body s)) peer = if peer ∈ peers then [body peer] else [] := by
  induction peers with
  | nil => rfl
  | cons p rest ih =>
    obtain ⟨hp, hrest⟩ := List.nodup_cons.1 hpeers
    rw [List.map_cons, sentTo_cons, ih hrest]
    by_cases h : p = peer
    · subst h
      simp [hp]
    · simp [h, Ne.symm h]

/-! ## The two rounds -/

section Swap

variable [Layout κ T] {g : Group}

/-- The values move. -/
theorem swapValues_together [LawfulLayout κ T] (tag : UInt16) (hg : g.ranks.Nodup)
    (hn : ∀ r ∈ g.ranks, r < n) (list : Nat → Nat → List T) :
    Together n g.ranks
      (fun r => (swapValues tag (g.peersOf r) ((g.peersOf r).map (list r))
        ((g.peersOf r).map fun s => (list s r).length) : Proc κ _).toProgram)
      (fun r => .ok ((g.peersOf r).map fun s => list s r)) := by
  have hround := Together.round (n := n) (κ := κ) tag hg hn
    (fun r => ((g.peersOf r).filter fun s => !(list r s).isEmpty).map fun s =>
      (s, Layout.encodeList (list r s)))
    (p := fun r => recvValues tag ((g.peersOf r).map fun s => (s, (list s r).length)))
    (a := fun r => (g.peersOf r).map fun s => .ok (list s r))
    (fun s hs message hm => by
      obtain ⟨p, hp, rfl⟩ := List.mem_map.1 hm
      exact ((Group.mem_peersOf hg).1 (List.mem_filter.1 hp).1).1)
    (fun r hr => takes_recvValues (hn r hr) (Group.nodup_peersOf hg)
      (fun s hs => ((Group.mem_peersOf hg).1 hs).1) fun s hs => by
        rw [sentTo_map ((Group.nodup_peersOf hg).filter _)]
        simp only [List.mem_filter, Group.mem_peersOf hg, hr, hs, true_and, ne_comm,
          Bool.not_eq_true', List.isEmpty_eq_false_iff])
  refine (hround.bind (f := fun _ arrived => .done (arrived.mapM id))
    (b := fun r => .ok ((g.peersOf r).map fun s => list s r)) ?_).congr (fun r _ => ?_)
      fun _ _ => rfl
  · refine (Together.done _).congr (fun _ _ => rfl) fun r _ => ?_
    rw [← mapM_ok_id, List.map_map]
    rfl
  · have hzip : ∀ {β : Type} (f : Nat → β), (g.peersOf r).zip ((g.peersOf r).map f) =
        (g.peersOf r).map fun s => (s, f s) := fun f => by
      rw [List.zip, List.zipWith_map_right, List.zipWith_self]
    rw [swapValues, Proc.toProgram, Proc.ofProgram, ExceptT.run_bind_lift, Proc.ofProgram]
    simp only [ExceptT.run_bind_lift, hzip, List.filter_map, List.map_map]
    exact Program.bind_assoc _ _ _

variable [Alphabet κ]

/-- The members tell each other how many values will come. -/
theorem swapCounts_together [LawfulAlphabet κ] (tag : UInt16) (hg : g.ranks.Nodup)
    (hn : ∀ r ∈ g.ranks, r < n) (count : Nat → Nat → Nat)
    (hword : ∀ r ∈ g.ranks, ∀ s ∈ g.ranks, count r s < 2 ^ 64) :
    Together n g.ranks
      (fun r => (swapCounts tag (g.peersOf r) ((g.peersOf r).map (count r)) : Proc κ _).toProgram)
      (fun r => .ok ((g.peersOf r).map fun s => count s r)) := by
  have hround := Together.round (n := n) (κ := κ) tag hg hn
    (fun r => (g.peersOf r).map fun s => (s, Layout.encode (UInt64.ofNat (count r s))))
    (p := fun r => recvCounts tag (g.peersOf r))
    (a := fun r => (g.peersOf r).map fun s => .ok (count s r))
    (fun s hs message hm => by
      obtain ⟨p, hp, rfl⟩ := List.mem_map.1 hm
      exact ((Group.mem_peersOf hg).1 hp).1)
    (fun r hr => takes_recvCounts (hn r hr) (Group.nodup_peersOf hg)
      (fun s hs => ((Group.mem_peersOf hg).1 hs).1)
      (fun s hs => hword s ((Group.mem_peersOf hg).1 hs).1 r hr) fun s hs => by
        rw [sentTo_map (Group.nodup_peersOf hg)]
        simp only [Group.mem_peersOf hg, hr, hs, true_and, ne_comm])
  refine (hround.bind (f := fun _ told => .done (told.mapM id))
    (b := fun r => .ok ((g.peersOf r).map fun s => count s r)) ?_).congr (fun r _ => ?_)
      fun _ _ => rfl
  · refine (Together.done _).congr (fun _ _ => rfl) fun r _ => ?_
    rw [← mapM_ok_id, List.map_map]
    rfl
  · rw [swapCounts, Proc.toProgram, Proc.ofProgram, ExceptT.run_bind_lift, Proc.ofProgram]
    simp only [ExceptT.run_bind_lift, List.zipWith_map_right, List.zipWith_self]
    exact Program.bind_assoc _ _ _

/-- A swap of a member, in terms of its peers. -/
theorem swap_eq {lists : List (List T)} (hr : r ∈ g.ranks) (hg : g.ranks.Nodup)
    (hlists : lists.length = g.size) {seat : Seat} (hseat : seat.rank = r) :
    (swap seat g tag lists : Proc κ (List (List T))) = do
      let counts ← swapCounts tag (g.peersOf r)
        ((g.peersOf r).map fun s => (g.listFor lists s).length)
      let arrived ← swapValues (tag + 1) (g.peersOf r) ((g.peersOf r).map (g.listFor lists)) counts
      return arrived.insertIdx (g.ranks.idxOf r) (g.listFor lists r) := by
  have hothers : lists.eraseIdx (g.ranks.idxOf r) = (g.peersOf r).map (g.listFor lists) := by
    conv_lhs => rw [← g.map_listFor hg hlists, List.eraseIdx_map]
    rfl
  subst hseat
  rw [swap, if_neg (not_not_intro hlists), Group.position?_of_mem hr]
  simp only [hothers, List.map_map]
  rfl

/-- In a swap every member gets the lists that the members have for it. -/
theorem swap_together [LawfulAlphabet κ] [LawfulLayout κ T] (tag : UInt16) (hg : g.ranks.Nodup)
    (hn : ∀ r ∈ g.ranks, r < n) (sends : Nat → List (List T))
    (hsends : ∀ r ∈ g.ranks, (sends r).length = g.size)
    (hword : ∀ r ∈ g.ranks, ∀ list ∈ sends r, list.length < 2 ^ 64) (seat : Nat → Seat)
    (hseat : ∀ r ∈ g.ranks, (seat r).rank = r) :
    Together n g.ranks
      (fun r => (swap (seat r) g tag (sends r) : Proc κ (List (List T))).toProgram)
      (fun r => .ok (g.listsFor sends r)) := by
  have hlength : ∀ r ∈ g.ranks, ∀ s ∈ g.ranks, (g.listFor (sends r) s).length < 2 ^ 64 := by
    intro r hr s hs
    have h := List.mem_map_of_mem (f := g.listFor (sends r)) hs
    rw [g.map_listFor hg (hsends r hr)] at h
    exact hword r hr _ h
  -- the counts travel under the tag, and the values under the next one
  have hcounts := swapCounts_together (κ := κ) tag hg hn
    (fun r s => (g.listFor (sends r) s).length) hlength
  have hvalues := (swapValues_together (κ := κ) (tag + 1) hg hn
    fun r => g.listFor (sends r)).mapOk
      (g := fun r arrived => arrived.insertIdx (g.ranks.idxOf r) (g.listFor (sends r) r))
  refine (hcounts.andThen (f := fun r counts =>
    swapValues (tag + 1) (g.peersOf r) ((g.peersOf r).map (g.listFor (sends r))) counts >>=
      fun arrived => pure (arrived.insertIdx (g.ranks.idxOf r) (g.listFor (sends r) r)))
    hvalues).congr (fun r hr => ?_) fun r hr => ?_
  · rw [swap_eq hr hg (hsends r hr) (hseat r hr)]
  · rw [Group.insertIdx_peersOf hr fun s => g.listFor (sends s) r]
    rfl

end Swap

end SharedMesh
