import SharedMesh.Network.World

/-!
# Interleavings

Which rank moves next is left open in a world. Ranks meet only at channels, and every
channel has one sender and one receiver, so the moves of two ranks commute (`diamond`), up
to the order in which letters of different channels lie in the mailbox (`Alike`).

So it is enough to follow one interleaving: if it brings all ranks to their ends and
leaves no message behind, then every interleaving does, after as many steps, with the same
results (`Yields`, `yields_of_reaches`). In particular no rank is ever stuck, and the play
of the world has these results (`Yields.run_eq`).
-/

namespace SharedMesh

/-! ## Mailboxes as queues -/

namespace Mailbox

variable {κ : Type}

/-- The first message that waits on a channel can be taken, and the others stay. -/
theorem take?_of_pending {m : Mailbox κ} {c : Channel} {body : List κ}
    {rest : List (List κ)} (h : m.pending c = body :: rest) :
    ∃ m', m.take? c = some (body, m') ∧
      ∀ d, m'.pending d = if c = d then rest else m.pending d := by
  cases ht : m.take? c with
  | none => rw [take?_eq_none_iff, h] at ht; cases ht
  | some taken =>
    obtain ⟨body', m'⟩ := taken
    have hp := pending_of_take? ht
    have hc := hp c
    rw [h, if_pos rfl, List.singleton_append, List.cons.injEq] at hc
    refine ⟨m', by rw [hc.1], fun d => ?_⟩
    split
    · next hd => rw [← hd, hc.2]
    · next hd => rw [hp d, if_neg hd, List.nil_append]

/-- A mailbox in which nothing waits on any channel is empty. -/
theorem eq_empty_of_pending {m : Mailbox κ} (h : ∀ c, m.pending c = []) : m = empty := by
  obtain ⟨letters⟩ := m
  cases letters with
  | nil => rfl
  | cons l rest => simpa [pending] using h l.channel

@[simp] theorem pending_empty (c : Channel) : (empty : Mailbox κ).pending c = [] := rfl

end Mailbox

namespace World

variable {κ α : Type}

/-! ## Moves of a rank -/

/-- A step that is made by `rank`. -/
inductive Move (rank : Nat) : World κ α → World κ α → Prop
  | send {w : World κ α} {peer : Nat} {tag : UInt16} {body : List κ} {next : Program κ α}
      (h : w.ranks[rank]? = some (.send peer tag body next)) :
      Move rank w ⟨w.ranks.set rank next, w.mail.post ⟨rank, peer, tag⟩ body⟩
  | recv {w : World κ α} {peer room : Nat} {tag : UInt16}
      {next : Option (List κ) → Program κ α} {body : List κ} {mail : Mailbox κ}
      (h : w.ranks[rank]? = some (.recv peer tag room next))
      (hm : w.mail.take? ⟨peer, rank, tag⟩ = some (body, mail)) :
      Move rank w ⟨w.ranks.set rank (next (some (body.take room))), mail⟩

theorem step_iff {w v : World κ α} : Step w v ↔ ∃ rank, Move rank w v := by
  constructor
  · rintro (h | ⟨h, hm⟩)
    · exact ⟨_, .send h⟩
    · exact ⟨_, .recv h hm⟩
  · rintro ⟨rank, h | ⟨h, hm⟩⟩
    · exact .send h
    · exact .recv h hm

/-- What a rank does next is its own doing. -/
theorem Move.unique {rank : Nat} {w u v : World κ α} (hu : Move rank w u)
    (hv : Move rank w v) : u = v := by
  cases hu with
  | send h =>
    cases hv with
    | send h' => cases h.symm.trans h'; rfl
    | recv h' => cases h.symm.trans h'
  | recv h hm =>
    cases hv with
    | send h' => cases h.symm.trans h'
    | recv h' hm' => cases h.symm.trans h'; cases hm.symm.trans hm'; rfl

/-- The same programs, and the same messages on every channel. -/
structure Alike (w v : World κ α) : Prop where
  ranks : w.ranks = v.ranks
  pending : ∀ c, w.mail.pending c = v.mail.pending c

theorem Alike.refl (w : World κ α) : Alike w w := ⟨rfl, fun _ => rfl⟩

theorem Alike.trans {u v w : World κ α} (h : Alike u v) (h' : Alike v w) : Alike u w :=
  ⟨h.ranks.trans h'.ranks, fun c => (h.pending c).trans (h'.pending c)⟩

/-- A rank can make the same move in a world that is alike. -/
theorem Move.alike {rank : Nat} {w v w' : World κ α} (h : Move rank w v) (hw : Alike w w') :
    ∃ v', Move rank w' v' ∧ Alike v v' := by
  cases h with
  | @send peer tag body next h =>
    refine ⟨_, .send (hw.ranks ▸ h), by rw [hw.ranks], fun c => ?_⟩
    simp only [Mailbox.pending_post, hw.pending]
  | @recv peer room tag next body mail h hm =>
    have hp := Mailbox.pending_of_take? hm
    have hc : w'.mail.pending ⟨peer, rank, tag⟩ = body :: mail.pending ⟨peer, rank, tag⟩ := by
      rw [← hw.pending, hp, if_pos rfl, List.singleton_append]
    obtain ⟨mail', hm', hp'⟩ := Mailbox.take?_of_pending hc
    refine ⟨_, .recv (hw.ranks ▸ h) hm', by rw [hw.ranks], fun c => ?_⟩
    rw [hp']
    split
    · next hd => rw [hd]
    · next hd => rw [← hw.pending, hp c, if_neg hd, List.nil_append]

/-- A message that a rank can take can still be taken after the move of another rank. -/
theorem Move.take? {i j : Nat} (hij : i ≠ j) {w u : World κ α} (h : Move i w u)
    {peer : Nat} {tag : UInt16} {body : List κ} {mail : Mailbox κ}
    (hm : w.mail.take? ⟨peer, j, tag⟩ = some (body, mail)) :
    ∃ mail', u.mail.take? ⟨peer, j, tag⟩ = some (body, mail') := by
  have hp := Mailbox.pending_of_take? hm ⟨peer, j, tag⟩
  rw [if_pos rfl, List.singleton_append] at hp
  have hu : ∃ rest, u.mail.pending ⟨peer, j, tag⟩ = body :: rest := by
    cases h with
    | send => exact ⟨_, by rw [Mailbox.pending_post, hp, List.cons_append]⟩
    | @recv peer' _ tag' _ _ _ _ hm' =>
      have hne : (⟨peer', i, tag'⟩ : Channel) ≠ ⟨peer, j, tag⟩ := fun h =>
        hij (Channel.mk.inj h).2.1
      have := Mailbox.pending_of_take? hm' ⟨peer, j, tag⟩
      rw [if_neg hne, List.nil_append] at this
      exact ⟨_, this ▸ hp⟩
  obtain ⟨rest, hu⟩ := hu
  obtain ⟨mail', h', _⟩ := Mailbox.take?_of_pending hu
  exact ⟨mail', h'⟩

/-- The program of a rank does not change when another rank moves. -/
theorem Move.frame {i j : Nat} (hij : i ≠ j) {w u : World κ α} (h : Move i w u) :
    u.ranks[j]? = w.ranks[j]? := by
  cases h <;> exact List.getElem?_set_ne hij

/-- It does not matter for what waits whether a message is taken before another is posted or
    after. -/
theorem pending_post_take? {mail mail' mail'' : Mailbox κ} {c d : Channel} {body posted : List κ}
    (h : mail.take? c = some (body, mail'))
    (h' : (mail.post d posted).take? c = some (body, mail'')) (e : Channel) :
    mail''.pending e = (mail'.post d posted).pending e := by
  have hp := Mailbox.pending_of_take? h' e
  rw [Mailbox.pending_post, Mailbox.pending_of_take? h e, List.append_assoc,
    List.append_cancel_left_eq] at hp
  rw [Mailbox.pending_post, hp]

/-- The moves of two ranks commute. -/
theorem diamond {i j : Nat} (hij : i ≠ j) {w u v : World κ α} (hu : Move i w u)
    (hv : Move j w v) : ∃ x y, Move j u x ∧ Move i v y ∧ Alike x y := by
  have hj := hu.frame hij
  have hi := hv.frame hij.symm
  cases hu with
  | @send peer tag body next h =>
    cases hv with
    | @send peer' tag' body' next' h' =>
      refine ⟨_, _, .send (hj.trans h'), .send (hi.trans h), List.set_comm _ _ hij, fun c => ?_⟩
      have hne : (⟨i, peer, tag⟩ : Channel) ≠ ⟨j, peer', tag'⟩ := fun h =>
        hij (Channel.mk.inj h).1
      simp only [Mailbox.pending_post]
      by_cases hc : (⟨i, peer, tag⟩ : Channel) = c
      · subst hc
        rw [if_neg hne.symm, List.append_nil, List.append_nil]
      · rw [if_neg hc, List.append_nil, List.append_nil]
    | @recv peer' room' tag' next' body' mail' h' hm' =>
      obtain ⟨mail'', hm''⟩ := (Move.send h).take? hij hm'
      exact ⟨_, _, .recv (hj.trans h') hm'', .send (hi.trans h), List.set_comm _ _ hij,
        pending_post_take? hm' hm''⟩
  | @recv peer room tag next body mail h hm =>
    cases hv with
    | @send peer' tag' body' next' h' =>
      obtain ⟨mail'', hm''⟩ := (Move.send h').take? hij.symm hm
      exact ⟨_, _, .send (hj.trans h'), .recv (hi.trans h) hm'', List.set_comm _ _ hij,
        fun c => (pending_post_take? hm hm'' c).symm⟩
    | @recv peer' room' tag' next' body' mail' h' hm' =>
      obtain ⟨mail₁, hm₁⟩ := (Move.recv h hm).take? hij hm'
      obtain ⟨mail₂, hm₂⟩ := (Move.recv h' hm').take? hij.symm hm
      refine ⟨_, _, .recv (hj.trans h') hm₁, .recv (hi.trans h) hm₂, List.set_comm _ _ hij,
        fun c => ?_⟩
      have hne : (⟨peer, i, tag⟩ : Channel) ≠ ⟨peer', j, tag'⟩ := fun h =>
        hij (Channel.mk.inj h).2.1
      have h₁ := Mailbox.pending_of_take? hm c
      rw [Mailbox.pending_of_take? hm' c, Mailbox.pending_of_take? hm₁ c,
        Mailbox.pending_of_take? hm₂ c] at h₁
      by_cases hc : (⟨peer, i, tag⟩ : Channel) = c
      · subst hc
        simpa [hne.symm] using h₁.symm
      · simpa [hc] using h₁.symm

/-! ## All interleavings end alike -/

/-- All ranks are done. -/
def IsOver (w : World κ α) : Prop := ∀ p ∈ w.ranks, ∃ a, p = .done a

/-- A run of a number of steps. -/
inductive Run : Nat → World κ α → World κ α → Prop
  | nil (w : World κ α) : Run 0 w w
  | cons {n : Nat} {u v w : World κ α} : Step u v → Run n v w → Run (n + 1) u w

theorem Run.snoc {n : Nat} {u v w : World κ α} (h : Run n u v) (hs : Step v w) :
    Run (n + 1) u w := by
  induction h with
  | nil => exact .cons hs (.nil _)
  | cons hs' _ ih => exact .cons hs' (ih hs)

theorem Reaches.run {w v : World κ α} (h : Reaches w v) : ∃ n, Run n w v := by
  induction h with
  | refl => exact ⟨0, .nil _⟩
  | step _ hs ih =>
    obtain ⟨n, hn⟩ := ih
    exact ⟨n + 1, hn.snoc hs⟩

theorem Reaches.trans {u v w : World κ α} (h : Reaches u v) (h' : Reaches v w) :
    Reaches u w := by
  induction h' with
  | refl => exact h
  | step _ hs ih => exact ih.step hs

theorem Step.reaches {w v : World κ α} (h : Step w v) : Reaches w v := (Reaches.refl w).step h

/-- A run can be made from a world that is alike. -/
theorem Run.alike {n : Nat} {w v w' : World κ α} (h : Run n w v) (hw : Alike w w') :
    ∃ v', Run n w' v' ∧ Alike v v' := by
  induction h generalizing w' with
  | nil => exact ⟨w', .nil _, hw⟩
  | cons hs _ ih =>
    obtain ⟨rank, hm⟩ := step_iff.1 hs
    obtain ⟨u', hm', hu⟩ := hm.alike hw
    obtain ⟨v', hr, hv⟩ := ih hu
    exact ⟨v', .cons (step_iff.2 ⟨rank, hm'⟩) hr, hv⟩

theorem IsOver.not_move {w v : World κ α} (hw : w.IsOver) {rank : Nat} : ¬ Move rank w v := by
  rintro (h | h)
  all_goals
    obtain ⟨a, ha⟩ := hw _ (List.mem_of_getElem? h)
    cases ha

/-- If some run of `n` steps ends a play, then one step can be made first, and `n - 1`
    more steps come to the same end. -/
theorem run_of_move {n : Nat} {w v t : World κ α} {j : Nat} (h : Run n w t) (ht : t.IsOver)
    (hv : Move j w v) : ∃ m t', n = m + 1 ∧ Run m v t' ∧ Alike t t' := by
  -- along the run, up to the step of `j` that it has at some time
  induction h generalizing v with
  | nil => exact absurd hv ht.not_move
  | @cons n w w₁ t hs hr ih =>
    obtain ⟨i, hi⟩ := step_iff.1 hs
    by_cases hij : i = j
    · subst hij
      exact ⟨n, t, rfl, hv.unique hi ▸ hr, Alike.refl t⟩
    · -- the step of `j` is moved in front of the step of `i`
      obtain ⟨x, y, hx, hy, hxy⟩ := diamond hij hi hv
      obtain ⟨m, t₁, rfl, hr₁, ht₁⟩ := ih ht hx
      obtain ⟨t₂, hr₂, ht₂⟩ := hr₁.alike hxy
      exact ⟨m + 1, t₂, rfl, .cons (step_iff.2 ⟨i, hy⟩) hr₂, ht₁.trans ht₂⟩

/-- If some run ends a play, then from every world on the way of any other run the same
    end can be reached. -/
theorem run_of_reaches {n : Nat} {w v t : World κ α} (h : Run n w t) (ht : t.IsOver)
    (hv : Reaches w v) : ∃ m t', Run m v t' ∧ Alike t t' := by
  -- each step of the other run leaves one step less to the end
  induction hv with
  | refl => exact ⟨n, t, h, Alike.refl t⟩
  | step _ hs ih =>
    obtain ⟨m, t₁, hr, ht₁⟩ := ih
    obtain ⟨j, hj⟩ := step_iff.1 hs
    have hover : t₁.IsOver := fun p hp => ht p (ht₁.ranks ▸ hp)
    obtain ⟨m', t₂, _, hr₂, ht₂⟩ := run_of_move hr hover hj
    exact ⟨m', t₂, hr₂, ht₁.trans ht₂⟩

/-- A rank that is done stays done. -/
theorem Run.getElem?_of_done {n : Nat} {w v : World κ α} (h : Run n w v) {rank : Nat} {a : α}
    (ha : w.ranks[rank]? = some (.done a)) : v.ranks[rank]? = some (.done a) := by
  induction h with
  | nil => exact ha
  | cons hs _ ih =>
    obtain ⟨i, hi⟩ := step_iff.1 hs
    refine ih ?_
    by_cases hir : i = rank
    · subst hir
      cases hi with
      | send h => cases h.symm.trans ha
      | recv h => cases h.symm.trans ha
    · exact (hi.frame hir).trans ha

/-- A step shortens the program of one rank. -/
theorem Step.oneBelow {w v : World κ α} (h : Step w v) : OneBelow v.ranks w.ranks := by
  have key : ∀ {ps : List (Program κ α)} {rank : Nat} {p q : Program κ α},
      ps[rank]? = some p → Program.Below q p → OneBelow (ps.set rank q) ps := by
    intro ps
    induction ps with
    | nil => intro _ _ _ h; simp at h
    | cons _ ps ih =>
      intro rank p q h hq
      cases rank with
      | zero => cases h; exact .head hq
      | succ rank => exact .tail (ih h hq)
  cases h with
  | send h => exact key h (.single .send)
  | recv h _ => exact key h (.single .recv)

/-- What is left of a world can be played for a finite time only. -/
theorem acc_step (w : World κ α) : Acc (fun v u => Step u v) w :=
  Subrelation.accessible Step.oneBelow (InvImage.accessible World.ranks (acc_oneBelow _))

/-- Whatever the order of steps, the play of `w` comes to an end, where rank `r` has the
    result `results[r]` and no message is left. -/
structure Yields (w : World κ α) (results : List α) : Prop where
  /-- No interleaving goes on forever. -/
  halts : Acc (fun v u => Step u v) w
  /-- As long as a rank is not done, some rank can move. -/
  goes_on : ∀ v, Reaches w v → v.IsOver ∨ ∃ u, Step v u
  /-- A rank that is done has its result, even if others are not done. -/
  result_eq : ∀ v, Reaches w v → ∀ (rank : Nat) (a : α), v.ranks[rank]? = some (.done a) →
    results[rank]? = some a
  /-- When all ranks are done, all have their results, and every channel is empty. -/
  over_eq : ∀ v, Reaches w v → v.IsOver →
    v.ranks = results.map Program.done ∧ ∀ c, v.mail.pending c = []

/-- One interleaving is enough: if it brings all ranks to their results and leaves no
    message, every interleaving does. -/
theorem yields_of_reaches {w : World κ α} {results : List α}
    (h : Reaches w ⟨results.map Program.done, Mailbox.empty⟩) : Yields w results := by
  obtain ⟨n, hn⟩ := h.run
  have hover : IsOver (⟨results.map Program.done, Mailbox.empty⟩ : World κ α) := fun p hp => by
    obtain ⟨a, _, rfl⟩ := List.mem_map.1 hp
    exact ⟨a, rfl⟩
  refine ⟨acc_step w, fun v hv => ?_, fun v hv rank a ha => ?_, fun v hv hvo => ?_⟩
  · obtain ⟨m, t, hr, ht⟩ := run_of_reaches hn hover hv
    cases hr with
    | nil => exact .inl fun p hp => hover p (ht.ranks ▸ hp)
    | cons hs _ => exact .inr ⟨_, hs⟩
  · obtain ⟨m, t, hr, ht⟩ := run_of_reaches hn hover hv
    have := hr.getElem?_of_done ha
    rw [← ht.ranks, List.getElem?_map, Option.map_eq_some_iff] at this
    obtain ⟨b, hb, hba⟩ := this
    cases hba
    exact hb
  · obtain ⟨m, t, hr, ht⟩ := run_of_reaches hn hover hv
    cases hr with
    | nil => exact ⟨ht.ranks.symm, fun c => (ht.pending c).symm⟩
    | cons hs _ =>
      obtain ⟨rank, hm⟩ := step_iff.1 hs
      exact absurd hm hvo.not_move

/-! ## The play of a world -/

/-- What a rank does by itself is a run of steps. -/
theorem reaches_advance {w : World κ α} {rank : Nat} {p : Program κ α}
    (h : w.ranks[rank]? = some p) :
    Reaches w ⟨w.ranks.set rank (p.advance rank w.mail).1, (p.advance rank w.mail).2⟩ := by
  have hlt : rank < w.ranks.length := (List.getElem?_eq_some_iff.1 h).1
  have hset : ∀ (q : Program κ α) (m : Mailbox κ),
      (⟨w.ranks.set rank q, m⟩ : World κ α).ranks[rank]? = some q := fun q m =>
    List.getElem?_set_self hlt
  induction p generalizing w with
  | done a =>
    rw [Program.advance, ← (List.getElem?_eq_some_iff.1 h).2, List.set_getElem_self]
    exact .refl w
  | send peer tag body next ih =>
    rw [Program.advance]
    refine (Step.send h).reaches.trans ?_
    have := ih (w := ⟨w.ranks.set rank next, w.mail.post ⟨rank, peer, tag⟩ body⟩) (hset _ _)
      (by simpa using hlt) (fun q m => by simpa using hset q m)
    simpa using this
  | recv peer tag room next ih =>
    rw [Program.advance]
    split
    · next body mail hm =>
      refine (Step.recv h hm).reaches.trans ?_
      have := ih (some (body.take room))
        (w := ⟨w.ranks.set rank (next (some (body.take room))), mail⟩) (hset _ _)
        (by simpa using hlt) (fun q m => by simpa using hset q m)
      simpa using this
    · rw [← (List.getElem?_eq_some_iff.1 h).2, List.set_getElem_self]
      exact .refl w

theorem advance_of_move? {rank : Nat} {p : Program κ α} {mail : Mailbox κ}
    {moved : Program κ α × Mailbox κ} (h : p.move? rank mail = some moved) :
    p.advance rank mail = moved := by
  cases p with
  | done => cases h
  | send => exact Option.some.inj h
  | recv peer tag room next =>
    obtain ⟨⟨body, rest⟩, hm, rfl⟩ := Option.map_eq_some_iff.1 h
    simp only [Program.advance, hm]

/-- A rank that cannot move by itself cannot move at all. -/
theorem not_move_of_move? {w v : World κ α} {rank : Nat}
    (h : ∀ p, w.ranks[rank]? = some p → p.move? rank w.mail = none) : ¬ Move rank w v := by
  rintro (hs | ⟨hr, hm⟩)
  · cases h _ hs
  · simpa [Program.move?, hm] using h _ hr

theorem reaches_of_moveFirst? {rest qs : List (Program κ α)} {mail mail' : Mailbox κ}
    (before : List (Program κ α))
    (h : moveFirst? mail before.length rest = some (qs, mail')) :
    Reaches ⟨before ++ rest, mail⟩ ⟨before ++ qs, mail'⟩ := by
  induction rest generalizing before qs with
  | nil => cases h
  | cons p rest ih =>
    rw [moveFirst?] at h
    split at h
    · next q mail'' hm =>
      cases h
      have hp : (⟨before ++ p :: rest, mail⟩ : World κ α).ranks[before.length]? = some p := by simp
      simpa [advance_of_move? hm] using reaches_advance hp
    · obtain ⟨⟨rest', mail''⟩, hr, heq⟩ := Option.map_eq_some_iff.1 h
      cases heq
      have := ih (before ++ [p]) (by simpa using hr)
      simpa using this

theorem move?_eq_none_of_moveFirst? {ps : List (Program κ α)} {mail : Mailbox κ} {first : Nat}
    (h : moveFirst? mail first ps = none) {i : Nat} {p : Program κ α} (hp : ps[i]? = some p) :
    p.move? (first + i) mail = none := by
  induction ps generalizing first i with
  | nil => simp at hp
  | cons q ps ih =>
    rw [moveFirst?] at h
    split at h
    · cases h
    · next hq =>
      cases i with
      | zero => cases hp; exact hq
      | succ i =>
        have := ih (Option.map_eq_none_iff.1 h) hp
        rwa [Nat.add_right_comm, Nat.add_assoc] at this

theorem giveUpFirst?_of_over {hopeless : Nat → Bool} {ps : List (Program κ α)}
    (h : ∀ p ∈ ps, ∃ a, p = .done a) : giveUpFirst? hopeless ps = none := by
  induction ps with
  | nil => rfl
  | cons p ps ih =>
    obtain ⟨a, rfl⟩ := h p List.mem_cons_self
    have := ih fun q hq => h q (List.mem_cons_of_mem _ hq)
    simp [giveUpFirst?, Program.giveUp?, this]

theorem Yields.of_reaches {w v : World κ α} {results : List α} (h : Yields w results)
    (hv : Reaches w v) : Yields v results where
  halts := acc_step v
  goes_on u hu := h.goes_on u (hv.trans hu)
  result_eq u hu := h.result_eq u (hv.trans hu)
  over_eq u hu := h.over_eq u (hv.trans hu)

theorem Yields.isOver_of_moveFirst? {w : World κ α} {results : List α} (h : Yields w results)
    (hm : moveFirst? w.mail 0 w.ranks = none) : w.IsOver := by
  refine (h.goes_on w (.refl w)).resolve_right ?_
  rintro ⟨u, hu⟩
  obtain ⟨rank, hr⟩ := step_iff.1 hu
  refine not_move_of_move? (fun p hp => ?_) hr
  have := move?_eq_none_of_moveFirst? hm hp
  rwa [Nat.zero_add] at this

theorem Yields.finish_eq {w : World κ α} {results : List α} (h : Yields w results) :
    w.finish.ranks = results.map Program.done := by
  fun_induction World.finish w with
  | case1 w v hv ih =>
    refine ih (h.of_reaches ?_)
    rw [turn?] at hv
    split at hv
    · next hm =>
      cases hv
      exact reaches_of_moveFirst? [] hm
    · next hm =>
      -- nobody can move, so all ranks are done, and nobody gives up
      have hover := h.isOver_of_moveFirst? hm
      simp [giveUpFirst?_of_over hover] at hv
  | case2 w hv =>
    refine (h.over_eq w (.refl w) (h.isOver_of_moveFirst? ?_)).1
    rw [turn?] at hv
    split at hv
    · cases hv
    · assumption

/-- The play of a world has the results that every interleaving has. -/
theorem Yields.run_eq {programs : List (Program κ α)} {results : List α}
    (h : Yields (start programs) results) : run programs = results := by
  rw [run, h.finish_eq, List.filterMap_map]
  exact List.filterMap_some

end World

end SharedMesh
