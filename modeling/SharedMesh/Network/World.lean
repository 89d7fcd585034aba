import SharedMesh.Network.Mailbox
import SharedMesh.Network.Program

/-!
# Worlds

A *world* is a number of ranks, each with its program, and the mailbox between them.
`World.Step` says what can happen in it: some rank posts the message it is about to
send, or some rank takes a message it waits for. Which rank moves is left open, so a
run of steps is one of the possible interleavings.

`World.run` plays a world to its end. It moves a rank that can move as far as it gets
by itself. If no rank can move, some receive gets nothing: one whose sender is done
or does not exist, if there is one, and otherwise the first. Each turn shortens the
program of one rank, so the play ends (`OneBelow`).
-/

namespace SharedMesh

/-- Ranks with their programs, and the messages between them. -/
structure World (κ α : Type) where
  ranks : List (Program κ α)
  mail : Mailbox κ

namespace World

variable {κ α : Type}

/-- The world of some programs before the first message. -/
def start (programs : List (Program κ α)) : World κ α := ⟨programs, Mailbox.empty⟩

/-- One thing that can happen: a rank sends, or a rank receives. -/
inductive Step : World κ α → World κ α → Prop
  | send {w : World κ α} {rank peer : Nat} {tag : UInt16} {body : List κ}
      {next : Program κ α} (h : w.ranks[rank]? = some (.send peer tag body next)) :
      Step w ⟨w.ranks.set rank next, w.mail.post ⟨rank, peer, tag⟩ body⟩
  | recv {w : World κ α} {rank peer room : Nat} {tag : UInt16}
      {next : Option (List κ) → Program κ α} {body : List κ} {mail : Mailbox κ}
      (h : w.ranks[rank]? = some (.recv peer tag room next))
      (hm : w.mail.take? ⟨peer, rank, tag⟩ = some (body, mail)) :
      Step w ⟨w.ranks.set rank (next (some (body.take room))), mail⟩

/-- The worlds that can follow, after any number of steps. -/
inductive Reaches : World κ α → World κ α → Prop
  | refl (w : World κ α) : Reaches w w
  | step {u v w : World κ α} : Reaches u v → Step v w → Reaches u w

end World

/-! ## Programs get shorter -/

namespace Program

variable {κ α : Type}

/-- A program that is left of another one after one message. -/
inductive Child : Program κ α → Program κ α → Prop
  | send {peer : Nat} {tag : UInt16} {body : List κ} {next : Program κ α} :
      Child next (.send peer tag body next)
  | recv {peer room : Nat} {tag : UInt16} {next : Option (List κ) → Program κ α}
      {body : Option (List κ)} : Child (next body) (.recv peer tag room next)

/-- A program that is left of another one after some messages, at least one. -/
abbrev Below : Program κ α → Program κ α → Prop := Relation.TransGen Child

theorem acc_child (p : Program κ α) : Acc Child p := by
  induction p with
  | done => exact ⟨_, fun _ h => nomatch h⟩
  | send _ _ _ _ ih => exact ⟨_, fun _ h => by cases h; exact ih⟩
  | recv _ _ _ _ ih => exact ⟨_, fun _ h => by cases h; exact ih _⟩

theorem acc_below (p : Program κ α) : Acc Below p := (acc_child p).transGen

/-- What a rank does by itself: everything up to the end, or up to a receive for which
    no message is there. -/
def advance (rank : Nat) : Program κ α → Mailbox κ → Program κ α × Mailbox κ
  | done result, mail => (done result, mail)
  | send peer tag body next, mail => next.advance rank (mail.post ⟨rank, peer, tag⟩ body)
  | recv peer tag room next, mail =>
    match mail.take? ⟨peer, rank, tag⟩ with
    | some (body, rest) => (next (some (body.take room))).advance rank rest
    | none => (recv peer tag room next, mail)

/-- What a rank does by itself, if it can do anything. -/
def move? (rank : Nat) : Program κ α → Mailbox κ → Option (Program κ α × Mailbox κ)
  | done _, _ => none
  | send peer tag body next, mail =>
    some (next.advance rank (mail.post ⟨rank, peer, tag⟩ body))
  | recv peer tag room next, mail =>
    (mail.take? ⟨peer, rank, tag⟩).map fun (body, rest) =>
      (next (some (body.take room))).advance rank rest

/-- A receive gets nothing, if the program waits for one of a hopeless peer. -/
def giveUp? (hopeless : Nat → Bool) : Program κ α → Option (Program κ α)
  | recv peer _ _ next => if hopeless peer then some (next none) else none
  | _ => none

theorem advance_below (rank : Nat) (p : Program κ α) (mail : Mailbox κ) :
    (p.advance rank mail).1 = p ∨ Below (p.advance rank mail).1 p := by
  induction p generalizing mail with
  | done => exact .inl rfl
  | send peer tag body next ih =>
    refine .inr ?_
    rw [advance]
    rcases ih (mail.post ⟨rank, peer, tag⟩ body) with h | h
    · rw [h]; exact .single .send
    · exact .tail h .send
  | recv peer tag room next ih =>
    rw [advance]
    split
    · rename_i body rest _
      refine .inr ?_
      rcases ih (some (body.take room)) rest with h | h
      · rw [h]; exact .single .recv
      · exact .tail h .recv
    · exact .inl rfl

theorem below_of_move? {rank : Nat} {p q : Program κ α} {mail mail' : Mailbox κ}
    (h : p.move? rank mail = some (q, mail')) : Below q p := by
  cases p with
  | done => simp [move?] at h
  | send peer tag body next =>
    simp only [move?, Option.some.injEq] at h
    have hb := advance_below rank next (mail.post ⟨rank, peer, tag⟩ body)
    rw [h] at hb
    rcases hb with hb | hb
    · rw [show q = next from hb]; exact .single .send
    · exact .tail hb .send
  | recv peer tag room next =>
    simp only [move?, Option.map_eq_some_iff] at h
    obtain ⟨⟨body, rest⟩, _, h⟩ := h
    have hb := advance_below rank (next (some (body.take room))) rest
    rw [h] at hb
    rcases hb with hb | hb
    · rw [show q = next (some (body.take room)) from hb]; exact .single .recv
    · exact .tail hb .recv

theorem below_of_giveUp? {hopeless : Nat → Bool} {p q : Program κ α}
    (h : p.giveUp? hopeless = some q) : Below q p := by
  cases p with
  | done => simp [giveUp?] at h
  | send => simp [giveUp?] at h
  | recv peer tag room next =>
    simp only [giveUp?] at h
    split at h
    · cases h; exact .single .recv
    · cases h

end Program

/-- One of some programs got shorter. -/
inductive OneBelow {κ α : Type} : List (Program κ α) → List (Program κ α) → Prop
  | head {p q : Program κ α} {rest : List (Program κ α)} :
      Program.Below p q → OneBelow (p :: rest) (q :: rest)
  | tail {p : Program κ α} {ps qs : List (Program κ α)} :
      OneBelow ps qs → OneBelow (p :: ps) (p :: qs)

theorem acc_oneBelow_cons {κ α : Type} {p : Program κ α} (hp : Acc Program.Below p) :
    ∀ {ps : List (Program κ α)}, Acc OneBelow ps → Acc OneBelow (p :: ps) := by
  induction hp with
  | intro p _ ihp =>
    intro ps hps
    induction hps with
    | intro ps hps ihps =>
      refine ⟨_, fun qs h => ?_⟩
      cases h with
      | head h => exact ihp _ h ⟨_, hps⟩
      | tail h => exact ihps _ h

theorem acc_oneBelow {κ α : Type} (ps : List (Program κ α)) : Acc OneBelow ps := by
  induction ps with
  | nil => exact ⟨_, fun _ h => nomatch h⟩
  | cons p ps ih => exact acc_oneBelow_cons (Program.acc_below p) ih

namespace World

variable {κ α : Type}

/-- Moves the first rank that can move, among the ranks from `rank` on. -/
def moveFirst? (mail : Mailbox κ) :
    Nat → List (Program κ α) → Option (List (Program κ α) × Mailbox κ)
  | _, [] => none
  | rank, p :: rest =>
    match p.move? rank mail with
    | some (q, mail) => some (q :: rest, mail)
    | none => (moveFirst? mail (rank + 1) rest).map fun (rest, mail) => (p :: rest, mail)

/-- Lets the first receive of a hopeless peer get nothing. -/
def giveUpFirst? (hopeless : Nat → Bool) : List (Program κ α) → Option (List (Program κ α))
  | [] => none
  | p :: rest =>
    match p.giveUp? hopeless with
    | some q => some (q :: rest)
    | none => (giveUpFirst? hopeless rest).map (p :: ·)

/-- Whether a peer will never send again: it is done, or there is no such rank. -/
def isGone (w : World κ α) (peer : Nat) : Bool :=
  match w.ranks[peer]? with
  | none => true
  | some p => p.result?.isSome

/-- The next turn of the play. -/
def turn? (w : World κ α) : Option (World κ α) :=
  match moveFirst? w.mail 0 w.ranks with
  | some (ranks, mail) => some ⟨ranks, mail⟩
  | none =>
    match giveUpFirst? w.isGone w.ranks with
    | some ranks => some ⟨ranks, w.mail⟩
    | none => (giveUpFirst? (fun _ => true) w.ranks).map (⟨·, w.mail⟩)

theorem oneBelow_of_moveFirst? {mail mail' : Mailbox κ} {rank : Nat}
    {ps qs : List (Program κ α)} (h : moveFirst? mail rank ps = some (qs, mail')) :
    OneBelow qs ps := by
  induction ps generalizing rank qs with
  | nil => simp [moveFirst?] at h
  | cons p ps ih =>
    rw [moveFirst?] at h
    split at h
    · rename_i hm
      cases h
      exact .head (Program.below_of_move? hm)
    · simp only [Option.map_eq_some_iff, Prod.mk.injEq] at h
      obtain ⟨⟨rest, m⟩, hr, h, rfl⟩ := h
      rw [← h]
      exact .tail (ih hr)

theorem oneBelow_of_giveUpFirst? {hopeless : Nat → Bool} {ps qs : List (Program κ α)}
    (h : giveUpFirst? hopeless ps = some qs) : OneBelow qs ps := by
  induction ps generalizing qs with
  | nil => simp [giveUpFirst?] at h
  | cons p ps ih =>
    rw [giveUpFirst?] at h
    split at h
    · rename_i hg
      cases h
      exact .head (Program.below_of_giveUp? hg)
    · simp only [Option.map_eq_some_iff] at h
      obtain ⟨rest, hr, rfl⟩ := h
      exact .tail (ih hr)

theorem oneBelow_of_turn? {w v : World κ α} (h : w.turn? = some v) :
    OneBelow v.ranks w.ranks := by
  rw [turn?] at h
  split at h
  · rename_i hm
    cases h
    exact oneBelow_of_moveFirst? hm
  · split at h
    · rename_i hg
      cases h
      exact oneBelow_of_giveUpFirst? hg
    · simp only [Option.map_eq_some_iff] at h
      obtain ⟨ranks, hr, rfl⟩ := h
      exact oneBelow_of_giveUpFirst? hr

instance : WellFoundedRelation (World κ α) where
  rel v w := OneBelow v.ranks w.ranks
  wf := InvImage.wf World.ranks ⟨acc_oneBelow⟩

/-- The world at the end of the play, when every rank is done. -/
def finish (w : World κ α) : World κ α :=
  match _h : w.turn? with
  | some v => v.finish
  | none => w
termination_by w
decreasing_by exact oneBelow_of_turn? _h

/-- The results of all ranks at the end of the play. -/
def run (programs : List (Program κ α)) : List α :=
  (start programs).finish.ranks.filterMap Program.result?

end World

end SharedMesh
