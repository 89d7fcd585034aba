import SharedMesh.Network.Program

/-!
# Mailboxes

The ranks of a world exchange messages through one *mailbox*. A message goes from a
source to a target under a tag; the three together are its *channel*. Posting never
waits. Taking from a channel removes the message posted to it first, so each channel
is a queue, and no two channels affect each other (`Mailbox.pending`).

`Offices` are several mailboxes side by side, with receives that have been announced
and not yet completed. A receive is matched with a message when it is waited for, not
when it is announced.
-/

namespace SharedMesh

/-- The way of a message: who sends it, who receives it, and under which tag. -/
structure Channel where
  source : Nat
  target : Nat
  tag : UInt16
deriving DecidableEq, Repr

/-- A message on its way. -/
structure Letter (κ : Type) where
  channel : Channel
  body : List κ
deriving DecidableEq, Repr

/-- The messages on their way, in the order in which they were posted. -/
structure Mailbox (κ : Type) where
  letters : List (Letter κ)
deriving DecidableEq, Repr

namespace Mailbox

variable {κ : Type}

/-- The mailbox without messages. -/
def empty : Mailbox κ := ⟨[]⟩

/-- The messages that wait on a channel, the oldest first. -/
def pending (m : Mailbox κ) (c : Channel) : List (List κ) :=
  (m.letters.filter fun l => l.channel = c).map Letter.body

/-- Posts a message to a channel. -/
def post (m : Mailbox κ) (c : Channel) (body : List κ) : Mailbox κ :=
  ⟨m.letters ++ [⟨c, body⟩]⟩

/-- The oldest letter on a channel, and the letters without it. -/
def takeFrom (c : Channel) : List (Letter κ) → Option (List κ × List (Letter κ))
  | [] => none
  | l :: rest =>
    if l.channel = c then some (l.body, rest)
    else (takeFrom c rest).map fun (body, rest) => (body, l :: rest)

/-- Takes the oldest message from a channel, if one waits there. -/
def take? (m : Mailbox κ) (c : Channel) : Option (List κ × Mailbox κ) :=
  (takeFrom c m.letters).map fun (body, rest) => (body, ⟨rest⟩)

/-! ## Channels are queues -/

/-- A message is posted at the end of its channel, and no other channel changes. -/
theorem pending_post (m : Mailbox κ) (c d : Channel) (body : List κ) :
    (m.post c body).pending d = m.pending d ++ if c = d then [body] else [] := by
  by_cases h : c = d <;> simp [pending, post, h]

theorem takeFrom_eq_none_iff {c : Channel} {letters : List (Letter κ)} :
    takeFrom c letters = none ↔ letters.filter (fun l => l.channel = c) = [] := by
  induction letters with
  | nil => simp [takeFrom]
  | cons l rest ih => by_cases h : l.channel = c <;> simp_all [takeFrom]

/-- Nothing can be taken from a channel exactly if no message waits there. -/
theorem take?_eq_none_iff {m : Mailbox κ} {c : Channel} :
    m.take? c = none ↔ m.pending c = [] := by
  simp [take?, pending, takeFrom_eq_none_iff]

theorem filter_of_takeFrom {c : Channel} {letters rest : List (Letter κ)} {body : List κ}
    (h : takeFrom c letters = some (body, rest)) (d : Channel) :
    letters.filter (fun l => l.channel = d) =
      (if c = d then [⟨c, body⟩] else []) ++ rest.filter (fun l => l.channel = d) := by
  induction letters generalizing rest with
  | nil => simp [takeFrom] at h
  | cons l letters ih =>
    rw [takeFrom] at h
    split at h
    · rename_i hl
      cases h
      subst hl
      -- the letter found is the first one on its channel
      by_cases hd : l.channel = d
      · subst hd
        simp
      · simp [hd]
    · rename_i hl
      simp only [Option.map_eq_some_iff, Prod.mk.injEq] at h
      obtain ⟨⟨_, tail⟩, ht, rfl, rfl⟩ := h
      have := ih ht
      by_cases hc : c = d
      · subst hc
        simp_all
      · by_cases hd : l.channel = d <;> simp_all

/-- What is taken is the oldest message of its channel, and no other channel
    changes. -/
theorem pending_of_take? {m m' : Mailbox κ} {c : Channel} {body : List κ}
    (h : m.take? c = some (body, m')) (d : Channel) :
    m.pending d = (if c = d then [body] else []) ++ m'.pending d := by
  simp only [take?, Option.map_eq_some_iff, Prod.mk.injEq] at h
  obtain ⟨⟨_, rest⟩, ht, rfl, rfl⟩ := h
  simp only [pending, filter_of_takeFrom ht d]
  by_cases hc : c = d <;> simp [hc]

end Mailbox

/-! ## Mailboxes side by side -/

/-- A receive that was announced: of at most `room` cells, from a channel of a
    world. -/
structure Announced where
  world : Nat
  channel : Channel
  room : Nat
deriving DecidableEq, Repr

/-- Several worlds, each with its size and its mailbox, and the announced receives
    by name. -/
structure Offices (κ ι : Type) where
  worlds : List (Nat × Mailbox κ)
  announced : List (ι × Announced)

/-- What a rank does at its office. -/
inductive Act (κ ι : Type)
  /-- Posts a message. -/
  | send (world rank peer : Nat) (tag : UInt16) (body : List κ)
  /-- Announces a receive under a name, instead of one announced before under it. -/
  | announce (world rank peer : Nat) (tag : UInt16) (name : ι) (room : Nat)
  /-- Completes the receive of that name, if a message is there. -/
  | wait (name : ι)

/-- What comes of it. -/
inductive Reply (κ : Type)
  /-- Posted by a rank of a world of that size; so many messages wait on the channel. -/
  | sent (rank size waiting : Nat)
  | announced
  | got (body : List κ)
  /-- No message waits: the receive stays announced. -/
  | nothing
  /-- No receive of that name is announced. -/
  | unknown

namespace Offices

variable {κ ι : Type} [DecidableEq ι]

/-- Worlds of the given sizes, without messages. Each must have room for its ranks. -/
def fresh (sizes : List Nat) : Checked (Offices κ ι) := do
  sizes.forM Seat.checkWorld
  return ⟨sizes.map (·, Mailbox.empty), []⟩

/-- The mailbox of a world. -/
def mailbox (o : Offices κ ι) (world : Nat) : Mailbox κ :=
  ((o.worlds[world]?).map (·.2)).getD Mailbox.empty

/-- The number of ranks of a world. -/
def sizeOf (o : Offices κ ι) (world : Nat) : Nat :=
  ((o.worlds[world]?).map (·.1)).getD 0

/-- The offices with another mailbox in one world. -/
def setMailbox (o : Offices κ ι) (world : Nat) (m : Mailbox κ) : Offices κ ι :=
  { o with worlds := o.worlds.modify world fun (size, _) => (size, m) }

/-- One act, and the reply to it. -/
def act (o : Offices κ ι) : Act κ ι → Offices κ ι × Reply κ
  | .send world rank peer tag body =>
    let c : Channel := ⟨rank, peer, tag⟩
    let m := (o.mailbox world).post c body
    (o.setMailbox world m, .sent rank (o.sizeOf world) (m.pending c).length)
  | .announce world rank peer tag name room =>
    let entry : Announced := ⟨world, ⟨peer, rank, tag⟩, room⟩
    ({ o with announced := (name, entry) :: o.announced.filter (·.1 ≠ name) }, .announced)
  | .wait name =>
    match o.announced.lookup name with
    | none => (o, .unknown)
    | some entry =>
      match (o.mailbox entry.world).take? entry.channel with
      | none => (o, .nothing)
      | some (body, m) =>
        ({ o.setMailbox entry.world m with
            announced := o.announced.filter (·.1 ≠ name) },
          .got (body.take entry.room))

/-- Whether an act is done by a rank of a world. A receive may be waited for anywhere. -/
def admits (o : Offices κ ι) : Act κ ι → Bool
  | .send world rank .. => rank < o.sizeOf world
  | .announce world rank .. => rank < o.sizeOf world
  | .wait _ => true

/-- Some acts in order, with their replies. All are done by ranks that are there. -/
def acts (o : Offices κ ι) : List (Act κ ι) → Checked (Offices κ ι × List (Reply κ))
  | [] => .ok (o, [])
  | a :: rest => do
    if !o.admits a then throw (.breach .missingIndex)
    let (next, reply) := o.act a
    let (last, replies) ← next.acts rest
    return (last, reply :: replies)

end Offices

end SharedMesh
