import Mathlib.Data.List.Forall2
import SharedMesh.Proofs.Checked
import SharedMesh.Proofs.Network.Interleaving

/-!
# Messages are delivered once and in order

A run of acts, whoever does them and in whatever order, leaves every channel of every world a
queue. One act either posts a message at the end of one channel, or takes the first message of one
channel, or changes no channel (`delivered_of_act`). Over a run, what was posted on a channel is
what was taken there, followed by what still waits (`delivered_of_acts`): the receives that were
completed on the channel got the messages in the order in which they were posted, each cut to the
room of its receive, no matter when the receives were announced.

So the ranks that share some worlds can rely on this at any time (`acts_deliver`), and on a receive
being completed just if a message waits for it.
-/

namespace SharedMesh

variable {κ ι : Type}

/-- The message that an act posts on a channel of a world, if it does. -/
def Act.posted? (world : Nat) (c : Channel) : Act κ ι → Option (List κ)
  | .send w rank peer tag body => if world = w ∧ c = ⟨rank, peer, tag⟩ then some body else none
  | _ => none

/-- The message that a reply brings, if it does. -/
def Reply.body? : Reply κ → Option (List κ)
  | .got body => some body
  | _ => none

/-- Whether a receive is from that channel of that world. -/
def Announced.isFrom (world : Nat) (c : Channel) (entry : Announced) : Bool :=
  world = entry.world ∧ c = entry.channel

namespace Offices

/-- The messages that wait on a channel of a world, the oldest first. -/
def waiting (o : Offices κ ι) (world : Nat) (c : Channel) : List (List κ) :=
  (o.mailbox world).pending c

/-- What becomes of the messages that were posted on a channel. Some were taken, the oldest first,
    each by a receive of its own that got as much of it as it had room for; the others wait. -/
def Delivered (posted : List (List κ)) (receipts : List (Announced × List κ))
    (waiting : List (List κ)) : Prop :=
  ∃ taken, posted = taken ++ waiting ∧
    List.Forall₂ (fun body receipt => receipt.2 = body.take receipt.1.room) taken receipts

section

variable [DecidableEq ι]

/-- The receive that an act completes, if it does, and what the receive gets. -/
def receipt? (o : Offices κ ι) : Act κ ι → Option (Announced × List κ)
  | .wait name => do
    let entry ← o.announced.lookup name
    let body ← (o.act (.wait name)).2.body?
    return (entry, body)
  | _ => none

/-- The receives that some acts complete, in order. -/
def receipts (o : Offices κ ι) : List (Act κ ι) → List (Announced × List κ)
  | [] => []
  | a :: rest => (o.receipt? a).toList ++ (o.act a).1.receipts rest

end

/-! ## Mailboxes -/

variable {o : Offices κ ι}

theorem waiting_fresh {sizes : List Nat} (h : fresh sizes = .ok o) (world : Nat) (c : Channel) :
    o.waiting world c = [] := by
  obtain ⟨_, _, ho⟩ := bind_eq_ok h
  cases ho
  rw [waiting, mailbox, List.getElem?_map]
  cases sizes[world]? <;> rfl

theorem waiting_setMailbox {world : Nat} (h : world < o.worlds.length) (m : Mailbox κ) (w : Nat)
    (c : Channel) :
    (o.setMailbox world m).waiting w c = if w = world then m.pending c else o.waiting w c := by
  rw [waiting, mailbox, setMailbox, List.getElem?_modify]
  split
  · next hw => subst hw; simp [h]
  · next hw => simp [Ne.symm hw, waiting, mailbox]

theorem sizeOf_setMailbox (o : Offices κ ι) (world : Nat) (m : Mailbox κ) (w : Nat) :
    (o.setMailbox world m).sizeOf w = o.sizeOf w := by
  rw [sizeOf, setMailbox, List.getElem?_modify, sizeOf]
  split <;> cases o.worlds[w]? <;> rfl

theorem lt_length_of_lt_sizeOf {rank world : Nat} (h : rank < o.sizeOf world) :
    world < o.worlds.length := by
  rw [sizeOf] at h
  by_contra hle
  rw [List.getElem?_eq_none (Nat.le_of_not_lt hle)] at h
  exact absurd h (Nat.not_lt_zero _)

theorem lt_length_of_waiting {world : Nat} {c : Channel} (h : o.waiting world c ≠ []) :
    world < o.worlds.length := by
  by_contra hle
  rw [waiting, mailbox, List.getElem?_eq_none (Nat.le_of_not_lt hle)] at h
  exact h rfl

variable [DecidableEq ι]

/-! ## One act -/

theorem waiting_send {world rank peer : Nat} {tag : UInt16} {body : List κ}
    (h : o.admits (.send world rank peer tag body) = true) (w : Nat) (c : Channel) :
    (o.act (.send world rank peer tag body)).1.waiting w c =
      if w = world ∧ c = ⟨rank, peer, tag⟩ then o.waiting w c ++ [body] else o.waiting w c := by
  rw [act, waiting_setMailbox (lt_length_of_lt_sizeOf (of_decide_eq_true h)),
    Mailbox.pending_post]
  by_cases hw : w = world
  · subst hw
    by_cases hc : c = ⟨rank, peer, tag⟩
    · simp [hc, waiting]
    · simp [hc, Ne.symm hc, waiting]
  · simp [hw]

/-- A receive takes the first message that waits for it. -/
theorem act_wait_of_waiting {name : ι} {entry : Announced} {body : List κ} {rest : List (List κ)}
    (hentry : o.announced.lookup name = some entry)
    (h : o.waiting entry.world entry.channel = body :: rest) :
    (o.act (.wait name)).2 = .got (body.take entry.room) ∧
      ∀ w c, (o.act (.wait name)).1.waiting w c =
        if w = entry.world ∧ c = entry.channel then rest else o.waiting w c := by
  have hlt : entry.world < o.worlds.length :=
    lt_length_of_waiting (c := entry.channel) (by simp [h])
  obtain ⟨m, hm, hpending⟩ := Mailbox.take?_of_pending h
  simp only [act, hentry, hm, true_and]
  intro w c
  refine (waiting_setMailbox hlt m w c).trans ?_
  rw [hpending]
  by_cases hw : w = entry.world
  · subst hw
    simp [waiting, eq_comm]
  · simp [hw]

theorem act_wait_of_not_waiting {name : ι} {entry : Announced}
    (hentry : o.announced.lookup name = some entry)
    (h : o.waiting entry.world entry.channel = []) : o.act (.wait name) = (o, .nothing) := by
  have hm : (o.mailbox entry.world).take? entry.channel = none := Mailbox.take?_eq_none_iff.2 h
  simp only [act, hentry, hm]

theorem act_wait_of_unknown {name : ι} (h : o.announced.lookup name = none) :
    o.act (.wait name) = (o, .unknown) := by
  simp only [act, h]

theorem receipt?_wait {name : ι} {entry : Announced}
    (h : o.announced.lookup name = some entry) :
    o.receipt? (.wait name) = (o.act (.wait name)).2.body?.map (entry, ·) := by
  rw [receipt?, h]
  cases (o.act (.wait name)).2.body? <;> rfl

/-- A receive that was announced is completed just if a message waits for it. -/
theorem completes_iff {name : ι} {entry : Announced}
    (hentry : o.announced.lookup name = some entry) :
    (∃ body, (o.act (.wait name)).2 = .got body) ↔ o.waiting entry.world entry.channel ≠ [] := by
  cases h : o.waiting entry.world entry.channel with
  | nil => simp [act_wait_of_not_waiting hentry h]
  | cons body rest => simp [(act_wait_of_waiting hentry h).1]

/-- One act posts a message on a channel, or completes a receive from it, or leaves it as it is. -/
theorem delivered_of_act {a : Act κ ι} (h : o.admits a = true) (world : Nat) (c : Channel) :
    Delivered (o.waiting world c ++ (a.posted? world c).toList)
      ((o.receipt? a).toList.filter fun receipt => receipt.1.isFrom world c)
      ((o.act a).1.waiting world c) := by
  cases a with
  | send w rank peer tag body =>
    refine ⟨[], ?_, .nil⟩
    rw [waiting_send h, List.nil_append, Act.posted?]
    split
    · rfl
    · exact List.append_nil _
  | announce => exact ⟨[], List.append_nil _, .nil⟩
  | wait name =>
    have hposted : (Act.wait name : Act κ ι).posted? world c = none := rfl
    rw [hposted, Option.toList_none, List.append_nil]
    cases hentry : o.announced.lookup name with
    | none =>
      rw [receipt?, hentry, act_wait_of_unknown hentry]
      exact ⟨[], rfl, .nil⟩
    | some entry =>
      rw [receipt?_wait hentry]
      cases hwaiting : o.waiting entry.world entry.channel with
      | nil =>
        rw [act_wait_of_not_waiting hentry hwaiting]
        exact ⟨[], rfl, .nil⟩
      | cons body rest =>
        obtain ⟨hreply, hrest⟩ := act_wait_of_waiting hentry hwaiting
        rw [hreply, hrest, Reply.body?, Option.map_some, Option.toList_some]
        by_cases hfrom : world = entry.world ∧ c = entry.channel
        · rw [if_pos hfrom, List.filter_cons_of_pos (by simpa [Announced.isFrom] using hfrom)]
          exact ⟨[body], by rw [hfrom.1, hfrom.2, hwaiting]; rfl, .cons rfl .nil⟩
        · rw [if_neg hfrom, List.filter_cons_of_neg (by simpa [Announced.isFrom] using hfrom)]
          exact ⟨[], rfl, .nil⟩

/-- A channel on which an act neither posts nor completes a receive stays as it is. -/
theorem waiting_act_of_untouched {a : Act κ ι} (h : o.admits a = true) {world : Nat} {c : Channel}
    (hposted : a.posted? world c = none)
    (hreceipt : ∀ receipt ∈ o.receipt? a, receipt.1.isFrom world c = false) :
    (o.act a).1.waiting world c = o.waiting world c := by
  obtain ⟨taken, hwaiting, htaken⟩ := delivered_of_act h world c
  have hnone : (o.receipt? a).toList.filter (fun receipt => receipt.1.isFrom world c) = [] := by
    simpa [List.filter_eq_nil_iff] using hreceipt
  rw [hnone, List.forall₂_nil_right_iff] at htaken
  rw [hposted, Option.toList_none, List.append_nil, htaken, List.nil_append] at hwaiting
  exact hwaiting.symm

/-! ## Some acts -/

theorem sizeOf_act (a : Act κ ι) (world : Nat) : (o.act a).1.sizeOf world = o.sizeOf world := by
  cases a with
  | send => exact sizeOf_setMailbox ..
  | announce => rfl
  | wait name =>
    rw [act]
    split
    · rfl
    · split
      · rfl
      · exact sizeOf_setMailbox ..

/-- The ranks of the worlds stay the same. -/
theorem admits_act (a b : Act κ ι) : (o.act a).1.admits b = o.admits b := by
  cases b with
  | send | announce => rw [admits, admits, sizeOf_act]
  | wait => rfl

/-- A reply brings just what the receive that the act completes gets. -/
theorem body?_act (a : Act κ ι) : (o.act a).2.body? = (o.receipt? a).map Prod.snd := by
  cases a with
  | send | announce => rfl
  | wait name =>
    cases hentry : o.announced.lookup name with
    | none =>
      rw [receipt?, hentry, act_wait_of_unknown hentry]
      rfl
    | some entry =>
      rw [receipt?_wait hentry, Option.map_map]
      exact Option.map_id'.symm

theorem acts_cons {a : Act κ ι} {rest : List (Act κ ι)} {last : Offices κ ι}
    {replies : List (Reply κ)} (ha : o.admits a = true)
    (hrest : (o.act a).1.acts rest = .ok (last, replies)) :
    o.acts (a :: rest) = .ok (last, (o.act a).2 :: replies) := by
  rw [acts, ha]
  exact bind_of_ok hrest _

/-- Ranks that are there can do any acts in any order, and each channel is a queue. -/
theorem delivered_of_acts {as : List (Act κ ι)} (h : ∀ a ∈ as, o.admits a = true) :
    ∃ last replies, o.acts as = .ok (last, replies) ∧
      replies.filterMap Reply.body? = (o.receipts as).map Prod.snd ∧
      ∀ world c, Delivered (o.waiting world c ++ as.filterMap (Act.posted? world c))
        ((o.receipts as).filter fun receipt => receipt.1.isFrom world c)
        (last.waiting world c) := by
  induction as generalizing o with
  | nil => exact ⟨o, [], rfl, rfl, fun _ _ => ⟨[], List.append_nil _, .nil⟩⟩
  | cons a rest ih =>
    obtain ⟨ha, hrest⟩ := List.forall_mem_cons.1 h
    obtain ⟨last, replies, hacts, hbodies, hdelivered⟩ :=
      ih (o := (o.act a).1) fun b hb => (admits_act a b).trans (hrest b hb)
    refine ⟨last, (o.act a).2 :: replies, acts_cons ha hacts, ?_, fun world c => ?_⟩
    · rw [List.filterMap_cons, body?_act, hbodies, receipts, List.map_append]
      cases o.receipt? a <;> rfl
    · obtain ⟨first, hfirst, hgot⟩ := delivered_of_act ha world c
      obtain ⟨later, hlater, hgot'⟩ := hdelivered world c
      refine ⟨first ++ later, ?_, ?_⟩
      · have hposted : (a :: rest).filterMap (Act.posted? world c) =
            (a.posted? world c).toList ++ rest.filterMap (Act.posted? world c) := by
          rw [List.filterMap_cons]
          cases a.posted? world c <;> rfl
        rw [hposted, ← List.append_assoc, hfirst, List.append_assoc, hlater, List.append_assoc]
      · rw [receipts, List.filter_append]
        exact List.rel_append hgot hgot'

/-! ## Worlds without messages -/

/-- What some acts led to, in worlds that had no messages. -/
structure DeliveredInOrder (o : Offices κ ι) (as : List (Act κ ι)) (last : Offices κ ι)
    (replies : List (Reply κ)) : Prop where
  /-- The messages that the ranks got are those of the receives that were completed. -/
  bodies_eq : replies.filterMap Reply.body? = (o.receipts as).map Prod.snd
  delivered : ∀ world c, Delivered (as.filterMap (Act.posted? world c))
    ((o.receipts as).filter fun receipt => receipt.1.isFrom world c) (last.waiting world c)
  /-- A receive that is still announced can be completed just if a message waits for it. -/
  completes_iff : ∀ name entry, last.announced.lookup name = some entry →
    ((∃ body, (last.act (.wait name)).2 = .got body) ↔ last.waiting entry.world entry.channel ≠ [])
  /-- No act changes a channel on which it neither posts nor completes a receive. -/
  untouched : ∀ a, last.admits a = true → ∀ world c, a.posted? world c = none →
    (∀ receipt ∈ last.receipt? a, receipt.1.isFrom world c = false) →
      (last.act a).1.waiting world c = last.waiting world c

/-- Whatever acts the ranks of some worlds do, in any order and any number, they succeed, and the
    messages of each channel are delivered once and in the order in which they were posted. -/
theorem acts_deliver {sizes : List Nat} {as : List (Act κ ι)} (ho : fresh sizes = .ok o)
    (h : ∀ a ∈ as, o.admits a = true) :
    ∃ last replies, o.acts as = .ok (last, replies) ∧ DeliveredInOrder o as last replies := by
  obtain ⟨last, replies, hacts, hbodies, hdelivered⟩ := delivered_of_acts h
  refine ⟨last, replies, hacts, hbodies, fun world c => ?_, fun _ _ => completes_iff,
    fun _ ha _ _ => waiting_act_of_untouched ha⟩
  have hchannel := hdelivered world c
  rwa [waiting_fresh ho, List.nil_append] at hchannel

/-- A world of two ranks beside one of a single rank. -/
def twoWorlds : Offices UInt8 Nat := ⟨[(2, .empty), (1, .empty)], []⟩

/-- Two receives announced before there is a message, completed in the other order, while the
    other world uses the same tag. -/
def crossedReceives : List (Act UInt8 Nat) :=
  [.announce 0 1 0 7 0 9, .announce 0 1 0 7 1 2, .send 0 0 1 7 [1, 2, 3], .send 1 0 0 7 [9],
    .wait 1, .wait 0, .send 0 0 1 7 [4], .send 0 0 1 7 [5, 6], .wait 0]

/-- The first message is cut for the receive that is completed first, though it was announced
    last; of three messages one waits, and so does the one in the other world. -/
theorem acts_deliver_crossedReceives :
    (fresh [2, 1] = .ok twoWorlds ∧ ∀ a ∈ crossedReceives, twoWorlds.admits a = true) ∧
      ∃ last replies, twoWorlds.acts crossedReceives = .ok (last, replies) ∧
        DeliveredInOrder twoWorlds crossedReceives last replies ∧
        replies.filterMap Reply.body? = [[1, 2], [4]] ∧
        last.waiting 0 ⟨0, 1, 7⟩ = [[5, 6]] ∧ last.waiting 1 ⟨0, 0, 7⟩ = [[9]] := by
  have hfresh : fresh [2, 1] = .ok twoWorlds := rfl
  have hadmits : ∀ a ∈ crossedReceives, twoWorlds.admits a = true := by decide
  obtain ⟨last, replies, hacts, hdelivered⟩ := acts_deliver hfresh hadmits
  refine ⟨⟨hfresh, hadmits⟩, last, replies, hacts, hdelivered, hdelivered.bodies_eq.trans rfl, ?_⟩
  cases hacts
  exact ⟨rfl, rfl⟩

end Offices

end SharedMesh
