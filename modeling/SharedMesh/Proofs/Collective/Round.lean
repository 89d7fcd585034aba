import Mathlib.Data.List.Nodup
import SharedMesh.Proofs.Network.Together

/-!
# Rounds

In a *round* every member of a group first sends messages to other members, all under one
tag, and then waits for those that were sent to it. `Together.round` says that the members
can do this together: all send, and then one after the other takes its messages, until
every channel is empty again.

What is left of a member after its own part is described channel by channel
(`Mailbox.pending_postEach`, and the hypothesis on receivers in `Together.round`).
-/

namespace SharedMesh

open World

variable {κ α β : Type} {n : Nat} {tag : UInt16}

/-! ## Sending -/

/-- The mailbox after a rank posted messages to some peers under one tag. -/
def Mailbox.postEach (m : Mailbox κ) (source : Nat) (tag : UInt16) :
    List (Nat × List κ) → Mailbox κ
  | [] => m
  | (peer, body) :: rest => (m.post ⟨source, peer, tag⟩ body).postEach source tag rest

/-- The messages among some that go to a peer. -/
def sentTo (messages : List (Nat × List κ)) (peer : Nat) : List (List κ) :=
  (messages.filter fun message => message.1 = peer).map Prod.snd

@[simp] theorem sentTo_nil (peer : Nat) : sentTo ([] : List (Nat × List κ)) peer = [] := rfl

theorem sentTo_cons (message : Nat × List κ) (rest : List (Nat × List κ)) (peer : Nat) :
    sentTo (message :: rest) peer =
      (if message.1 = peer then [message.2] else []) ++ sentTo rest peer := by
  by_cases h : message.1 = peer <;> simp [sentTo, h]

theorem sentTo_eq_nil {messages : List (Nat × List κ)} {peer : Nat}
    (h : ∀ message ∈ messages, message.1 ≠ peer) : sentTo messages peer = [] := by
  simpa [sentTo] using h

theorem Mailbox.pending_postEach (m : Mailbox κ) (source : Nat)
    (messages : List (Nat × List κ)) (c : Channel) :
    (m.postEach source tag messages).pending c =
      m.pending c ++ if c.source = source ∧ c.tag = tag then sentTo messages c.target else [] := by
  induction messages generalizing m with
  | nil => simp [postEach]
  | cons message rest ih =>
    rw [postEach, ih, pending_post, sentTo_cons, List.append_assoc]
    congr 1
    obtain ⟨s, t, g⟩ := c
    by_cases hs : s = source <;> by_cases hg : g = tag <;> by_cases ht : message.1 = t <;>
      simp_all [eq_comm]

theorem reaches_sendEach {p : Nat → Program κ α} {r : Nat} (hr : r < n)
    {messages : List (Nat × List κ)} {next : Unit → Program κ α} {mail : Mailbox κ}
    (h : p r = (Program.sendEach tag messages).bind next) :
    Reaches (ofRanks n p mail)
      (ofRanks n (Function.update p r (next ())) (mail.postEach r tag messages)) := by
  induction messages generalizing p mail with
  | nil =>
    rw [show next () = p r from h.symm, Function.update_eq_self]
    exact .refl _
  | cons message rest ih =>
    obtain ⟨peer, body⟩ := message
    refine (reaches_send hr h).trans ?_
    have := @ih (Function.update p r ((Program.sendEach tag rest).bind next))
      (mail.post ⟨r, peer, tag⟩ body) (Function.update_self ..)
    rwa [Function.update_idem] at this

/-! ## One member after the other -/

/-- If each of some ranks can go from `p` to `p'` in turn, all can. The invariant says what
    is in the mailbox as long as some ranks are still to come. -/
theorem reaches_each (p p' : Nat → Program κ α) (Inv : List Nat → Mailbox κ → Prop)
    {todo : List Nat} (hnodup : todo.Nodup)
    (step : ∀ r rest (q : Nat → Program κ α) (mail : Mailbox κ), (r :: rest) <:+ todo →
      q r = p r → Inv (r :: rest) mail → ∃ mail',
        Reaches (ofRanks n q mail) (ofRanks n (Function.update q r (p' r)) mail') ∧
          Inv rest mail')
    (q : Nat → Program κ α) (mail : Mailbox κ) (hq : ∀ r ∈ todo, q r = p r)
    (hmail : Inv todo mail) : ∃ mail',
      Reaches (ofRanks n q mail) (ofRanks n (fun r => if r ∈ todo then p' r else q r) mail') ∧
        Inv [] mail' := by
  induction todo generalizing q mail with
  | nil => exact ⟨mail, by simpa using Reaches.refl _, hmail⟩
  | cons r rest ih =>
    obtain ⟨hr, hrest⟩ := List.nodup_cons.1 hnodup
    obtain ⟨mail₁, h₁, hmail₁⟩ := step r rest q mail List.suffix_rfl (hq r List.mem_cons_self)
      hmail
    obtain ⟨mail₂, h₂, hmail₂⟩ := ih hrest
      (fun s rest' q mail hs => step s rest' q mail (hs.trans (List.suffix_cons r rest)))
      (Function.update q r (p' r)) mail₁ (fun s hs => by
        rw [Function.update_of_ne fun h : s = r => hr (h ▸ hs)]
        exact hq s (List.mem_cons_of_mem r hs)) hmail₁
    refine ⟨mail₂, h₁.trans ?_, hmail₂⟩
    have : (fun s => if s ∈ r :: rest then p' s else q s) =
        fun s => if s ∈ rest then p' s else Function.update q r (p' r) s := by
      funext s
      by_cases hs : s = r
      · subst hs; simp [hr]
      · simp [hs]
    rwa [this]

/-! ## A round -/

/-- A rank can take the messages that the members sent to it under a tag, with the given
    result. Nothing else changes. -/
def Takes (n : Nat) (members : List Nat) (tag : UInt16) (r : Nat) (sent : Nat → List (List κ))
    (p : Program κ α) (a : α) : Prop :=
  ∀ (β : Type) (q : Nat → Program κ β) (next : α → Program κ β) (mail : Mailbox κ),
    q r = p.bind next → (∀ s ∈ members, mail.pending ⟨s, r, tag⟩ = sent s) →
      ∃ mail', Reaches (ofRanks n q mail) (ofRanks n (Function.update q r (next a)) mail') ∧
        ∀ c, mail'.pending c =
          if c.source ∈ members ∧ c.target = r ∧ c.tag = tag then [] else mail.pending c

section

variable {members : List Nat} {messages : Nat → List (Nat × List κ)}

/-- All members send. The messages of a member are in the mailbox once it had its turn. -/
theorem reaches_sendAll (hnodup : members.Nodup) (hn : ∀ r ∈ members, r < n)
    (tag : UInt16) (messages : Nat → List (Nat × List κ)) {q : Nat → Program κ α}
    (next : Nat → Program κ α)
    (hq : ∀ r ∈ members, q r = (Program.sendEach tag (messages r)).bind fun _ => next r) :
    ∃ mail, Reaches (ofRanks n q .empty)
        (ofRanks n (fun r => if r ∈ members then next r else q r) mail) ∧
      ∀ c, mail.pending c = if c.source ∈ members ∧ c.tag = tag
        then sentTo (messages c.source) c.target else [] := by
  -- the messages of those that had their turn wait
  obtain ⟨mail, h, hmail⟩ := reaches_each (n := n) q next
    (fun todo mail => ∀ c, mail.pending c =
      if c.source ∈ members ∧ c.source ∉ todo ∧ c.tag = tag
      then sentTo (messages c.source) c.target else []) hnodup
    (fun r rest q' mail hsuf hq' hmail => by
      have hr : r ∈ members := hsuf.mem List.mem_cons_self
      have hrest : r ∉ rest := (List.nodup_cons.1 (hnodup.sublist hsuf.sublist)).1
      refine ⟨_, reaches_sendEach (hn r hr) (hq'.trans (hq r hr)), fun c => ?_⟩
      rw [Mailbox.pending_postEach, hmail]
      by_cases hc : c.source = r <;> by_cases ht : c.tag = tag <;>
        simp [hc, ht, hr, hrest])
    q .empty (fun _ _ => rfl) (fun c => by
      rw [if_neg fun h => h.2.1 h.1]
      rfl)
  exact ⟨mail, h, fun c => by simp [hmail c]⟩

/-- All members take what was sent to them, and leave nothing behind. -/
theorem reaches_takeAll (hnodup : members.Nodup) {p : Nat → Program κ α} {a : Nat → α}
    (htake : ∀ r ∈ members, Takes n members tag r (fun s => sentTo (messages s) r) (p r) (a r))
    {q : Nat → Program κ β} {f : Nat → α → Program κ β} {mail : Mailbox κ}
    (hq : ∀ r ∈ members, q r = (p r).bind (f r))
    (hmail : ∀ c, mail.pending c = if c.source ∈ members ∧ c.target ∈ members ∧ c.tag = tag
      then sentTo (messages c.source) c.target else []) :
    Reaches (ofRanks n q mail)
      (ofRanks n (fun r => if r ∈ members then f r (a r) else q r) .empty) := by
  -- the messages to those that are still to come wait
  obtain ⟨mail', h, hmail'⟩ := reaches_each (n := n) q (fun r => f r (a r))
    (fun todo mail => ∀ c, mail.pending c =
      if c.source ∈ members ∧ c.target ∈ todo ∧ c.tag = tag
      then sentTo (messages c.source) c.target else []) hnodup
    (fun r rest q' mail hsuf hq' hmail => by
      have hr : r ∈ members := hsuf.mem List.mem_cons_self
      have hrest : r ∉ rest := (List.nodup_cons.1 (hnodup.sublist hsuf.sublist)).1
      obtain ⟨mail', h', hmail'⟩ := htake r hr β q' (f r) mail (hq'.trans (hq r hr))
        fun s hs => by rw [hmail, if_pos ⟨hs, List.mem_cons_self, rfl⟩]
      refine ⟨mail', h', fun c => ?_⟩
      rw [hmail', hmail]
      by_cases hc : c.target = r <;> by_cases ht : c.tag = tag <;>
        by_cases hs : c.source ∈ members <;> simp [hc, ht, hs, hrest])
    q mail (fun _ _ => rfl) hmail
  have hempty : mail' = .empty := Mailbox.eq_empty_of_pending fun c => by simp [hmail' c]
  rwa [hempty] at h

/-- All members send messages to members under one tag, and then take what was sent to
    them. -/
theorem Together.round (tag : UInt16) (hnodup : members.Nodup) (hn : ∀ r ∈ members, r < n)
    (messages : Nat → List (Nat × List κ))
    (hto : ∀ s ∈ members, ∀ message ∈ messages s, message.1 ∈ members)
    {p : Nat → Program κ α} {a : Nat → α}
    (htake : ∀ r ∈ members, Takes n members tag r (fun s => sentTo (messages s) r) (p r) (a r)) :
    Together n members
      (fun r => (Program.sendEach tag (messages r)).bind fun _ => p r) a := by
  intro β next others
  obtain ⟨mail, hsend, hmail⟩ := reaches_sendAll hnodup hn tag messages
    (q := fun r => if r ∈ members then
      ((Program.sendEach tag (messages r)).bind fun _ => p r).bind (next r) else others r)
    (fun r => (p r).bind (next r))
    fun r hr => by simp only [if_pos hr, Program.bind_assoc]
  have hinside : ∀ c, mail.pending c =
      if c.source ∈ members ∧ c.target ∈ members ∧ c.tag = tag
      then sentTo (messages c.source) c.target else [] := fun c => by
    rw [hmail]
    by_cases hs : c.source ∈ members
    · by_cases ht : c.target ∈ members
      · simp [hs, ht]
      · -- nothing is sent to ranks outside
        have : sentTo (messages c.source) c.target = [] :=
          sentTo_eq_nil fun message hm h => ht (h ▸ hto _ hs message hm)
        simp [this]
    · simp [hs]
  have htaken := reaches_takeAll hnodup htake (f := next)
    (q := fun r => if r ∈ members then (p r).bind (next r) else others r)
    (fun r hr => if_pos hr) hinside
  have hwaiting : (fun r => if r ∈ members then (p r).bind (next r) else
      if r ∈ members then
        ((Program.sendEach tag (messages r)).bind fun _ => p r).bind (next r) else others r) =
      fun r => if r ∈ members then (p r).bind (next r) else others r := by
    funext r
    by_cases hr : r ∈ members <;> simp [hr]
  have hdone : (fun r => if r ∈ members then next r (a r) else
      if r ∈ members then (p r).bind (next r) else others r) =
      fun r => if r ∈ members then next r (a r) else others r := by
    funext r
    by_cases hr : r ∈ members <;> simp [hr]
  rw [hwaiting] at hsend
  rw [hdone] at htaken
  exact hsend.trans htaken

end

end SharedMesh
