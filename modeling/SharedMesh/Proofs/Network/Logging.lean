import SharedMesh.Proofs.Network.Blocks

/-!
# Logs of messages

A program can write down the messages that it sends and gets (`Program.logged`). It does
nothing else differently (`Program.logged_bind_fst`).

If some members of a world act together, what each of them logs does not depend on the
interleaving, nor on the other ranks. Their logs are *confined* (`Confined`): every message
in them is between two members, and on every channel the messages that one member got are
those that the other one sent, in order (`Together.exists_log`).
-/

namespace SharedMesh

open World

/-- A message that a rank sent to a peer, or got from it. -/
structure Event (κ : Type) where
  sent : Bool
  peer : Nat
  tag : UInt16
  body : List κ
deriving DecidableEq, Repr

variable {κ α β γ : Type}

namespace Program

/-- Puts messages before what a program logs. -/
def prefixed (log : List (Event κ)) (p : Program κ (α × List (Event κ))) :
    Program κ (α × List (Event κ)) :=
  p.bind fun x => done (x.1, log ++ x.2)

/-- The program with a log of its messages. -/
def logged : Program κ α → Program κ (α × List (Event κ))
  | done result => done (result, [])
  | send peer tag body next => send peer tag body (next.logged.prefixed [⟨true, peer, tag, body⟩])
  | recv peer tag room next => recv peer tag room fun body =>
      (next body).logged.prefixed (body.toList.map fun cells => ⟨false, peer, tag, cells⟩)

theorem prefixed_bind (log : List (Event κ)) (p : Program κ (α × List (Event κ)))
    (f : α × List (Event κ) → Program κ β) :
    (p.prefixed log).bind f = p.bind fun x => f (x.1, log ++ x.2) := by
  rw [prefixed, bind_assoc]
  rfl

theorem prefixed_prefixed (before after : List (Event κ)) (p : Program κ (α × List (Event κ))) :
    (p.prefixed after).prefixed before = p.prefixed (before ++ after) := by
  rw [prefixed, prefixed_bind, prefixed]
  simp only [List.append_assoc]

theorem prefixed_nil (p : Program κ (α × List (Event κ))) : p.prefixed [] = p :=
  bind_done p

/-- Without its log, a logged program is the program itself. -/
theorem logged_bind_fst (p : Program κ α) : (p.logged.bind fun x => done x.1) = p := by
  induction p with
  | done => rfl
  | send _ _ _ _ ih => rw [logged, Program.bind, prefixed_bind, ih]
  | recv _ _ _ _ ih =>
    rw [logged, Program.bind]
    exact congrArg _ (funext fun body => by rw [prefixed_bind, ih])

/-- The log of two programs in sequence. -/
theorem logged_bind (p : Program κ α) (f : α → Program κ β) :
    (p.bind f).logged = p.logged.bind fun x => (f x.1).logged.prefixed x.2 := by
  have hsplit : ∀ (log : List (Event κ)) (q : Program κ (α × List (Event κ))),
      (q.bind fun x => (f x.1).logged.prefixed x.2).prefixed log =
        (q.prefixed log).bind fun x => (f x.1).logged.prefixed x.2 := by
    intro log q
    rw [prefixed_bind, prefixed, bind_assoc]
    refine congrArg _ (funext fun x => ?_)
    rw [prefixed_bind, prefixed]
    simp only [List.append_assoc]
  induction p with
  | done => exact (prefixed_nil _).symm
  | send _ _ _ _ ih => rw [Program.bind, logged, ih, hsplit]; rfl
  | recv _ _ _ _ ih =>
    rw [Program.bind, logged]
    exact congrArg _ (funext fun body => by rw [ih, hsplit])

/-- What a program may log on the way to a result. -/
inductive Logs : Program κ α → List (Event κ) → α → Prop
  | done (result : α) : Logs (.done result) [] result
  | send {peer : Nat} {tag : UInt16} {body : List κ} {next : Program κ α} {log : List (Event κ)}
      {result : α} (h : Logs next log result) :
      Logs (.send peer tag body next) (⟨true, peer, tag, body⟩ :: log) result
  | recv {peer room : Nat} {tag : UInt16} {next : Option (List κ) → Program κ α}
      {log : List (Event κ)} {result : α} (body : List κ) (h : Logs (next (some body)) log result) :
      Logs (.recv peer tag room next) (⟨false, peer, tag, body⟩ :: log) result

/-- What is logged by two programs in sequence. -/
theorem Logs.of_bind {p : Program κ α} {f : α → Program κ β} {log : List (Event κ)} {b : β}
    (h : Logs (p.bind f) log b) :
    ∃ before after a, log = before ++ after ∧ Logs p before a ∧ Logs (f a) after b := by
  induction p generalizing log with
  | done a => exact ⟨[], log, a, rfl, .done a, h⟩
  | send _ _ _ _ ih =>
    cases h with
    | send h =>
      obtain ⟨before, after, a, rfl, hp, hf⟩ := ih h
      exact ⟨_, after, a, rfl, .send hp, hf⟩
  | recv _ _ _ _ ih =>
    cases h with
    | recv body h =>
      obtain ⟨before, after, a, rfl, hp, hf⟩ := ih _ h
      exact ⟨_, after, a, rfl, .recv body hp, hf⟩

end Program

open Program

/-! ## Confined logs -/

/-- The messages in a log that were sent to a peer or got from it under a tag, in order. -/
def bodies (sent : Bool) (peer : Nat) (tag : UInt16) (log : List (Event κ)) : List (List κ) :=
  (log.filter fun e => e.sent = sent ∧ e.peer = peer ∧ e.tag = tag).map Event.body

theorem bodies_append (sent : Bool) (peer : Nat) (tag : UInt16) (log log' : List (Event κ)) :
    bodies sent peer tag (log ++ log') = bodies sent peer tag log ++ bodies sent peer tag log' := by
  simp [bodies]

theorem bodies_singleton (sent : Bool) (peer : Nat) (tag : UInt16) (e : Event κ) :
    bodies sent peer tag [e] =
      if e.sent = sent ∧ e.peer = peer ∧ e.tag = tag then [e.body] else [] := by
  by_cases h : e.sent = sent ∧ e.peer = peer ∧ e.tag = tag <;> simp [bodies, h]

/-- An event is among the messages of its peer. -/
theorem body_mem_bodies {log : List (Event κ)} {e : Event κ} (h : e ∈ log) :
    e.body ∈ bodies e.sent e.peer e.tag log :=
  List.mem_map_of_mem (List.mem_filter.2 ⟨h, by simp⟩)

/-- Messages are exchanged among some members only. What one of them gets from another one is
    what was sent to it, in order, but for cells that it had no room for. -/
structure Confined (members : List Nat) (log : Nat → List (Event κ)) : Prop where
  peer_mem : ∀ r ∈ members, ∀ e ∈ log r, e.peer ∈ members
  delivered : ∀ r ∈ members, ∀ s ∈ members, ∀ tag,
    List.Forall₂ (· <+: ·) (bodies false s tag (log r)) (bodies true r tag (log s))

namespace Confined

variable {members : List Nat} {log log' : Nat → List (Event κ)}

theorem congr (h : Confined members log) (hlog : ∀ r ∈ members, log r = log' r) :
    Confined members log' := by
  refine ⟨fun r hr => hlog r hr ▸ h.peer_mem r hr, fun r hr s hs tag => ?_⟩
  rw [← hlog r hr, ← hlog s hs]
  exact h.delivered r hr s hs tag

theorem nil : Confined (κ := κ) members fun _ => [] :=
  ⟨fun _ _ _ he => absurd he List.not_mem_nil, fun _ _ _ _ _ => .nil⟩

theorem append (h : Confined members log) (h' : Confined members log') :
    Confined members fun r => log r ++ log' r := by
  refine ⟨fun r hr e he => ?_, fun r hr s hs tag => ?_⟩
  · rcases List.mem_append.1 he with he | he
    · exact h.peer_mem r hr e he
    · exact h'.peer_mem r hr e he
  · rw [bodies_append, bodies_append]
    exact List.rel_append (h.delivered r hr s hs tag) (h'.delivered r hr s hs tag)

end Confined

/-! ## Logs of members that act together -/

section

variable {n : Nat} {members : List Nat} {p c : Nat → Program κ α} {log : Nat → List (Event κ)}
  {mail : Mailbox κ}

/-- The programs of all ranks, while the members run logged programs that go on as `c`. -/
def running (members : List Nat) (c : Nat → Program κ α) (log : Nat → List (Event κ))
    (next : Nat → α × List (Event κ) → Program κ γ) (others : Nat → Program κ γ) (r : Nat) :
    Program κ γ :=
  if r ∈ members then ((c r).logged.prefixed (log r)).bind (next r) else others r

theorem running_update {r : Nat} (hr : r ∈ members) (q : Program κ α) (events : List (Event κ))
    (next : Nat → α × List (Event κ) → Program κ γ) (others : Nat → Program κ γ) :
    running members (Function.update c r q) (Function.update log r events) next others =
      Function.update (running members c log next others) r
        ((q.logged.prefixed events).bind (next r)) := by
  funext s
  by_cases hs : s = r
  · subst hs
    simp [running, hr]
  · simp [running, hs]

/-- One more event of a rank. -/
theorem bodies_update (sent : Bool) (peer : Nat) (tag : UInt16) (r : Nat) (e : Event κ) (s : Nat) :
    bodies sent peer tag (Function.update log r (log r ++ [e]) s) = bodies sent peer tag (log s) ++
      if s = r ∧ e.sent = sent ∧ e.peer = peer ∧ e.tag = tag then [e.body] else [] := by
  by_cases hs : s = r
  · subst hs
    simp [bodies_append, bodies_singleton]
  · simp [hs]

/-- While members run their programs with a log: what is left of each program, what each has
    logged so far, and the messages on their way. -/
structure Logging (n : Nat) (members : List Nat) (p c : Nat → Program κ α)
    (log : Nat → List (Event κ)) (mail : Mailbox κ) : Prop where
  idle : ∀ r < n, r ∉ members → ∃ a, c r = .done a
  silent : ∀ r ∉ members, log r = []
  /-- The logged programs get as far, whatever follows. -/
  reached : ∀ (γ : Type) (next : Nat → α × List (Event κ) → Program κ γ)
    (others : Nat → Program κ γ),
    Reaches (ofRanks n (running members p (fun _ => []) next others) .empty)
      (ofRanks n (running members c log next others) mail)
  logs : ∀ r ∈ members, ∀ rest a, Logs (c r) rest a → Logs (p r) (log r ++ rest) a
  /-- What was sent on a channel was got, or is on its way. -/
  sent : ∀ s r tag, ∃ taken, bodies true r tag (log s) = taken ++ mail.pending ⟨s, r, tag⟩ ∧
    List.Forall₂ (· <+: ·) (bodies false s tag (log r)) taken

namespace Logging

theorem start (hp : ∀ r < n, r ∉ members → ∃ a, p r = .done a) :
    Logging n members p p (fun _ => []) .empty where
  idle := hp
  silent _ _ := rfl
  reached _ _ _ := .refl _
  logs _ _ _ _ h := h
  sent _ _ _ := ⟨[], rfl, .nil⟩

/-- A rank that is about to do something is a member. -/
theorem mem_of_ne_done (h : Logging n members p c log mail) {r : Nat} (hr : r < n)
    (hc : ∀ a, c r ≠ .done a) : r ∈ members := by
  by_contra hmem
  obtain ⟨a, ha⟩ := h.idle r hr hmem
  exact hc a ha

/-- A member does something, and logs it. -/
theorem act (h : Logging n members p c log mail) {r : Nat} (hmem : r ∈ members)
    {q : Program κ α} {e : Event κ} {mail' : Mailbox κ}
    (hlogs : ∀ rest a, Logs q rest a → Logs (c r) (e :: rest) a)
    (hreached : ∀ (γ : Type) (f : Nat → α × List (Event κ) → Program κ γ)
      (others : Nat → Program κ γ), Reaches (ofRanks n (running members c log f others) mail)
        (ofRanks n (Function.update (running members c log f others) r
          (((q.logged.prefixed [e]).prefixed (log r)).bind (f r))) mail'))
    (hsent : ∀ s t tag, ∃ taken,
      bodies true t tag (Function.update log r (log r ++ [e]) s) =
        taken ++ mail'.pending ⟨s, t, tag⟩ ∧
      List.Forall₂ (· <+: ·) (bodies false s tag (Function.update log r (log r ++ [e]) t)) taken) :
    Logging n members p (Function.update c r q) (Function.update log r (log r ++ [e])) mail' where
  idle s hs hsmem := by
    rw [Function.update_of_ne fun hsr : s = r => hsmem (hsr ▸ hmem)]
    exact h.idle s hs hsmem
  silent s hsmem := by
    rw [Function.update_of_ne fun hsr : s = r => hsmem (hsr ▸ hmem)]
    exact h.silent s hsmem
  reached γ f others := by
    rw [running_update hmem, ← prefixed_prefixed]
    exact (h.reached γ f others).trans (hreached γ f others)
  logs s hs rest a hrest := by
    by_cases hsr : s = r
    · subst hsr
      rw [Function.update_self] at hrest ⊢
      rw [List.append_assoc]
      exact h.logs s hs _ a (hlogs _ _ hrest)
    · rw [Function.update_of_ne hsr] at hrest ⊢
      exact h.logs s hs rest a hrest
  sent := hsent

/-- A member sends. -/
theorem send (h : Logging n members p c log mail) {r peer : Nat} {tag : UInt16} {body : List κ}
    {next : Program κ α} (hr : r < n) (hc : c r = .send peer tag body next) :
    Logging n members p (Function.update c r next)
      (Function.update log r (log r ++ [⟨true, peer, tag, body⟩]))
      (mail.post ⟨r, peer, tag⟩ body) := by
  have hmem : r ∈ members := h.mem_of_ne_done hr fun a ha => by rw [hc] at ha; cases ha
  refine h.act hmem (fun rest a hrest => hc ▸ .send hrest) (fun γ f others => ?_)
    fun s t tag' => ?_
  · refine reaches_send hr ?_
    rw [running, if_pos hmem, hc]
    rfl
  · -- what is sent is on its way
    obtain ⟨taken, hsent, htaken⟩ := h.sent s t tag'
    refine ⟨taken, ?_, ?_⟩
    · rw [bodies_update, Mailbox.pending_post, hsent, List.append_assoc]
      simp only [Channel.mk.injEq, true_and, eq_comm]
    · rw [bodies_update, if_neg (by simp), List.append_nil]
      exact htaken

/-- A member gets a message. -/
theorem recv (h : Logging n members p c log mail) {r peer room : Nat} {tag : UInt16}
    {next : Option (List κ) → Program κ α} {body : List κ} {mail' : Mailbox κ} (hr : r < n)
    (hc : c r = .recv peer tag room next) (hm : mail.take? ⟨peer, r, tag⟩ = some (body, mail')) :
    Logging n members p (Function.update c r (next (some (body.take room))))
      (Function.update log r (log r ++ [⟨false, peer, tag, body.take room⟩])) mail' := by
  have hmem : r ∈ members := h.mem_of_ne_done hr fun a ha => by rw [hc] at ha; cases ha
  refine h.act hmem (fun rest a hrest => hc ▸ .recv _ hrest) (fun γ f others => ?_)
    fun s t tag' => ?_
  · have hrunning : running members c log f others r = .recv peer tag room fun body =>
        (((next body).logged.prefixed (body.toList.map fun cells =>
          ⟨false, peer, tag, cells⟩)).prefixed (log r)).bind (f r) := by
      rw [running, if_pos hmem, hc]
      rfl
    exact reaches_recv hr hrunning hm
  · -- the first message on its way is taken
    obtain ⟨taken, hsent, htaken⟩ := h.sent s t tag'
    rw [Mailbox.pending_of_take? hm, ← List.append_assoc] at hsent
    refine ⟨taken ++ if (⟨peer, r, tag⟩ : Channel) = ⟨s, t, tag'⟩ then [body] else [], ?_, ?_⟩
    · rw [bodies_update, if_neg (by simp), List.append_nil]
      exact hsent
    · rw [bodies_update]
      refine List.rel_append htaken ?_
      by_cases hchannel : (⟨peer, r, tag⟩ : Channel) = ⟨s, t, tag'⟩
      · obtain ⟨rfl, rfl, rfl⟩ := Channel.mk.inj hchannel
        rw [if_pos ⟨rfl, rfl, rfl, rfl⟩, if_pos rfl]
        exact .cons (List.take_prefix _ _) .nil
      · rw [if_neg hchannel, if_neg]
        · exact .nil
        · rintro ⟨rfl, _, rfl, rfl⟩
          exact hchannel rfl

/-- Whatever happens, the members keep their logs. -/
theorem step (h : Logging n members p c log mail) {w : World κ α} (hw : Step (ofRanks n c mail) w) :
    ∃ c' log' mail', w = ofRanks n c' mail' ∧ Logging n members p c' log' mail' := by
  have hrank : ∀ {r : Nat} {q : Program κ α}, (ofRanks n c mail).ranks[r]? = some q →
      r < n ∧ c r = q := by
    intro r q hr
    have hlt : r < n := by simpa [ofRanks] using (List.getElem?_eq_some_iff.1 hr).1
    rw [getElem?_ofRanks hlt, Option.some.injEq] at hr
    exact ⟨hlt, hr⟩
  cases hw with
  | send hsend =>
    obtain ⟨hr, hc⟩ := hrank hsend
    exact ⟨_, _, _, set_ofRanks _ _, h.send hr hc⟩
  | recv hrecv hm =>
    obtain ⟨hr, hc⟩ := hrank hrecv
    exact ⟨_, _, _, set_ofRanks _ _, h.recv hr hc hm⟩

/-- At any time, the members have their logs. -/
theorem run {w : World κ α} (hp : ∀ r < n, r ∉ members → ∃ a, p r = .done a)
    (hw : Reaches (ofRanks n p .empty) w) :
    ∃ c log mail, w = ofRanks n c mail ∧ Logging n members p c log mail := by
  generalize hstart : ofRanks n p .empty = first at hw
  induction hw with
  | refl => exact ⟨p, _, .empty, hstart.symm, .start hp⟩
  | step _ hstep ih =>
    obtain ⟨c, log, mail, rfl, h⟩ := ih
    exact h.step hstep

/-- When all messages were taken, the logs are confined. -/
theorem confined (h : Logging n members p c log .empty) : Confined members log := by
  have hdelivered : ∀ r s tag,
      List.Forall₂ (· <+: ·) (bodies false s tag (log r)) (bodies true r tag (log s)) := by
    intro r s tag
    obtain ⟨taken, hsent, htaken⟩ := h.sent s r tag
    rw [Mailbox.pending_empty, List.append_nil] at hsent
    rwa [hsent]
  refine ⟨fun r _ e he => ?_, fun r _ s _ tag => hdelivered r s tag⟩
  -- a rank that logs nothing neither sends nor gets a message
  by_contra hpeer
  have hsilent := h.silent e.peer hpeer
  have hbody := body_mem_bodies he
  have hsent := hdelivered e.peer r e.tag
  have hgot := hdelivered r e.peer e.tag
  rw [hsilent] at hsent hgot
  cases hkind : e.sent with
  | true =>
    rw [hkind, List.eq_nil_of_length_eq_zero hsent.length_eq.symm] at hbody
    cases hbody
  | false =>
    rw [hkind, List.eq_nil_of_length_eq_zero hgot.length_eq] at hbody
    cases hbody

end Logging

/-- The logs of one thing after the other. -/
theorem Together.bindLogged {a : Nat → α} {f : Nat → α → Program κ β} {b : Nat → β}
    {log' : Nat → List (Event κ)}
    (hp : Together n members (fun r => (p r).logged) fun r => (a r, log r))
    (hf : Together n members (fun r => (f r (a r)).logged) fun r => (b r, log' r)) :
    Together n members (fun r => ((p r).bind (f r)).logged) fun r => (b r, log r ++ log' r) := by
  simp only [logged_bind]
  refine hp.bind ?_
  exact hf.bind (Together.done _)

/-- A local step that succeeds on all members is not in their logs. -/
theorem Together.ofCheckedThenLogged {x : Nat → Checked α} {a : Nat → α}
    {f : Nat → α → Proc κ β} {y : Nat → Checked β} (hx : ∀ r ∈ members, x r = .ok (a r))
    (hf : Together n members (fun r => (f r (a r)).toProgram.logged) fun r => (y r, log r)) :
    Together n members (fun r => (Proc.ofChecked (x r) >>= f r).toProgram.logged)
      fun r => (y r, log r) :=
  hf.congr (fun r hr => by rw [hx r hr]; rfl) fun _ _ => rfl

/-- Members that act together can log their messages, and their logs are confined. -/
theorem Together.exists_log {a : Nat → α} (h : Together n members p a)
    (hn : ∀ r ∈ members, r < n) : ∃ log : Nat → List (Event κ),
      Together n members (fun r => (p r).logged) (fun r => (a r, log r)) ∧
        Confined members log ∧ ∀ r ∈ members, Logs (p r) (log r) (a r) := by
  -- the other ranks are done, so that only members move
  have hreaches := h α (fun _ => .done) fun r => .done (a r)
  simp only [Program.bind_done] at hreaches
  obtain ⟨c, log, mail, hend, hlog⟩ := Logging.run (fun r _ hr => ⟨a r, if_neg hr⟩) hreaches
  obtain ⟨hranks, rfl⟩ := World.mk.inj hend
  have hc : ∀ r < n, c r = .done (a r) := by
    intro r hr
    simpa using (List.map_inj_left.1 hranks r (List.mem_range.2 hr)).symm
  refine ⟨log, fun γ next others => ?_, hlog.confined, fun r hr => ?_⟩
  · have hstart : running members (fun r => if r ∈ members then p r else .done (a r))
        (fun _ => []) next others =
          fun r => if r ∈ members then (p r).logged.bind (next r) else others r := by
      funext r
      by_cases hr : r ∈ members <;> simp [running, prefixed_nil, hr]
    have hstop : ∀ r < n, running members c log next others r =
        if r ∈ members then next r (a r, log r) else others r := by
      intro r hr
      rw [running, hc r hr]
      exact if_congr Iff.rfl (congrArg (fun log => next r (a r, log)) (List.append_nil _)) rfl
    have hreached := hlog.reached γ next others
    rwa [hstart, ofRanks_congr hstop] at hreached
  · have hlogs := hlog.logs r hr [] (a r) (hc r (hn r hr) ▸ .done (a r))
    rwa [if_pos hr, List.append_nil] at hlogs

end

end SharedMesh
