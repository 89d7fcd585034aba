import SharedMesh.Proofs.Collective.Reducing
import SharedMesh.Proofs.Network.Logging

/-!
# Acting in step

The members of a group act *in step* if they act together, if their logs are confined to the
group, and if all of them make the same collective calls in the same order (`InStep`). A call
is known by its tag, and shows in the log of a member as two rounds of messages to and from
the other members (`callKinds`).

Reductions and scans are calls of this kind (`InStep.reduceScalars`, `InStep.scanNumbers`), and
what is put together from such calls is done in step as well (`InStep.andThen`).
-/

namespace SharedMesh

open Program

variable {κ α β T : Type} {n : Nat} {tag : UInt16} {g : Group}

/-! ## Kinds of messages -/

/-- Whether a message was sent or got, and under which tag. -/
def Event.kind (e : Event κ) : Bool × UInt16 := (e.sent, e.tag)

/-- A round of a member: it sends a message to each of some peers, and gets one of each. -/
def roundKinds (peers : Nat) (tag : UInt16) : List (Bool × UInt16) :=
  List.replicate peers (true, tag) ++ List.replicate peers (false, tag)

/-- A call: counts are exchanged under the tag, and values under the next one. -/
def callKinds (g : Group) (tag : UInt16) : List (Bool × UInt16) :=
  roundKinds (g.size - 1) tag ++ roundKinds (g.size - 1) (tag + 1)

/-- A list of checks that passes is the list of its values. -/
theorem eq_map_ok_of_mapM {xs : List (Checked α)} {ys : List α} (h : xs.mapM id = .ok ys) :
    xs = ys.map .ok := by
  induction xs generalizing ys with
  | nil => cases h; rfl
  | cons x xs ih =>
    rw [List.mapM_cons] at h
    obtain ⟨y, hx, h⟩ := bind_eq_ok h
    obtain ⟨rest, hxs, h⟩ := bind_eq_ok h
    cases h
    rw [List.map_cons, ← ih hxs]
    exact congrArg (· :: xs) hx

namespace Program.Logs

variable {log : List (Event κ)}

theorem done_inv {a b : α} (h : Logs (.done a) log b) : log = [] ∧ b = a := by
  cases h
  exact ⟨rfl, rfl⟩

theorem kind_sendEach {messages : List (Nat × List κ)} {u : Unit}
    (h : Logs (sendEach tag messages) log u) :
    log.map Event.kind = List.replicate messages.length (true, tag) := by
  induction messages generalizing log with
  | nil =>
    obtain ⟨rfl, _⟩ := h.done_inv
    rfl
  | cons message rest ih =>
    cases h with
    | send h => exact congrArg _ (ih h)

/-- A task after another one, if both succeed. -/
theorem of_andThen {t : Proc κ α} {f : α → Proc κ β} {b : β}
    (h : Logs (t >>= f).toProgram log (.ok b)) :
    ∃ before after a, log = before ++ after ∧ Logs t.toProgram before (.ok a) ∧
      Logs (f a).toProgram after (.ok b) := by
  obtain ⟨before, after, x, hlog, ht, hf⟩ := of_bind h
  cases x with
  | ok a => exact ⟨before, after, a, hlog, ht, hf⟩
  | error e =>
    obtain ⟨_, h⟩ := hf.done_inv
    cases h

theorem of_ofProgram {p : Program κ α} {a : α}
    (h : Logs (Proc.ofProgram p).toProgram log (.ok a)) : Logs p log a := by
  obtain ⟨before, after, x, rfl, hp, hdone⟩ := of_bind h
  obtain ⟨rfl, hx⟩ := hdone.done_inv
  rw [List.append_nil, Except.ok.inj hx]
  exact hp

/-- A local step after a task. -/
theorem of_ofChecked {t : Proc κ α} {f : α → Checked β} {b : β}
    (h : Logs (t >>= fun a => Proc.ofChecked (f a)).toProgram log (.ok b)) :
    ∃ a, Logs t.toProgram log (.ok a) ∧ f a = .ok b := by
  obtain ⟨before, after, a, rfl, ht, hf⟩ := of_andThen h
  obtain ⟨rfl, hb⟩ := hf.done_inv
  exact ⟨a, by rwa [List.append_nil], hb.symm⟩

theorem kind_recvCounts [Alphabet κ] {peers : List Nat} {told : List (Checked Nat)}
    (h : Logs (recvCounts tag peers) log told) :
    log.map Event.kind = List.replicate peers.length (false, tag) ∧ told.length = peers.length := by
  induction peers generalizing log told with
  | nil =>
    obtain ⟨rfl, rfl⟩ := h.done_inv
    exact ⟨rfl, rfl⟩
  | cons peer rest ih =>
    cases h with
    | recv body h =>
      obtain ⟨before, after, counts, rfl, hrest, hdone⟩ := of_bind h
      obtain ⟨rfl, rfl⟩ := hdone.done_inv
      obtain ⟨hkind, hlength⟩ := ih hrest
      rw [List.append_nil]
      exact ⟨congrArg _ hkind, congrArg _ hlength⟩

/-- If values came from all peers, all of them announced some. -/
theorem kind_recvValues [Layout κ T] {peers : List (Nat × Nat)} {lists : List (List T)}
    (h : Logs (recvValues tag peers) log (lists.map .ok)) (hlists : ∀ list ∈ lists, list ≠ []) :
    log.map Event.kind = List.replicate peers.length (false, tag) := by
  induction peers generalizing log lists with
  | nil =>
    obtain ⟨rfl, _⟩ := h.done_inv
    rfl
  | cons announced rest ih =>
    obtain ⟨peer, count⟩ := announced
    rw [recvValues] at h
    split at h
    · obtain ⟨_, _, others, _, _, hdone⟩ := of_bind h
      obtain ⟨list, lists, rfl⟩ : ∃ list rest, lists = list :: rest :=
        List.exists_cons_of_ne_nil fun hnil => by cases hnil ▸ hdone.done_inv.2
      have hnil := (List.cons.inj hdone.done_inv.2).1
      exact absurd (Except.ok.inj hnil) (hlists list List.mem_cons_self)
    · cases h with
      | recv body h =>
        obtain ⟨before, after, others, rfl, hrest, hdone⟩ := of_bind h
        obtain ⟨rfl, heq⟩ := hdone.done_inv
        cases lists with
        | nil => cases heq
        | cons list lists =>
          rw [← (List.cons.inj heq).2] at hrest
          rw [List.append_nil]
          exact congrArg _ (ih hrest fun l hl => hlists l (List.mem_cons_of_mem _ hl))

/-! ## Calls -/

section

variable {peers : List Nat}

theorem kind_swapCounts [Alphabet κ] {counts told : List Nat}
    (hcounts : counts.length = peers.length)
    (h : Logs (swapCounts tag peers counts : Proc κ (List Nat)).toProgram log (.ok told)) :
    log.map Event.kind = roundKinds peers.length tag ∧ told.length = peers.length := by
  obtain ⟨before, after, _, rfl, hsend, h⟩ := of_andThen h
  obtain ⟨answers, hrecv, hmap⟩ := of_ofChecked h
  obtain ⟨hkind, hlength⟩ := kind_recvCounts (of_ofProgram hrecv)
  rw [eq_map_ok_of_mapM hmap, List.length_map] at hlength
  rw [List.map_append, kind_sendEach (of_ofProgram hsend), hkind, List.length_zipWith, hcounts,
    Nat.min_self]
  exact ⟨rfl, hlength⟩

theorem kind_swapValues [Layout κ T] {lists arrived : List (List T)} {counts : List Nat}
    (hlists : lists.length = peers.length) (hcounts : counts.length = peers.length)
    (hsome : ∀ list ∈ lists, list ≠ []) (harrived : ∀ list ∈ arrived, list ≠ [])
    (h : Logs (swapValues tag peers lists counts : Proc κ (List (List T))).toProgram log
      (.ok arrived)) : log.map Event.kind = roundKinds peers.length tag := by
  obtain ⟨before, after, _, rfl, hsend, h⟩ := of_andThen h
  obtain ⟨answers, hrecv, hmap⟩ := of_ofChecked h
  rw [eq_map_ok_of_mapM hmap] at hrecv
  have hkept : (peers.zip lists).filter (fun x => !x.2.isEmpty) = peers.zip lists :=
    List.filter_eq_self.2 fun x hx => by simpa using hsome x.2 (List.of_mem_zip hx).2
  rw [List.map_append, kind_sendEach (of_ofProgram hsend),
    kind_recvValues (of_ofProgram hrecv) harrived, hkept, List.length_map, List.length_zip,
    List.length_zip, hlists, hcounts, Nat.min_self]
  rfl

/-- A member that gets something from all members has sent and got two messages for each of
    the others. -/
theorem kind_gather [Alphabet κ] [Layout κ T] {seat : Seat} {own : List T} {lists : List (List T)}
    (hg : g.ranks.Nodup) (hr : seat.rank ∈ g.ranks) (hown : own ≠ [])
    (hlists : ∀ list ∈ lists, list ≠ [])
    (h : Logs (gather seat g tag own : Proc κ (List (List T))).toProgram log (.ok lists)) :
    log.map Event.kind = callKinds g tag := by
  have hpeers : (g.peersOf seat.rank).length = g.size - 1 := by
    rw [Group.peersOf, List.length_eraseIdx_of_lt (List.idxOf_lt_length_of_mem hr)]
    rfl
  rw [gather, swap_eq hr hg List.length_replicate rfl] at h
  obtain ⟨before, after, told, rfl, hcounts, h⟩ := of_andThen h
  obtain ⟨arrived, hvalues, hinsert⟩ := of_ofChecked h
  obtain ⟨hkind, htold⟩ := kind_swapCounts (List.length_map _) hcounts
  rw [List.map_append, hkind, callKinds, ← hpeers]
  refine congrArg _ (kind_swapValues (List.length_map _) htold (fun list hlist => ?_)
    (fun list hlist => ?_) hvalues)
  · obtain ⟨s, hs, rfl⟩ := List.mem_map.1 hlist
    have hs : g.ranks.idxOf s < g.size :=
      List.idxOf_lt_length_of_mem ((Group.mem_peersOf hg).1 hs).1
    simpa [Group.listFor, hs] using hown
  · exact hlists list (Except.ok.inj hinsert ▸ List.subset_insertIdx _ _ _ hlist)

end

end Program.Logs

/-! ## Acting in step -/

/-- The members of a group act together, exchange messages among themselves only, and all make
    the same calls. -/
def InStep (n : Nat) (g : Group) (p : Nat → Program κ α) (a : Nat → α) (calls : List UInt16) :
    Prop :=
  ∃ log : Nat → List (Event κ),
    Together n g.ranks (fun r => (p r).logged) (fun r => (a r, log r)) ∧ Confined g.ranks log ∧
      ∀ r ∈ g.ranks, (log r).map Event.kind = calls.flatMap (callKinds g)

namespace InStep

variable {p q : Nat → Program κ α} {a b : Nat → α} {calls : List UInt16}

theorem congr (h : InStep n g p a calls) (hp : ∀ r ∈ g.ranks, p r = q r)
    (ha : ∀ r ∈ g.ranks, a r = b r) : InStep n g q b calls := by
  obtain ⟨log, htogether, hconfined, hkind⟩ := h
  exact ⟨log, htogether.congr (fun r hr => by rw [hp r hr]) fun r hr => by rw [ha r hr],
    hconfined, hkind⟩

/-- What is done in step is done together. -/
theorem together (h : InStep n g p a calls) : Together n g.ranks p a := by
  obtain ⟨log, htogether, _⟩ := h
  have := htogether.bind (f := fun _ x => .done x.1) (Together.done a)
  simpa only [logged_bind_fst] using this

/-- What needs no messages is done in step. -/
theorem done (a : Nat → α) : InStep (κ := κ) n g (fun r => .done (a r)) a [] :=
  ⟨fun _ => [], Together.done _, .nil, fun _ _ => rfl⟩

/-- One thing after the other. -/
theorem bind {f : Nat → α → Program κ β} {b : Nat → β} {calls' : List UInt16}
    (hp : InStep n g p a calls) (hf : InStep n g (fun r => f r (a r)) b calls') :
    InStep n g (fun r => (p r).bind (f r)) b (calls ++ calls') := by
  obtain ⟨log, hp, hconfined, hkind⟩ := hp
  obtain ⟨log', hf, hconfined', hkind'⟩ := hf
  refine ⟨_, hp.bindLogged hf, hconfined.append hconfined', fun r hr => ?_⟩
  rw [List.map_append, hkind r hr, hkind' r hr, List.flatMap_append]

section

variable {t : Nat → Proc κ α} {f : Nat → α → Proc κ β} {x : Nat → Checked α} {y : Nat → Checked β}
  {calls' : List UInt16}

/-- One task after the other, if the first succeeds on all members. -/
theorem andThen (ht : InStep n g (fun r => (t r).toProgram) (fun r => .ok (a r)) calls)
    (hf : InStep n g (fun r => (f r (a r)).toProgram) y calls') :
    InStep n g (fun r => (t r >>= f r).toProgram) y (calls ++ calls') :=
  ht.bind hf

/-- One call, and then a task. -/
theorem callThen (ht : InStep n g (fun r => (t r).toProgram) (fun r => .ok (a r)) [tag])
    (hf : InStep n g (fun r => (f r (a r)).toProgram) y calls') :
    InStep n g (fun r => (t r >>= f r).toProgram) y (tag :: calls') :=
  ht.andThen hf

/-- A local step that succeeds on all members, and then a task. -/
theorem ofCheckedThen (hx : ∀ r ∈ g.ranks, x r = .ok (a r))
    (hf : InStep n g (fun r => (f r (a r)).toProgram) y calls) :
    InStep n g (fun r => (Proc.ofChecked (x r) >>= f r).toProgram) y calls :=
  ((done x).congr (fun _ _ => rfl) hx).andThen hf

/-- A task, and then a local step. -/
theorem thenOfChecked {f : Nat → α → Checked β}
    (ht : InStep n g (fun r => (t r).toProgram) (fun r => .ok (a r)) calls)
    (hf : ∀ r ∈ g.ranks, f r (a r) = y r) :
    InStep n g (fun r => (t r >>= fun x => Proc.ofChecked (f r x)).toProgram) y calls := by
  have := ht.andThen (f := fun r x => Proc.ofChecked (f r x)) ((done _).congr (fun _ _ => rfl) hf)
  rwa [List.append_nil] at this

/-- The results of a task, handed on. -/
theorem mapOk {f : Nat → α → β}
    (ht : InStep n g (fun r => (t r).toProgram) (fun r => .ok (a r)) calls) :
    InStep n g (fun r => (t r >>= fun x => pure (f r x)).toProgram) (fun r => .ok (f r (a r)))
      calls :=
  ht.thenOfChecked fun _ _ => rfl

end

/-! ## Calls in step -/

section

variable [Alphabet κ] [LawfulAlphabet κ] (hg : g.ranks.Nodup) (hn : ∀ r ∈ g.ranks, r < n)

include hg hn

/-- Gathering is one call, if every member has something to tell. -/
theorem gather [Layout κ T] [LawfulLayout κ T] (tag : UInt16) (values : Nat → List T)
    (hword : ∀ r ∈ g.ranks, (values r).length < 2 ^ 64) (hsome : ∀ r ∈ g.ranks, values r ≠ []) :
    InStep n g (fun r => (SharedMesh.gather (Seat.of r n) g tag (values r) : Proc κ _).toProgram)
      (fun _ => .ok (g.ranks.map values)) [tag] := by
  obtain ⟨log, htogether, hconfined, hlogs⟩ :=
    (gather_together (κ := κ) tag hg hn values hword).exists_log hn
  refine ⟨log, htogether, hconfined, fun r hr => ?_⟩
  rw [List.flatMap_singleton]
  refine (hlogs r hr).kind_gather hg hr (hsome r hr) fun list hlist => ?_
  obtain ⟨s, hs, rfl⟩ := List.mem_map.1 hlist
  exact hsome s hs

/-- A reduction is one call. -/
theorem reduceScalars [Layout κ α] [LawfulLayout κ α] (combine : α → α → α) {width : Nat}
    {values : Nat → List α} (hpos : 0 < width) (hwidth : width < 2 ^ 64)
    (h : ∀ r ∈ g.ranks, (values r).length = width) :
    InStep n g
      (fun r => (SharedMesh.reduceScalars combine (Seat.of r n) g tag (values r) :
        Proc κ _).toProgram)
      (fun _ => .ok (reduced combine values g.ranks)) [tag] := by
  refine (gather hg hn tag values (fun r hr => ?_) fun r hr => ?_).thenOfChecked fun r hr => ?_
  · rw [h r hr]
    exact hwidth
  · exact List.ne_nil_of_length_pos (by rwa [h r hr])
  · exact foldContributions_eq_ok combine (List.ne_nil_of_mem hr) (h r hr) h

/-- Gathering a word of each is one call. -/
theorem gatherNumbers {value : Nat → Nat} (hword : ∀ r ∈ g.ranks, value r < 2 ^ 64) :
    InStep n g
      (fun r => (SharedMesh.gatherNumbers (Seat.of r n) g tag (value r) : Proc κ _).toProgram)
      (fun _ => .ok (g.ranks.map value)) [tag] := by
  have hone : InStep n g
      (fun r => (gatherOne (Seat.of r n) g tag (UInt64.ofNat (value r)) : Proc κ _).toProgram)
      (fun _ => .ok (g.ranks.map fun r => UInt64.ofNat (value r))) [tag] := by
    refine (gather hg hn tag (fun r => [UInt64.ofNat (value r)]) (fun _ _ => by simp)
      fun _ _ => List.cons_ne_nil _ _).thenOfChecked fun _ _ => ?_
    rw [List.zip, List.zipWith_map_left, List.zipWith_self, List.mapM_map]
    exact mapM_eq_ok fun _ _ => rfl
  refine hone.mapOk.congr (fun _ _ => rfl) fun _ _ => ?_
  rw [List.map_map]
  exact congrArg _ (List.map_congr_left fun r hr => toNat_ofNat_word (hword r hr))

/-- A scan is one call. -/
theorem scanNumbers (value : Nat → Nat) (hword : (g.ranks.map value).sum < 2 ^ 64) :
    InStep n g
      (fun r => (SharedMesh.scanNumbers (Seat.of r n) g tag (value r) :
        Proc κ (Nat × Nat)).toProgram)
      (fun r => .ok (((g.ranks.takeWhile (· ≠ r)).map value).sum, (g.ranks.map value).sum))
      [tag] := by
  refine (gatherNumbers hg hn fun r hr => ?_).callThen
    (ofCheckedThen (fun _ _ => word_eq_ok hword) ?_)
  · exact (List.le_sum_of_mem (List.mem_map_of_mem hr)).trans_lt hword
  · refine (done _).congr (fun _ _ => rfl) fun r _ => ?_
    rw [List.zip, List.zipWith_map_right, List.zipWith_self, List.takeWhile_map, List.map_map]
    rfl

end

end InStep

end SharedMesh
