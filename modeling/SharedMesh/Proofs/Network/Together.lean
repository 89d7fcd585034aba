import Mathlib.Logic.Function.Basic
import SharedMesh.Proofs.Network.Interleaving

/-!
# Acting together

Some ranks of a world, its *members*, act together when their programs can be brought to
their results with an empty mailbox before and after, whatever each member does next and
whatever the other ranks are about to do (`Together`). The other ranks do not move
meanwhile. So what ranks do together can be put in sequence (`Together.bind`), and
what all ranks do together is what every interleaving of the world yields
(`Together.yields`).
-/

namespace SharedMesh

namespace World

variable {κ α : Type}

/-- The world of `n` ranks, of which rank `r` runs `p r`. -/
def ofRanks (n : Nat) (p : Nat → Program κ α) (mail : Mailbox κ) : World κ α :=
  ⟨(List.range n).map p, mail⟩

theorem getElem?_ofRanks {n : Nat} {p : Nat → Program κ α} {mail : Mailbox κ} {r : Nat}
    (hr : r < n) : (ofRanks n p mail).ranks[r]? = some (p r) := by
  simp [ofRanks, hr]

theorem ofRanks_congr {n : Nat} {p q : Nat → Program κ α} {mail : Mailbox κ}
    (h : ∀ r < n, p r = q r) : ofRanks n p mail = ofRanks n q mail := by
  simp only [ofRanks, World.mk.injEq, and_true]
  exact List.map_congr_left fun r hr => h r (List.mem_range.1 hr)

theorem set_ofRanks {n : Nat} {p : Nat → Program κ α} {r : Nat} (q : Program κ α)
    (mail : Mailbox κ) :
    ⟨((List.range n).map p).set r q, mail⟩ = ofRanks n (Function.update p r q) mail := by
  simp only [ofRanks, World.mk.injEq, and_true]
  refine List.ext_getElem (by simp) fun i h _ => ?_
  rw [List.getElem_set]
  split
  · next hri => simp [← hri]
  · next hri => simp [Function.update_of_ne (Ne.symm hri)]

theorem reaches_send {n : Nat} {p : Nat → Program κ α} {mail : Mailbox κ} {r peer : Nat}
    {tag : UInt16} {body : List κ} {next : Program κ α} (hr : r < n)
    (h : p r = .send peer tag body next) :
    Reaches (ofRanks n p mail)
      (ofRanks n (Function.update p r next) (mail.post ⟨r, peer, tag⟩ body)) := by
  have := (Step.send (w := ofRanks n p mail) ((getElem?_ofRanks hr).trans (congrArg _ h))).reaches
  rwa [ofRanks, set_ofRanks] at this

theorem reaches_recv {n : Nat} {p : Nat → Program κ α} {mail mail' : Mailbox κ}
    {r peer room : Nat} {tag : UInt16} {next : Option (List κ) → Program κ α} {body : List κ}
    (hr : r < n) (h : p r = .recv peer tag room next)
    (hm : mail.take? ⟨peer, r, tag⟩ = some (body, mail')) :
    Reaches (ofRanks n p mail)
      (ofRanks n (Function.update p r (next (some (body.take room)))) mail') := by
  have := (Step.recv (w := ofRanks n p mail) ((getElem?_ofRanks hr).trans (congrArg _ h))
    hm).reaches
  rwa [ofRanks, set_ofRanks] at this

end World

open World

variable {κ α β : Type} {n : Nat} {members : List Nat}

/-- The members can bring the programs `p` to the results `a`, and leave no message. -/
def Together (n : Nat) (members : List Nat) (p : Nat → Program κ α) (a : Nat → α) : Prop :=
  ∀ (β : Type) (next : Nat → α → Program κ β) (others : Nat → Program κ β),
    -- whatever the members do afterwards, and whatever the other ranks wait to do
    Reaches
      (ofRanks n (fun r => if r ∈ members then (p r).bind (next r) else others r) .empty)
      (ofRanks n (fun r => if r ∈ members then next r (a r) else others r) .empty)

/-- The members of a world in which the other ranks do nothing come to the results `a`, whatever
    the order of steps. -/
def MembersYield (n : Nat) (members : List Nat) (p : Nat → Program κ α) (a : Nat → α) : Prop :=
  ∀ idle : Nat → α,
    (World.start ((List.range n).map fun r => if r ∈ members then p r else .done (idle r))).Yields
      ((List.range n).map fun r => if r ∈ members then a r else idle r)

namespace Together

theorem congr {p q : Nat → Program κ α} {a b : Nat → α} (h : Together n members p a)
    (hp : ∀ r ∈ members, p r = q r) (ha : ∀ r ∈ members, a r = b r) :
    Together n members q b := by
  intro β next others
  have h₁ : (fun r => if r ∈ members then (p r).bind (next r) else others r) =
      fun r => if r ∈ members then (q r).bind (next r) else others r := by
    funext r
    split
    · next hr => rw [hp r hr]
    · rfl
  have h₂ : (fun r => if r ∈ members then next r (a r) else others r) =
      fun r => if r ∈ members then next r (b r) else others r := by
    funext r
    split
    · next hr => rw [ha r hr]
    · rfl
  rw [← h₁, ← h₂]
  exact h β next others

/-- What needs no messages is done together. -/
theorem done (a : Nat → α) : Together (κ := κ) n members (fun r => .done (a r)) a :=
  fun _ _ _ => .refl _

/-- One thing after the other. -/
theorem bind {p : Nat → Program κ α} {a : Nat → α} {f : Nat → α → Program κ β} {b : Nat → β}
    (hp : Together n members p a) (hf : Together n members (fun r => f r (a r)) b) :
    Together n members (fun r => (p r).bind (f r)) b := by
  intro γ next others
  have := (hp γ (fun r x => (f r x).bind (next r)) others).trans (hf γ next others)
  simpa only [Program.bind_assoc] using this

/-- Some of the members act first, while the others wait. -/
theorem someFirst {p : Nat → Program κ α} {a : Nat → α} (hp : Together n members p a)
    (all : List Nat) (hall : ∀ r ∈ members, r ∈ all) {f : Nat → α → Program κ β}
    {q : Nat → Program κ β} {b : Nat → β}
    (h : Together n all (fun r => if r ∈ members then f r (a r) else q r) b) :
    Together n all (fun r => if r ∈ members then (p r).bind (f r) else q r) b := by
  intro γ next others
  have h₁ := hp γ (fun r x => (f r x).bind (next r))
    fun r => if r ∈ all then (q r).bind (next r) else others r
  have h₂ := h γ next others
  have hsplit : ∀ x y : Nat → Program κ β, (fun r => if r ∈ all then
      (if r ∈ members then x r else y r).bind (next r) else others r) = fun r =>
      if r ∈ members then (x r).bind (next r) else
        if r ∈ all then (y r).bind (next r) else others r := by
    intro x y
    funext r
    by_cases hr : r ∈ members
    · simp [hr, hall r hr]
    · simp [hr]
  rw [hsplit] at h₂ ⊢
  simp only [Program.bind_assoc]
  exact h₁.trans h₂

/-- What all ranks do together is what their world yields. -/
theorem yields {p : Nat → Program κ α} {a : Nat → α}
    (h : Together n (List.range n) p a) :
    (World.start ((List.range n).map p)).Yields ((List.range n).map a) := by
  refine yields_of_reaches ?_
  have := h α (fun _ => .done) (fun r => p r)
  simp only [Program.bind_done, ite_self] at this
  rw [ofRanks_congr (p := fun r => if r ∈ List.range n then _ else _)
    (q := fun r => .done (a r)) fun r hr => if_pos (List.mem_range.2 hr)] at this
  simpa only [ofRanks, start, List.map_map, Function.comp_def] using this

/-- What the members do together is what they yield in a world where the other ranks do
    nothing. -/
theorem membersYield {p : Nat → Program κ α} {a : Nat → α} (h : Together n members p a) :
    MembersYield n members p a := by
  intro idle
  refine yields_of_reaches ?_
  have := h α (fun _ => .done) fun r => .done (idle r)
  simp only [Program.bind_done] at this
  simpa only [ofRanks, start, List.map_map, Function.comp_def, apply_ite Program.done] using this

/-- After what all ranks did together, the rest of their programs yields what the whole does. -/
theorem rest_yields {p : Nat → Program κ α} {a : Nat → α} {f : Nat → α → Program κ β}
    {results : List β} (hp : Together n (List.range n) p a)
    (hyields : (World.start ((List.range n).map fun r => (p r).bind (f r))).Yields results) :
    (World.start ((List.range n).map fun r => f r (a r))).Yields results := by
  have hreaches := hp β f fun r => (p r).bind (f r)
  rw [ofRanks_congr (p := fun r => if r ∈ List.range n then _ else _)
      (q := fun r => (p r).bind (f r)) fun r hr => if_pos (List.mem_range.2 hr),
    ofRanks_congr (p := fun r => if r ∈ List.range n then _ else _)
      (q := fun r => f r (a r)) fun r hr => if_pos (List.mem_range.2 hr)] at hreaches
  exact hyields.of_reaches hreaches

end Together

/-! ## Tasks that may fail -/

theorem Proc.ofChecked_bind (x : Checked α) (f : α → Checked β) :
    (ofChecked (x >>= f) : Proc κ β) = ofChecked x >>= fun a => ofChecked (f a) := by
  cases x <;> rfl

namespace Together

variable {t : Nat → Proc κ α} {f : Nat → α → Proc κ β}

/-- A local step is done together. -/
theorem ofChecked (x : Nat → Checked α) :
    Together n members (fun r => (Proc.ofChecked (x r) : Proc κ α).toProgram) x :=
  done x

/-- One task after the other, if the first succeeds on all members. -/
theorem andThen {a : Nat → α} {y : Nat → Checked β}
    (ht : Together n members (fun r => (t r).toProgram) fun r => .ok (a r))
    (hf : Together n members (fun r => (f r (a r)).toProgram) y) :
    Together n members (fun r => (t r >>= f r).toProgram) y :=
  ht.bind hf

/-- Nothing comes after a task that fails on all members. -/
theorem orFail {e : Nat → MeshError}
    (ht : Together n members (fun r => (t r).toProgram) fun r => .error (e r)) :
    Together n members (fun r => (t r >>= f r).toProgram) fun r => .error (e r) :=
  ht.bind (done _)

/-- A local step that succeeds on all members, and then a task. -/
theorem ofCheckedThen {x : Nat → Checked α} {a : Nat → α} {y : Nat → Checked β}
    (hx : ∀ r ∈ members, x r = .ok (a r))
    (hf : Together n members (fun r => (f r (a r)).toProgram) y) :
    Together n members (fun r => (Proc.ofChecked (x r) >>= f r).toProgram) y :=
  ((ofChecked x).congr (fun _ _ => rfl) hx).andThen hf

/-- The results of a task, handed on. -/
theorem mapOk {a : Nat → α} {g : Nat → α → β}
    (ht : Together n members (fun r => (t r).toProgram) fun r => .ok (a r)) :
    Together n members (fun r => (t r >>= fun x => pure (g r x)).toProgram)
      fun r => .ok (g r (a r)) :=
  ht.andThen (done _)

/-- After a task at which all ranks succeed, the rest yields what the whole does. -/
theorem rest_yields_of_ok {a : Nat → α} {results : List (Checked β)}
    (ht : Together n (List.range n) (fun r => (t r).toProgram) fun r => .ok (a r))
    (hyields : (World.start ((List.range n).map fun r => (t r >>= f r).toProgram)).Yields
      results) :
    (World.start ((List.range n).map fun r => (f r (a r)).toProgram)).Yields results :=
  ht.rest_yields (f := fun r => ExceptT.bindCont (f r)) hyields

/-- Ranks that succeed after a local step have passed it. -/
theorem passed_of_yields {x : Nat → Checked α} {b : Nat → β}
    (hyields : (World.start ((List.range n).map fun r =>
      (Proc.ofChecked (x r) >>= f r).toProgram)).Yields ((List.range n).map fun r => .ok (b r)))
    {r : Nat} (hr : r < n) : ∃ a, x r = .ok a := by
  cases hx : x r with
  | ok a => exact ⟨a, rfl⟩
  | error e =>
    have hstop : (Proc.ofChecked (x r) >>= f r).toProgram = .done (.error e) := by
      rw [hx]
      rfl
    have := hyields.result_eq _ (.refl _) r (.error e) (by simp [World.start, hr, hstop])
    simp [hr] at this

/-- What several ranks do together and a single rank does alone. -/
theorem ofSize {shared sole : Nat → Proc κ α} {y : Nat → Checked α} (hn : 0 < n)
    (hshared : 1 < n → Together n (List.range n) (fun r => (shared r).toProgram) y)
    (hsole : n = 1 → (sole 0).toProgram = .done (y 0)) :
    Together n (List.range n) (fun r => (if 1 < n then shared r else sole r).toProgram) y := by
  by_cases hmany : 1 < n
  · simpa only [if_pos hmany] using hshared hmany
  · obtain rfl : n = 1 := by omega
    refine (done y).congr (fun r hr => ?_) fun _ _ => rfl
    obtain rfl : r = 0 := Nat.lt_one_iff.1 (List.mem_range.1 hr)
    rw [if_neg hmany, hsole rfl]

end Together

end SharedMesh
