import SharedMesh.Ownership.Number
import SharedMesh.Proofs.Network.Together

/-!
# Alone

A rank that has no others to talk to swaps its lists with nobody (`swap_silent`). All
collectives are swaps, so everything that it does together with all ranks it does without the
network (`Proc.Silent`), down to finding owners and numbering by them. What ranks are shown to
come to together is then what the single rank comes to at once
(`Proc.Silent.eq_of_together`), whether it sits in a world of its own or has no network.
-/

namespace SharedMesh

variable {κ α β : Type}

/-- The seat of a rank that is alone, in a world of its own or without a network. -/
abbrev Seat.sole (networked : Bool) : Seat := ⟨0, 1, networked⟩

namespace Proc

/-- A local step that succeeds, and then a task. -/
@[simp] theorem ofChecked_ok_bind (a : α) (f : α → Proc κ β) : ofChecked (.ok a) >>= f = f a := rfl

/-- Nothing comes after a local step that fails. -/
@[simp] theorem ofChecked_error_bind (e : MeshError) (f : α → Proc κ β) :
    ofChecked (.error e) >>= f = ofChecked (.error e) := rfl

/-- A task comes to its outcome without the network. -/
def Silent (t : Proc κ α) : Prop := ∃ outcome, t = Proc.ofChecked outcome

namespace Silent

theorem ofChecked (x : Checked α) : (Proc.ofChecked x : Proc κ α).Silent := ⟨x, rfl⟩

theorem pure (a : α) : (Pure.pure a : Proc κ α).Silent := ⟨.ok a, rfl⟩

theorem throw (e : MeshError) : (throw e : Proc κ α).Silent := ⟨.error e, rfl⟩

theorem bind {t : Proc κ α} {f : α → Proc κ β} (ht : t.Silent) (hf : ∀ a, (f a).Silent) :
    (t >>= f).Silent := by
  obtain ⟨outcome, rfl⟩ := ht
  cases outcome with
  | ok a => exact hf a
  | error e => exact .throw e

/-- A check, and then a task. -/
theorem check {p : Prop} [Decidable p] {e : MeshError} {f : PUnit → Proc κ α}
    (hf : ∀ u, (f u).Silent) : (if p then MonadExcept.throw e >>= f else f ⟨⟩).Silent := by
  split
  · exact .bind (.throw e) hf
  · exact hf _

/-- What a single rank comes to together with all ranks is its outcome. -/
theorem eq_of_together {t : Nat → Proc κ α} {x : Nat → Checked α} (ht : (t 0).Silent)
    (h : Together 1 (List.range 1) (fun r => (t r).toProgram) x) : t 0 = Proc.ofChecked (x 0) := by
  obtain ⟨outcome, houtcome⟩ := ht
  have hdone : Together 1 (List.range 1) (fun r => (t r).toProgram) fun _ => outcome :=
    (Together.done fun _ => outcome).congr (fun r hr => by
      obtain rfl : r = 0 := Nat.lt_one_iff.1 (List.mem_range.1 hr)
      rw [houtcome]
      rfl) fun _ _ => rfl
  have hresults := hdone.yields.run_eq.symm.trans h.yields.run_eq
  rw [List.range_one, List.map_singleton, List.map_singleton, List.cons.injEq] at hresults
  rw [houtcome, hresults.1]

end Silent

end Proc

variable [Alphabet κ]

/-! ## Collectives -/

section

variable {networked : Bool}

/-- The single rank is its only peer, and keeps its list. -/
theorem swap_silent {T : Type} [Layout κ T] (tag : UInt16) (lists : List (List T)) :
    (swap (Seat.sole networked) (Group.all (Seat.sole networked)) tag lists :
      Proc κ (List (List T))).Silent :=
  .check fun _ => ⟨_, rfl⟩

theorem gather_silent {T : Type} [Layout κ T] (tag : UInt16) (values : List T) :
    (gather (Seat.sole networked) (Group.all (Seat.sole networked)) tag values :
      Proc κ (List (List T))).Silent :=
  swap_silent tag _

theorem gatherNumbers_silent (tag : UInt16) (value : Nat) :
    (gatherNumbers (Seat.sole networked) (Group.all (Seat.sole networked)) tag value :
      Proc κ (List Nat)).Silent :=
  .bind (.bind (gather_silent tag _) fun _ => .ofChecked _) fun _ => .pure _

theorem maxNumber_silent (tag : UInt16) (value : Nat) :
    (maxNumber (Seat.sole networked) (Group.all (Seat.sole networked)) tag value :
      Proc κ Nat).Silent :=
  .bind (gatherNumbers_silent tag value) fun _ => .pure _

theorem scanNumbers_silent (tag : UInt16) (value : Nat) :
    (scanNumbers (Seat.sole networked) (Group.all (Seat.sole networked)) tag value :
      Proc κ (Nat × Nat)).Silent :=
  .bind (gatherNumbers_silent tag value) fun _ => .bind (.ofChecked _) fun _ => .pure _

theorem gatherWords_silent (value : Nat) :
    (gatherWords (Seat.sole networked) value : Proc κ (List Nat)).Silent :=
  .bind (gather_silent _ _) fun _ => .ofChecked _

theorem allPass_silent (what : Subject) (check : Checked α) :
    (allPass (Seat.sole networked) what check : Proc κ α).Silent := by
  refine .bind (gatherWords_silent _) fun passed => .bind (.ofChecked _) fun value => ?_
  cases passed.idxOf? 0 with
  | some rank => exact .throw _
  | none => exact .pure _

theorem agree_silent (what : Subject) (value : Nat) :
    (agree (Seat.sole networked) what value : Proc κ Unit).Silent := by
  refine .bind (gatherWords_silent _) fun values => ?_
  cases values.zipIdx.find? fun x => x.1 ≠ value with
  | some x => exact .throw _
  | none => exact .pure _

/-! ## Routes -/

namespace Route

theorem plan_silent (targets : List Place) (roots : Nat) :
    (plan (Seat.sole networked) targets roots : Proc κ Route).Silent :=
  .bind (allPass_silent _ _) fun _ => .bind (swap_silent _ _) fun _ =>
    .bind (.ofChecked _) fun _ => .bind (allPass_silent _ _) fun _ =>
      .bind (.ofChecked _) fun _ => .bind (swap_silent _ _) fun _ =>
        .bind (.ofChecked _) fun _ => .bind (.ofChecked _) fun _ => .bind (.ofChecked _) fun _ =>
          .bind (.ofChecked _) fun _ => .bind (.ofChecked _) fun _ => .pure _

theorem carry_silent {T : Type} [Layout κ T] (r : Route) (width : Nat) (data : List T) :
    (r.carry (Seat.sole networked) width data : Proc κ (List T)).Silent := by
  refine .check fun _ => .bind (.ofChecked _) fun _ => ?_
  refine .check fun _ => .bind (swap_silent _ _) fun _ => ?_
  exact .bind (.ofChecked _) fun _ => .bind (.ofChecked _) fun _ => .bind (.ofChecked _) fun _ =>
    .pure _

theorem carryNumbers_silent (r : Route) (width : Nat) (data : List Nat) :
    (r.carryNumbers (Seat.sole networked) width data : Proc κ (List Nat)).Silent :=
  .bind (carry_silent r width _) fun _ => .pure _

theorem carryPlaces_silent (r : Route) (data : List Place) :
    (r.carryPlaces (Seat.sole networked) data : Proc κ (List Place)).Silent :=
  .bind (carry_silent r 1 _) fun _ => .pure _

theorem broadcast_silent {T : Type} [Layout κ T] (r : Route) (width : Nat) (data : List T) :
    (r.broadcast (Seat.sole networked) width data : Proc κ (List T)).Silent :=
  .bind (.ofChecked _) fun _ => carry_silent r width _

end Route

/-! ## Owners and numbers -/

theorem totalNumbers_silent (globals : List Nat) :
    (totalNumbers (Seat.sole networked) globals : Proc κ Nat).Silent :=
  .bind (.ofChecked _) fun _ => .bind (maxNumber_silent _ _) fun _ =>
    .bind (agree_silent _ _) fun _ => .pure _

theorem reportOwners_silent (back : Route) (owners : Checked (List Place)) :
    (reportOwners (Seat.sole networked) back owners : Proc κ (List Place)).Silent :=
  .bind (allPass_silent _ _) fun _ => Route.carryPlaces_silent _ _

theorem settleServed_silent (back : Route) (choose : List Served → Option Place)
    (copies : List Served) :
    (settleServed (Seat.sole networked) back choose copies : Proc κ (List Place)).Silent :=
  .bind (.ofChecked _) fun _ => reportOwners_silent _ _

/-- Derived entities are resolved without the network. -/
theorem resolveCopies_silent (numbers : List Nat) (degree : Nat) (vertices : List Nat)
    (policy : OwnerPolicy) : (resolveCopies (Seat.sole networked) numbers degree vertices policy :
      Proc κ Resolved).Silent :=
  .bind (allPass_silent _ _) fun _ => .bind (totalNumbers_silent _) fun _ =>
    .bind (.ofChecked _) fun _ => .bind (.ofChecked _) fun _ => .bind (.ofChecked _) fun _ =>
      .bind (Route.plan_silent _ _) fun route =>
        .bind (Route.carryNumbers_silent route _ _) fun _ =>
          .bind (settleServed_silent _ _ _) fun _ => .pure _

/-- Numbers find their owners without the network. -/
theorem ownersOfNumbers_silent (globals : List Nat) (wishes : Option (List Nat))
    (policy : OwnerPolicy) : (ownersOfNumbers (Seat.sole networked) globals wishes policy :
      Proc κ (List Place)).Silent := by
  refine .bind (allPass_silent _ _) fun _ => .bind (totalNumbers_silent _) fun _ =>
    .bind (.ofChecked _) fun _ => .bind (.ofChecked _) fun _ => .bind (.ofChecked _) fun _ =>
      .bind (Route.plan_silent _ _) fun route =>
        .bind (Route.carryNumbers_silent route _ _) fun _ => ?_
  cases wishes with
  | none => exact settleServed_silent _ _ _
  | some wishes =>
    exact .bind (Route.carryNumbers_silent route _ _) fun _ => settleServed_silent _ _ _

/-- Owned entities are numbered without the network. -/
theorem numberOwned_silent (owners : List Place) :
    (numberOwned (Seat.sole networked) owners : Proc κ (List Nat)).Silent :=
  .bind (scanNumbers_silent _ _) fun _ => .bind (Route.plan_silent _ _) fun _ =>
    .bind (allPass_silent _ _) fun _ => .bind (Route.broadcast_silent _ _ _) fun _ => .pure _

end

end SharedMesh
