import SharedMesh.Proofs.Network.Interleaving
import SharedMesh.Proofs.Sorting

/-!
# What a program may return

A rank sees nothing of the others but the messages it gets. Whatever these are, its result is at
the end of one of the paths through its program (`Program.MayReturn`). So what holds at the end of
all paths holds of the rank in every world: in each interleaving (`mayReturn_of_reaches`), in the
play, in which every rank comes to a result (`exists_run_getElem?`), and without a network
(`mayReturn_alone`).

A program that may return errors only refuses what its rank was given (`Program.Refuses`), and
then the rank fails whatever the others do (`Program.Refuses.fails`). In a sequence of tasks it is
enough that one of them refuses.
-/

namespace SharedMesh

variable {κ α β : Type}

namespace Program

/-- The result is at the end of some path, with any messages received on the way. -/
inductive MayReturn : Program κ α → α → Prop
  | done (a : α) : MayReturn (.done a) a
  | send {peer : Nat} {tag : UInt16} {body : List κ} {next : Program κ α} {a : α} :
      MayReturn next a → MayReturn (.send peer tag body next) a
  | recv {peer room : Nat} {tag : UInt16} {next : Option (List κ) → Program κ α} {a : α}
      (body : Option (List κ)) : MayReturn (next body) a → MayReturn (.recv peer tag room next) a

theorem mayReturn_alone (p : Program κ α) : p.MayReturn p.alone := by
  induction p with
  | done a => exact .done a
  | send _ _ _ _ ih => exact .send ih
  | recv _ _ _ _ ih => exact .recv none (ih none)

/-- What a program may return after some messages it may return. -/
theorem MayReturn.of_below {p q : Program κ α} {a : α} (hq : Below q p) (h : q.MayReturn a) :
    p.MayReturn a := by
  induction hq with
  | single hchild =>
    cases hchild with
    | send => exact .send h
    | recv => exact .recv _ h
  | tail _ hchild ih =>
    cases hchild with
    | send => exact .send ih
    | recv => exact .recv _ ih

theorem mayReturn_bind {p : Program κ α} {f : α → Program κ β} {b : β} :
    (p.bind f).MayReturn b ↔ ∃ a, p.MayReturn a ∧ (f a).MayReturn b := by
  constructor
  · intro h
    induction p with
    | done a => exact ⟨a, .done a, h⟩
    | send peer tag body next ih =>
      cases h with
      | send h =>
        obtain ⟨a, ha, hb⟩ := ih h
        exact ⟨a, .send ha, hb⟩
    | recv peer tag room next ih =>
      cases h with
      | recv body h =>
        obtain ⟨a, ha, hb⟩ := ih body h
        exact ⟨a, .recv body ha, hb⟩
  · rintro ⟨a, ha, hb⟩
    induction ha with
    | done => exact hb
    | send _ ih => exact .send (ih hb)
    | recv body _ ih => exact .recv body (ih hb)

end Program

/-! ## In a world -/

/-- Programs that get shorter may return less. -/
theorem OneBelow.mayReturn {ps qs : List (Program κ α)} (h : OneBelow qs ps) {rank : Nat}
    {p : Program κ α} (hp : ps[rank]? = some p) :
    ∃ q, qs[rank]? = some q ∧ ∀ a, q.MayReturn a → p.MayReturn a := by
  induction h generalizing rank with
  | head hbelow =>
    cases rank with
    | zero =>
      cases hp
      exact ⟨_, rfl, fun _ => .of_below hbelow⟩
    | succ rank => exact ⟨p, hp, fun _ => id⟩
  | tail _ ih =>
    cases rank with
    | zero => exact ⟨p, hp, fun _ => id⟩
    | succ rank => exact ih hp

namespace World

variable {w v : World κ α} {rank : Nat} {p : Program κ α}

theorem Reaches.mayReturn (h : Reaches w v) (hp : w.ranks[rank]? = some p) :
    ∃ q, v.ranks[rank]? = some q ∧ ∀ a, q.MayReturn a → p.MayReturn a := by
  induction h with
  | refl => exact ⟨p, hp, fun _ => id⟩
  | step _ hstep ih =>
    obtain ⟨q, hq, hpq⟩ := ih
    obtain ⟨q', hq', hqq'⟩ := hstep.oneBelow.mayReturn hq
    exact ⟨q', hq', fun a ha => hpq a (hqq' a ha)⟩

/-- A rank that is done has a result that its program may return. -/
theorem mayReturn_of_reaches (h : Reaches w v) (hp : w.ranks[rank]? = some p) {a : α}
    (ha : v.ranks[rank]? = some (.done a)) : p.MayReturn a := by
  obtain ⟨q, hq, hpq⟩ := h.mayReturn hp
  rw [ha, Option.some.injEq] at hq
  exact hpq a (hq ▸ .done a)

theorem giveUp?_of_giveUpFirst? {hopeless : Nat → Bool} {ps : List (Program κ α)}
    (h : giveUpFirst? hopeless ps = none) : ∀ p ∈ ps, p.giveUp? hopeless = none := by
  induction ps with
  | nil => exact fun _ hp => nomatch hp
  | cons p ps ih =>
    rw [giveUpFirst?] at h
    split at h
    · cases h
    · next hp => exact List.forall_mem_cons.2 ⟨hp, ih (Option.map_eq_none_iff.1 h)⟩

/-- As long as a rank is not done, there is a turn. -/
theorem isOver_of_turn? (h : w.turn? = none) : w.IsOver := by
  intro p hp
  rw [turn?] at h
  split at h
  · cases h
  · next hmove =>
    split at h
    · cases h
    · cases p with
      | done a => exact ⟨a, rfl⟩
      | send peer tag body next =>
        obtain ⟨i, hi⟩ := List.mem_iff_getElem?.1 hp
        cases move?_eq_none_of_moveFirst? hmove hi
      | recv peer tag room next =>
        cases giveUp?_of_giveUpFirst? (Option.map_eq_none_iff.1 h) _ hp

/-- In the play of a world, every rank comes to a result that its program may return. -/
theorem exists_finish_getElem? (w : World κ α) {rank : Nat} {p : Program κ α}
    (hp : w.ranks[rank]? = some p) :
    ∃ a, w.finish.ranks[rank]? = some (.done a) ∧ p.MayReturn a := by
  fun_induction World.finish w generalizing p with
  | case1 w v hv ih =>
    obtain ⟨q, hq, hpq⟩ := (oneBelow_of_turn? hv).mayReturn hp
    obtain ⟨a, ha, hqa⟩ := ih hq
    exact ⟨a, ha, hpq a hqa⟩
  | case2 w hv =>
    obtain ⟨a, rfl⟩ := isOver_of_turn? hv p (List.mem_of_getElem? hp)
    exact ⟨a, hp, .done a⟩

theorem isOver_finish (w : World κ α) : w.finish.IsOver := by
  fun_induction World.finish w with
  | case1 w v hv ih => exact ih
  | case2 w hv => exact isOver_of_turn? hv

theorem exists_run_getElem? {programs : List (Program κ α)} (hp : programs[rank]? = some p) :
    ∃ a, (run programs)[rank]? = some a ∧ p.MayReturn a := by
  obtain ⟨a, ha, hpa⟩ := exists_finish_getElem? (start programs) hp
  refine ⟨a, ?_, hpa⟩
  rw [run, getElem?_filterMap fun q hq => ?_, ha]
  · rfl
  · obtain ⟨b, rfl⟩ := isOver_finish _ q hq
    rfl

end World

/-! ## Refusing -/

/-- All that the program may return are errors. -/
def Program.Refuses (p : Program κ (Checked α)) : Prop := ∀ a, ¬p.MayReturn (.ok a)

namespace Proc

theorem refuses_of_error (e : MeshError) :
    (ofChecked (.error e) : Proc κ α).toProgram.Refuses := fun _ h => nomatch h

/-- What a sequence of two tasks may return. -/
theorem mayReturn_bind {t : Proc κ α} {f : α → Proc κ β} {b : β}
    (h : (t >>= f).toProgram.MayReturn (.ok b)) :
    ∃ a, t.toProgram.MayReturn (.ok a) ∧ (f a).toProgram.MayReturn (.ok b) := by
  obtain ⟨outcome, houtcome, hb⟩ := Program.mayReturn_bind.1 h
  cases outcome with
  | ok a => exact ⟨a, houtcome, hb⟩
  | error e => cases hb

/-- Nothing comes after a task that refuses. -/
theorem refuses_bind {t : Proc κ α} (ht : t.toProgram.Refuses) (f : α → Proc κ β) :
    (t >>= f).toProgram.Refuses := fun _ h => by
  obtain ⟨a, ha, _⟩ := mayReturn_bind h
  exact ht a ha

/-- What comes after a task may refuse, whatever the task returns. -/
theorem refuses_andThen (t : Proc κ α) {f : α → Proc κ β} (hf : ∀ a, (f a).toProgram.Refuses) :
    (t >>= f).toProgram.Refuses := fun b h => by
  obtain ⟨a, _, hb⟩ := mayReturn_bind h
  exact hf a b hb

end Proc

/-- A rank that runs the program comes to nothing but an error: without a network, in the play of
    any world, and, if it is done, in any interleaving. -/
structure Program.Fails (p : Program κ (Checked α)) : Prop where
  alone : ∃ e, p.alone = .error e
  run {programs : List (Program κ (Checked α))} {rank : Nat} (hp : programs[rank]? = some p) :
    ∃ e, (World.run programs)[rank]? = some (.error e)
  interleaved {w v : World κ (Checked α)} {rank : Nat} (hw : w.Reaches v)
    (hp : w.ranks[rank]? = some p) {a : Checked α} (ha : v.ranks[rank]? = some (.done a)) :
    ∃ e, a = .error e

/-- What may not return anything but errors fails, whatever the other ranks do. -/
theorem Program.Refuses.fails {p : Program κ (Checked α)} (h : p.Refuses) : p.Fails := by
  have herror : ∀ a, p.MayReturn a → ∃ e, a = .error e := fun a ha => by
    cases a with
    | ok a => exact absurd ha (h a)
    | error e => exact ⟨e, rfl⟩
  refine ⟨herror _ p.mayReturn_alone, fun hp => ?_, fun hw hp a ha => ?_⟩
  · obtain ⟨a, ha, hpa⟩ := World.exists_run_getElem? hp
    obtain ⟨e, rfl⟩ := herror a hpa
    exact ⟨e, ha⟩
  · exact herror a (World.mayReturn_of_reaches hw hp ha)

end SharedMesh
