import Mathlib.Data.Nat.Find
import SharedMesh.Proofs.Collective.Gather

/-!
# Failures are collective

A task of all ranks goes through *stages*. At each of them every rank checks something by
itself, and then tells the others whether it passed. So the ranks go on together, or stop
together: at the first stage that some rank fails, the ranks that fail it report one of the
faults they find, and the others name the first of these ranks (`FailsTogether`).

A rank may check many items at a stage, and find faults in several of them. It is then free in
which it reports, as items need not be checked one after another.

`Staged` tasks are put together from their parts: tasks at which all ranks succeed
(`Staged.after`) and checks that they make together (`Staged.allPass`).
-/

namespace SharedMesh

variable {κ α β : Type} {n : Nat}

/-! ## Stages -/

/-- A check that every rank makes by itself. -/
structure Stage where
  /-- What the check is about. -/
  what : Subject
  /-- The faults that each rank finds. A rank without faults passes. -/
  faults : Nat → List MeshError

/-- The stage at which rank `r` makes the check `check r`. -/
def Stage.of (what : Subject) (check : Nat → Checked α) : Stage :=
  ⟨what, fun r => (check r).faults⟩

/-- No rank finds anything wrong. -/
def Stage.Passed (n : Nat) (s : Stage) : Prop := ∀ r < n, s.faults r = []

theorem Stage.passed_of {what : Subject} {check : Nat → Checked α} {a : Nat → α}
    (h : ∀ r < n, check r = .ok (a r)) : (Stage.of what check).Passed n := fun r hr =>
  (check r).reports_faults.eq_nil_iff.2 ⟨_, h r hr⟩

/-- The results of `n` ranks are all good or all bad, as the stages have it. -/
structure FailsTogether (n : Nat) (stages : List Stage) (results : Nat → Checked α) : Prop where
  ok_or_error : (∀ r < n, ∃ a, results r = .ok a) ∨ ∀ r < n, ∃ e, results r = .error e
  /-- If all stages are passed, all ranks succeed. -/
  ok : (∀ s ∈ stages, s.Passed n) → ∀ r < n, ∃ a, results r = .ok a
  /-- At the first stage that is not passed, a rank that finds faults reports one of them, and
      the others name the first rank that does. -/
  error : ∀ (before after : List Stage) (s : Stage) (first : Nat), stages = before ++ s :: after →
    (∀ t ∈ before, t.Passed n) → first < n → s.faults first ≠ [] →
      (∀ r < first, s.faults r = []) → ∀ r < n, ∃ e, results r = .error e ∧
        (e ∈ s.faults r ∨ s.faults r = [] ∧ e = .disagreement s.what first 1 0)

namespace FailsTogether

variable {stage : Stage} {stages : List Stage} {results : Nat → Checked α}

/-- Ranks that need no checks succeed. -/
theorem nil {a : Nat → α} : FailsTogether n [] fun r => .ok (a r) where
  ok_or_error := .inl fun r _ => ⟨a r, rfl⟩
  ok _ r _ := ⟨a r, rfl⟩
  error before after s _ h := by simp at h

/-- A stage that is passed changes nothing. -/
theorem of_passed (hstage : stage.Passed n) (h : FailsTogether n stages results) :
    FailsTogether n (stage :: stages) results where
  ok_or_error := h.ok_or_error
  ok hpassed := h.ok fun s hs => hpassed s (List.mem_cons_of_mem _ hs)
  error before after s first hsplit hbefore hfirst hfault hleast := by
    cases before with
    | nil =>
      obtain ⟨rfl, _⟩ := List.cons.inj hsplit
      exact absurd (hstage first hfirst) hfault
    | cons t before =>
      obtain ⟨_, hsplit⟩ := List.cons.inj hsplit
      exact h.error before after s first hsplit
        (fun u hu => hbefore u (List.mem_cons_of_mem _ hu)) hfirst hfault hleast

theorem map {g : Nat → α → β} (h : FailsTogether n stages results) :
    FailsTogether n stages fun r => g r <$> results r where
  ok_or_error := h.ok_or_error.imp
    (fun hok r hr => by obtain ⟨a, ha⟩ := hok r hr; exact ⟨g r a, by rw [ha]; rfl⟩)
    fun herror r hr => by obtain ⟨e, he⟩ := herror r hr; exact ⟨e, by rw [he]; rfl⟩
  ok hpassed r hr := by
    obtain ⟨a, ha⟩ := h.ok hpassed r hr
    exact ⟨g r a, by rw [ha]; rfl⟩
  error before after s first hsplit hbefore hfirst hfault hleast r hr := by
    obtain ⟨e, he, hfaults⟩ := h.error before after s first hsplit hbefore hfirst hfault hleast r hr
    exact ⟨e, by rw [he]; rfl, hfaults⟩

end FailsTogether

/-- Of the stages that are not passed one is the first, and so is one of the ranks there. -/
theorem exists_first_failure {stages : List Stage} (h : ¬ ∀ s ∈ stages, s.Passed n) :
    ∃ before after s first, stages = before ++ s :: after ∧ (∀ t ∈ before, t.Passed n) ∧
      first < n ∧ s.faults first ≠ [] ∧ ∀ r < first, s.faults r = [] := by
  induction stages with
  | nil => simp at h
  | cons s stages ih =>
    by_cases hs : s.Passed n
    · rw [List.forall_mem_cons, and_iff_right hs] at h
      obtain ⟨before, after, t, first, rfl, hbefore, hfirst⟩ := ih h
      exact ⟨s :: before, after, t, first, rfl, List.forall_mem_cons.2 ⟨hs, hbefore⟩, hfirst⟩
    · simp only [Stage.Passed, not_forall] at hs
      have hs : ∃ r, r < n ∧ s.faults r ≠ [] := by simpa using hs
      obtain ⟨hfirst, hfault⟩ := Nat.find_spec hs
      refine ⟨[], stages, s, Nat.find hs, rfl, by simp, hfirst, hfault, fun r hr => ?_⟩
      have := Nat.find_min hs hr
      simpa [hr.trans hfirst] using this

/-- Whoever fails reports a fault found at a stage, or that others found one. -/
theorem FailsTogether.of_error {stages : List Stage} {results : Nat → Checked α}
    (h : FailsTogether n stages results) {r : Nat} (hr : r < n) {e : MeshError}
    (he : results r = .error e) :
    ∃ s ∈ stages, e ∈ s.faults r ∨ ∃ first < n, e = .disagreement s.what first 1 0 := by
  by_cases hpassed : ∀ s ∈ stages, s.Passed n
  · obtain ⟨a, ha⟩ := h.ok hpassed r hr
    rw [ha] at he
    cases he
  · obtain ⟨before, after, s, first, rfl, hbefore, hfirst, hfault, hleast⟩ :=
      exists_first_failure hpassed
    obtain ⟨e', he', hfaults⟩ := h.error before after s first rfl hbefore hfirst hfault hleast r hr
    cases he.symm.trans he'
    exact ⟨s, List.mem_append_right _ List.mem_cons_self,
      hfaults.imp id fun hothers => ⟨first, hfirst, hothers.2⟩⟩

/-- If a check is not passed, the first rank that fails it is named by those that pass. -/
theorem agreed_eq_error_of_first (what : Subject) {check : Nat → Checked α} {first : Nat}
    (hfirst : first < n) {e : MeshError} (he : check first = .error e)
    (hleast : ∀ r < first, ∃ a, check r = .ok a) {r : Nat} {a : α} (hr : check r = .ok a) :
    agreed n what check r = .error (.disagreement what first 1 0) := by
  have hfind : ((List.range n).map fun s => (check s).toBool.toNat).idxOf? 0 = some first := by
    rw [List.idxOf?, List.findIdx?_eq_some_iff_getElem]
    refine ⟨by simpa using hfirst, by simp [he, Except.toBool], fun s hs => ?_⟩
    obtain ⟨a, ha⟩ := hleast s hs
    simp [ha, Except.toBool]
  rw [agreed, hr, hfind]
  rfl

/-- At a stage that is not passed, all ranks stop. -/
theorem FailsTogether.of_agreed {stage : Stage} {check : Nat → Checked β}
    (hreports : ∀ r < n, (check r).Reports (stage.faults r)) {e : Nat → MeshError}
    {stages : List Stage} {s : Nat} (hs : s < n) (hfault : stage.faults s ≠ [])
    (he : ∀ r < n, agreed n stage.what check r = .error (e r)) :
    FailsTogether n (stage :: stages) fun r => (.error (e r) : Checked α) where
  ok_or_error := .inr fun r _ => ⟨e r, rfl⟩
  ok hpassed := absurd (hpassed _ List.mem_cons_self s hs) hfault
  error before after t first hsplit hbefore hfirst hfault' hleast r hr := by
    cases before with
    | nil =>
      obtain ⟨rfl, _⟩ := List.cons.inj hsplit
      refine ⟨e r, rfl, ?_⟩
      cases hcheck : check r with
      | error own =>
        -- the rank reports a fault of its own
        have hown := hreports r hr
        rw [hcheck] at hown
        cases (agreed_of_error hcheck).symm.trans (he r hr)
        exact .inl hown
      | ok a =>
        obtain ⟨e', he'⟩ := (hreports first hfirst).ne_nil_iff.1 hfault'
        have hnamed := agreed_eq_error_of_first stage.what hfirst he' (fun r hr =>
          (hreports r (hr.trans hfirst)).eq_nil_iff.1 (hleast r hr)) hcheck
        exact .inr ⟨(hreports r hr).eq_nil_iff.2 ⟨a, hcheck⟩,
          Except.error.inj ((he r hr).symm.trans hnamed)⟩
    | cons t before =>
      obtain ⟨rfl, _⟩ := List.cons.inj hsplit
      exact absurd (hbefore _ List.mem_cons_self s hs) hfault

/-! ## Staged tasks -/

/-- All ranks come to an end together, and fail together. -/
def Staged (n : Nat) (stages : List Stage) (p : Nat → Program κ (Checked α)) : Prop :=
  ∃ results, Together n (List.range n) p results ∧ FailsTogether n stages results

namespace Staged

variable {stages : List Stage} {p q : Nat → Program κ (Checked α)} {t : Nat → Proc κ α}
  {f : Nat → α → Proc κ β}

/-- Tasks that end with the same results. -/
theorem imp (h : Staged n stages p)
    (himp : ∀ results, Together n (List.range n) p results → Together n (List.range n) q results) :
    Staged n stages q := by
  obtain ⟨results, htogether, hfails⟩ := h
  exact ⟨results, himp results htogether, hfails⟩

theorem congr (h : Staged n stages p) (hp : ∀ r < n, p r = q r) : Staged n stages q :=
  h.imp fun _ ht => ht.congr (fun r hr => hp r (List.mem_range.1 hr)) fun _ _ => rfl

/-- Without ranks there is nothing to fail. -/
theorem ofNone (stages : List Stage) (p : Nat → Program κ (Checked α)) : Staged 0 stages p :=
  ⟨fun _ => .error (.breach .noRoom), fun _ _ _ => .refl _, .inl (by simp), by simp, by simp⟩

/-- What succeeds on all ranks needs no stages. -/
theorem ok {a : Nat → α} (h : Together n (List.range n) p fun r => .ok (a r)) : Staged n [] p :=
  ⟨_, h, .nil⟩

/-- A task at which all ranks succeed, and then a staged one. -/
theorem after {a : Nat → α}
    (ht : Together n (List.range n) (fun r => (t r).toProgram) fun r => .ok (a r))
    (hf : Staged n stages fun r => (f r (a r)).toProgram) :
    Staged n stages fun r => (t r >>= f r).toProgram :=
  hf.imp fun _ => ht.andThen

/-- The results of a staged task, handed on. -/
theorem mapOk {g : Nat → α → β} (h : Staged n stages fun r => (t r).toProgram) :
    Staged n stages fun r => (t r >>= fun x => pure (g r x)).toProgram := by
  obtain ⟨results, htogether, hfails⟩ := h
  refine ⟨_, htogether.bind ?_, hfails.map (g := g)⟩
  refine (Together.done fun r => g r <$> results r).congr (fun r _ => ?_) fun _ _ => rfl
  cases results r <;> rfl

/-- A check that all ranks make together, and then a staged task. -/
theorem allPass [Alphabet κ] [LawfulAlphabet κ] (stage : Stage) {check : Nat → Checked α}
    (hreports : ∀ r < n, (check r).Reports (stage.faults r))
    (h : ∀ a : Nat → α, (∀ r < n, check r = .ok (a r)) →
      Staged n stages fun r => (f r (a r)).toProgram) :
    Staged n (stage :: stages)
      fun r => (allPass (Seat.of r n) stage.what (check r) >>= f r).toProgram := by
  by_cases hpassed : stage.Passed n
  · have hok : ∀ r < n, ∃ a, check r = .ok a := fun r hr =>
      (hreports r hr).eq_nil_iff.1 (hpassed r hr)
    rcases Nat.eq_zero_or_pos n with rfl | hn
    · exact .ofNone _ _
    · obtain ⟨fallback, _⟩ := hok 0 hn
      have : Nonempty α := ⟨fallback⟩
      choose! a ha using hok
      obtain ⟨results, htogether, hfails⟩ := h a ha
      exact ⟨results, Together.allPassThen ha htogether, hfails.of_passed hpassed⟩
  · -- some rank finds something wrong
    simp only [Stage.Passed, not_forall] at hpassed
    obtain ⟨s, hs, hfault⟩ := hpassed
    obtain ⟨e, hcheck⟩ := (hreports s hs).ne_nil_iff.1 hfault
    obtain ⟨e, hagreed, hfail⟩ :=
      Together.allPassFails (κ := κ) (β := β) stage.what check hs hcheck
    exact ⟨_, hfail f, .of_agreed hreports hs hfault fun r _ => hagreed r⟩

end Staged

end SharedMesh
