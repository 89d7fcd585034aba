import Mathlib.Algebra.GroupWithZero.Nat
import SharedMesh.Error

/-!
# Checks

What passes the checks of words (`word_eq_ok`) and of room (`checkRoom_eq_ok`), and what comes
of a check that is made of every item of a list: all values if every item passes
(`mapM_eq_ok`), and otherwise the error of an item that fails (`mapM_eq_error`).

A check of many items may be free in which of their faults it reports (`Checked.Reports`).
-/

namespace SharedMesh

variable {α β : Type}

theorem word_eq_ok {n : Nat} (h : n < 2 ^ 64) : word n = .ok n := if_pos h

theorem word_eq_error {n : Nat} (h : 2 ^ 64 ≤ n) : word n = .error (.breach .wordOverflow) :=
  if_neg (Nat.not_lt.2 h)

theorem eq_of_word {n m : Nat} (h : word n = .ok m) : n = m := by
  rw [word] at h
  split at h <;> cases h
  rfl

theorem checkRoom_eq_ok {count width : Nat} (h : count * width < 2 ^ 63) :
    checkRoom count width = .ok () :=
  if_pos h

theorem lt_of_checkRoom {count width : Nat} {u : Unit} (h : checkRoom count width = .ok u) :
    count * width < 2 ^ 63 := by
  rw [checkRoom] at h
  split at h
  · assumption
  · cases h

theorem checkRoom_eq_error {count width : Nat} (h : 2 ^ 63 ≤ count * width) :
    checkRoom count width = .error (.breach .noRoom) :=
  if_neg (Nat.not_lt.2 h)

/-! ## Lists -/

theorem mapM_eq_ok {f : α → Checked β} {g : α → β} {l : List α}
    (h : ∀ x ∈ l, f x = .ok (g x)) : l.mapM f = .ok (l.map g) := by
  induction l with
  | nil => rfl
  | cons x l ih =>
    rw [List.mapM_cons, h x List.mem_cons_self, ih fun y hy => h y (List.mem_cons_of_mem _ hy)]
    rfl

theorem mapM_eq_error {f : α → Checked β} {xs : List α} (h : ∃ x ∈ xs, ∃ e, f x = .error e) :
    ∃ x ∈ xs, ∃ e, f x = .error e ∧ xs.mapM f = .error e := by
  induction xs with
  | nil => obtain ⟨x, hx, _⟩ := h; cases hx
  | cons x xs ih =>
    cases hx : f x with
    | error e => exact ⟨x, List.mem_cons_self, e, hx, by rw [List.mapM_cons, hx]; rfl⟩
    | ok b =>
      obtain ⟨y, hy, e, he⟩ := h
      have hxy : y ≠ x := fun hyx => by rw [hyx, hx] at he; cases he
      obtain ⟨z, hz, e, he, hm⟩ := ih ⟨y, List.mem_of_ne_of_mem hxy hy, e, he⟩
      exact ⟨z, List.mem_cons_of_mem _ hz, e, he, by rw [List.mapM_cons, hx, hm]; rfl⟩

/-- If the list fails, it is because of an item. -/
theorem error_of_mapM {f : α → Checked β} {xs : List α} {e : MeshError}
    (h : xs.mapM f = .error e) : ∃ x ∈ xs, f x = .error e := by
  induction xs with
  | nil => cases h
  | cons x xs ih =>
    rw [List.mapM_cons] at h
    cases hx : f x with
    | error e' =>
      rw [hx] at h
      exact ⟨x, List.mem_cons_self, hx.trans (congrArg Except.error (Except.error.inj h))⟩
    | ok b =>
      rw [hx] at h
      cases hxs : xs.mapM f with
      | ok ys => simp [hxs, bind, Except.bind, pure, Except.pure] at h
      | error e' =>
        rw [hxs] at h
        obtain ⟨y, hy, he⟩ := ih (hxs.trans (congrArg Except.error (Except.error.inj h)))
        exact ⟨y, List.mem_cons_of_mem x hy, he⟩

/-- If the list passes, every item does. -/
theorem ok_of_mapM {f : α → Checked β} {xs : List α} {ys : List β} (h : xs.mapM f = .ok ys) :
    ∀ x ∈ xs, ∃ y, f x = .ok y := by
  intro x hx
  cases hfx : f x with
  | ok y => exact ⟨y, rfl⟩
  | error e =>
    obtain ⟨_, _, _, _, herror⟩ := mapM_eq_error ⟨x, hx, e, hfx⟩
    rw [h] at herror
    cases herror

/-- A step after a check succeeds only if the check does. -/
theorem bind_eq_ok {x : Checked α} {f : α → Checked β} {b : β} (h : x >>= f = .ok b) :
    ∃ a, x = .ok a ∧ f a = .ok b := by
  cases x with
  | error e => cases h
  | ok a => exact ⟨a, rfl, h⟩

/-- How many values come of lists that the items give. -/
theorem length_flatten_of_mapM {f : α → Checked (List β)} {size : α → Nat} {xs : List α}
    {lists : List (List β)} (hf : ∀ x ∈ xs, ∀ list, f x = .ok list → list.length = size x)
    (h : xs.mapM f = .ok lists) : lists.flatten.length = (xs.map size).sum := by
  induction xs generalizing lists with
  | nil => cases h; rfl
  | cons x xs ih =>
    rw [List.mapM_cons] at h
    obtain ⟨first, hfirst, h⟩ := bind_eq_ok h
    obtain ⟨rest, hrest, h⟩ := bind_eq_ok h
    cases h
    rw [List.flatten_cons, List.length_append, hf x List.mem_cons_self first hfirst,
      ih (fun y hy => hf y (List.mem_cons_of_mem _ hy)) hrest, List.map_cons, List.sum_cons]

theorem bind_of_ok {x : Checked α} {a : α} (h : x = .ok a) (f : α → Checked β) :
    (x >>= f) = f a := by
  rw [h]
  rfl

/-- What comes after a step only has to agree on what the step may yield. -/
theorem bind_congr_of_ok {x : Checked α} {f f' : α → Checked β}
    (h : ∀ a, x = .ok a → f a = f' a) : (x >>= f) = (x >>= f') := by
  cases x with
  | error e => rfl
  | ok a => exact h a rfl

theorem forM_eq_ok {f : α → Checked Unit} {xs : List α} (h : ∀ x ∈ xs, f x = .ok ()) :
    xs.forM f = .ok () := by
  induction xs with
  | nil => rfl
  | cons x xs ih =>
    rw [List.forM, h x List.mem_cons_self]
    exact ih fun y hy => h y (List.mem_cons_of_mem _ hy)

/-- Steps that keep to what lets the next one succeed. -/
theorem foldlM_eq_ok {f : β → α → Checked β} {g : β → α → β} {P : β → Prop} {xs : List α}
    (hf : ∀ b, P b → ∀ x ∈ xs, f b x = .ok (g b x)) (hP : ∀ b, P b → ∀ x ∈ xs, P (g b x))
    {b : β} (hb : P b) : xs.foldlM f b = .ok (xs.foldl g b) := by
  induction xs generalizing b with
  | nil => rfl
  | cons x xs ih =>
    rw [List.foldlM_cons, hf b hb x List.mem_cons_self, List.foldl_cons]
    exact ih (fun b hb y hy => hf b hb y (List.mem_cons_of_mem x hy))
      (fun b hb y hy => hP b hb y (List.mem_cons_of_mem x hy)) (hP b hb x List.mem_cons_self)

/-- A step that fails, wherever the steps before it lead. -/
theorem foldlM_eq_error {f : β → α → Checked β} {P : β → Prop} {xs : List α} {x : α} (hx : x ∈ xs)
    (hP : ∀ b, P b → ∀ y b', f b y = .ok b' → P b') (hf : ∀ b, P b → ∃ e, f b x = .error e)
    {b : β} (hb : P b) : ∃ e, xs.foldlM f b = .error e := by
  induction xs generalizing b with
  | nil => cases hx
  | cons y ys ih =>
    rw [List.foldlM_cons]
    cases hy : f b y with
    | error e => exact ⟨e, rfl⟩
    | ok b' =>
      have hne : x ≠ y := fun hxy => by
        obtain ⟨e, he⟩ := hf b hb
        rw [hxy, hy] at he
        cases he
      exact ih (List.mem_of_ne_of_mem hne hx) (hP b hb y b' hy)

theorem mapM_ok_id (xs : List α) : (xs.map (Except.ok : α → Checked α)).mapM id = .ok xs := by
  rw [List.mapM_map]
  exact (mapM_eq_ok fun _ _ => rfl).trans (congrArg _ (List.map_id xs))

/-! ## Faults -/

namespace Checked

/-- What a check finds wrong, if anything. -/
def faults : Checked α → List MeshError
  | .ok _ => []
  | .error e => [e]

variable {x : Checked α} {found : List MeshError}

theorem mem_faults {e : MeshError} : e ∈ x.faults ↔ x = .error e := by
  cases x <;> simp [Checked.faults, eq_comm]

/-- A check passes if there are no faults, and else reports one of them. -/
def Reports (x : Checked α) (found : List MeshError) : Prop :=
  match x with
  | .ok _ => found = []
  | .error e => e ∈ found

theorem reports_faults (x : Checked α) : x.Reports x.faults := by
  cases x <;> simp [Reports, Checked.faults]

theorem Reports.eq_nil_iff (h : x.Reports found) : found = [] ↔ ∃ a, x = .ok a := by
  cases x with
  | ok a => exact ⟨fun _ => ⟨a, rfl⟩, fun _ => h⟩
  | error e => simpa using List.ne_nil_of_mem h

theorem Reports.ne_nil_iff (h : x.Reports found) : found ≠ [] ↔ ∃ e, x = .error e := by
  rw [Ne, h.eq_nil_iff]
  cases x <;> simp

/-- Of the faults of many items one is reported. -/
theorem reports_mapM (f : α → Checked β) (xs : List α) :
    (xs.mapM f).Reports (xs.flatMap fun x => (f x).faults) := by
  cases h : xs.mapM f with
  | ok ys =>
    refine List.flatMap_eq_nil_iff.2 fun x hx => ?_
    exact (f x).reports_faults.eq_nil_iff.2 (ok_of_mapM h x hx)
  | error e =>
    obtain ⟨x, hx, he⟩ := error_of_mapM h
    exact List.mem_flatMap.2 ⟨x, hx, mem_faults.2 he⟩

/-- What cannot fail changes nothing about the faults. -/
theorem Reports.bind {f : α → Checked β} (h : x.Reports found)
    (hf : ∀ a, x = .ok a → ∃ b, f a = .ok b) : (x >>= f).Reports found := by
  cases x with
  | error e => exact h
  | ok a =>
    obtain ⟨b, hb⟩ := hf a rfl
    rw [bind_of_ok rfl, hb]
    exact h

end Checked

end SharedMesh
