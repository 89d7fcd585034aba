import SharedMesh.Bisection.Cut
import SharedMesh.Proofs.Collective.InStep

/-!
# The members of a group find one cut

A cut depends on the points of all members of a group. Written down without the messages
(`cutOf`), it takes their points from all of them; and this is the cut that every member
finds (`cutGroup_inStep`). The members search for the plane in step (`searchPlane_inStep`):
what they compare are sums over the group, so all of them go the same way at every step,
whatever the operations on scalars yield. The calls that they make on the way can be told
from the cut (`cutCalls`): there is one for every plane that was tried.
-/

namespace SharedMesh

variable {κ α : Type} [Scalar α]

/-! ## Moments -/

/-- Sums have as many positions as what is added to them. -/
theorem length_foldl_addEach {β : Type} {width : Nat} {f : β → List α} {xs : List β}
    (h : ∀ x ∈ xs, (f x).length = width) {sums : List α} (hsums : sums.length = width) :
    (xs.foldl (fun sums x => Scalar.addEach sums (f x)) sums).length = width := by
  induction xs generalizing sums with
  | nil => exact hsums
  | cons x xs ih =>
    obtain ⟨hx, hxs⟩ := List.forall_mem_cons.1 h
    exact ih hxs (by simp [Scalar.addEach, hsums, hx])

theorem length_firstMoments (points : List (Point α)) : (firstMoments points).length = 4 := by
  rw [firstMoments]
  apply length_foldl_addEach
  · exact fun _ _ => rfl
  · exact List.length_replicate

theorem length_secondMoments (centroid : Vec3 α) (points : List (Point α)) :
    (secondMoments centroid points).length = 6 := by
  rw [secondMoments]
  apply length_foldl_addEach
  · exact fun _ _ => rfl
  · exact List.length_replicate

/-! ## The cut of a group -/

/-- The outcome of a search, if the mass below each plane is known. -/
def planeOf (below : α → α) (target allowed : α) (steps : Nat) (low high : α) (s : Search α) :
    Search α :=
  searchPlane (m := Id) below target allowed steps low high s

/-- One step of a search. -/
theorem planeOf_succ (below : α → α) (target allowed : α) (steps : Nat) (low high : α)
    (s : Search α) : planeOf below target allowed (steps + 1) low high s =
      let plane := middle low high
      let error := Scalar.abs (below plane - target)
      let s' := s.record plane error
      if Scalar.le plane low || Scalar.le high plane then s
      else if Scalar.le error allowed then { s' with converged := true }
      else if Scalar.lt (below plane) target then
        planeOf below target allowed steps plane high s'
      else planeOf below target allowed steps low plane s' :=
  rfl

section

variable [AxisSolver α]

/-- How the points of a group are spread, by the moments of all members. -/
def inertiaOf (g : Group) (points : Nat → List (Point α)) : Inertia α :=
  let first := reduced (· + ·) (fun r => firstMoments (points r)) g.ranks
  let entry (i : Nat) : α := first.getD i Scalar.zero
  let mass := entry 0
  if Scalar.le mass Scalar.zero then ⟨Vec3.firstAxis, Vec3.zero, Scalar.zero⟩
  else
    let centroid := (Vec3.mk (entry 1) (entry 2) (entry 3)).divide mass
    let second := reduced (· + ·) (fun r => secondMoments centroid (points r)) g.ranks
    ⟨(AxisSolver.principalAxis (tensorOf second)).oriented, centroid, mass⟩

/-- The mass of a group that is not above a plane. -/
def massBelowOf (g : Group) (inertia : Inertia α) (points : Nat → List (Point α)) (plane : α) : α :=
  (reduced (· + ·) (fun r => [inertia.massBelow (points r) plane]) g.ranks).headD Scalar.zero

/-- The plane that divides the points of a group in the proportion of its halves. -/
def cutOf (g : Group) (tolerance : α) (steps : Nat) (points : Nat → List (Point α)) : Cut α :=
  let inertia := inertiaOf g points
  let distances (r : Nat) : List α := (points r).map inertia.distance
  let low := (reduced Scalar.min (fun r => [Scalar.least (distances r)]) g.ranks).headD
    Scalar.zero
  let high := (reduced Scalar.max (fun r => [Scalar.greatest (distances r)]) g.ranks).headD
    Scalar.zero
  let members : α := Scalar.ofNat g.size
  let target := inertia.mass * Scalar.ofNat g.low.size / members
  let allowed := tolerance * inertia.mass / members
  if Scalar.le inertia.mass Scalar.zero || !Scalar.isFinite low then
    ⟨inertia, low, high, target, allowed, none⟩
  else
    ⟨inertia, low, high, target, allowed, some (planeOf (massBelowOf g inertia points) target
      allowed steps low high (Search.fresh high))⟩

/-- The calls by which a group finds its axis. Without mass there is none to find. -/
def inertiaCalls (g : Group) (points : Nat → List (Point α)) : List UInt16 :=
  let first := reduced (· + ·) (fun r => firstMoments (points r)) g.ranks
  momentsTag :: if Scalar.le (first.getD 0 Scalar.zero) Scalar.zero then [] else [momentsTag]

/-- The planes that were tried for a cut, the last one first. -/
def Cut.tried (c : Cut α) : List α := c.search.elim [] Search.tried

/-- The calls by which a group finds its cut: a call for each plane that is tried. -/
def cutCalls (g : Group) (tolerance : α) (steps : Nat) (points : Nat → List (Point α)) :
    List UInt16 :=
  inertiaCalls g points ++ boundsTag :: boundsTag ::
    List.replicate (cutOf g tolerance steps points).tried.length planeTag

end

/-! ## All members -/

section

variable {n : Nat} {g : Group}

omit [Scalar α] in
/-- One more plane is tried, with one more call. -/
theorem tryPlane_inStep {massBelow : Nat → α → Proc κ α} {below : α → α} {plane : α}
    (h : InStep n g (fun r => (massBelow r plane).toProgram) (fun _ => .ok (below plane))
      [planeTag]) {tried : Nat} {rest : Nat → α → Proc κ (Search α)} {result : Search α}
    (hrest : ∃ tries, result.tried.length = tried + 1 + tries ∧
      InStep n g (fun r => (rest r (below plane)).toProgram) (fun _ => .ok result)
        (List.replicate tries planeTag)) :
    ∃ tries, result.tried.length = tried + tries ∧
      InStep n g (fun r => (massBelow r plane >>= rest r).toProgram) (fun _ => .ok result)
        (List.replicate tries planeTag) := by
  obtain ⟨tries, htried, hstep⟩ := hrest
  exact ⟨tries + 1, by omega, h.andThen hstep⟩

/-- The members search in step, with one call for every plane that is tried. -/
theorem searchPlane_inStep {massBelow : Nat → α → Proc κ α} {below : α → α}
    (h : ∀ plane, InStep n g (fun r => (massBelow r plane).toProgram)
      (fun _ => .ok (below plane)) [planeTag]) (target allowed : α) (steps : Nat) (low high : α)
    (s : Search α) : ∃ tries,
      (planeOf below target allowed steps low high s).tried.length = s.tried.length + tries ∧
      InStep n g (fun r => (searchPlane (massBelow r) target allowed steps low high s).toProgram)
        (fun _ => .ok (planeOf below target allowed steps low high s))
        (List.replicate tries planeTag) := by
  induction steps generalizing low high s with
  | zero => exact ⟨0, rfl, .done _⟩
  | succ steps ih =>
    have htried : ∀ error, (s.record (middle low high) error).tried.length = s.tried.length + 1 :=
      fun error => by
        rw [Search.record]
        split <;> rfl
    simp only [searchPlane, planeOf_succ]
    split
    · -- the interval cannot be halved any more
      exact ⟨0, rfl, .done _⟩
    refine tryPlane_inStep (h (middle low high)) ?_
    split
    · exact ⟨0, htried _, .done _⟩
    split
    · obtain ⟨tries, hlength, hstep⟩ := ih (middle low high) high (s.record _ _)
      exact ⟨tries, hlength.trans (congrArg (· + tries) (htried _)), hstep⟩
    · obtain ⟨tries, hlength, hstep⟩ := ih low (middle low high) (s.record _ _)
      exact ⟨tries, hlength.trans (congrArg (· + tries) (htried _)), hstep⟩

variable [Alphabet κ] [LawfulAlphabet κ] [Layout κ α] [LawfulLayout κ α] [AxisSolver α]
  (hg : g.ranks.Nodup) (hn : ∀ r ∈ g.ranks, r < n) (points : Nat → List (Point α))

include hg hn

/-- The members find their axis in step. -/
theorem findInertia_inStep :
    InStep n g
      (fun r => (findInertia (Seat.of r n) g (points r) : Proc κ (Inertia α)).toProgram)
      (fun _ => .ok (inertiaOf g points)) (inertiaCalls g points) := by
  refine (InStep.reduceScalars hg hn (· + ·) (by omega) (by omega)
    fun r _ => length_firstMoments (points r)).callThen ?_
  simp only [inertiaOf]
  split
  · exact .done _
  · exact (InStep.reduceScalars hg hn (· + ·) (by omega) (by omega)
      fun r _ => length_secondMoments _ (points r)).mapOk

/-- The members find their cut in step. -/
theorem cutGroup_inStep (tolerance : α) (steps : Nat) :
    InStep n g
      (fun r => (cutGroup (Seat.of r n) g tolerance steps (points r) : Proc κ (Cut α)).toProgram)
      (fun _ => .ok (cutOf g tolerance steps points)) (cutCalls g tolerance steps points) := by
  refine (findInertia_inStep hg hn points).andThen ?_
  have hone : ∀ (bound : Nat → α), ∀ r ∈ g.ranks, [bound r].length = 1 := fun _ _ _ => rfl
  refine (InStep.reduceScalars hg hn Scalar.min (by omega) (by omega) (hone _)).callThen ?_
  refine (InStep.reduceScalars hg hn Scalar.max (by omega) (by omega) (hone _)).callThen ?_
  simp only [cutOf]
  split
  · exact .done _
  · have hbelow : ∀ plane, InStep n g (fun r => (do
        let sums ← sumScalars (Seat.of r n) g planeTag
          [(inertiaOf g points).massBelow (points r) plane]
        return sums.headD Scalar.zero : Proc κ α).toProgram)
        (fun _ => .ok (massBelowOf g (inertiaOf g points) points plane)) [planeTag] :=
      fun plane => (InStep.reduceScalars hg hn (· + ·) (by omega) (by omega) (hone _)).mapOk
    obtain ⟨tries, htried, hsearch⟩ := searchPlane_inStep hbelow _ _ steps _ _ (Search.fresh _)
    obtain rfl : _ = tries := htried.trans (Nat.zero_add _)
    exact hsearch.mapOk

end

end SharedMesh
