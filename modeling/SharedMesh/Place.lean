/-!
# Places

Every rank keeps its items in an array of its own. A *place* is the rank and the
index at which one item is stored; it names a copy of a mesh entity, the target of
a message, or the slot a point moves to.

Places are ordered by rank, then by index (`Place.le`). The order is total, so a
sorted list of distinct places does not depend on how it was collected.
-/

namespace SharedMesh

/-- Where one item is stored: a rank, and an index in that rank's array. -/
structure Place where
  rank : Nat
  index : Nat
deriving DecidableEq, Repr, Inhabited

namespace Place

/-- The order of places: by rank, then by index. -/
def le (a b : Place) : Bool :=
  a.rank < b.rank || (a.rank == b.rank && a.index ≤ b.index)

instance : Min Place where
  min a b := if a.le b then a else b

/-- The first of some places, if there are any. -/
def first? (places : List Place) : Option Place :=
  places.min?

/-- The places of `n` items that `rank` holds, in order of index. -/
def own (rank n : Nat) : List Place :=
  (List.range n).map (⟨rank, ·⟩)

/-- A place as error messages show it. -/
def text (p : Place) : String :=
  s!"Remote \x7b rank: {p.rank}, index: {p.index} \x7d"

@[simp] theorem length_own (rank n : Nat) : (own rank n).length = n := by simp [own]

theorem le_iff {a b : Place} :
    a.le b = true ↔ a.rank < b.rank ∨ a.rank = b.rank ∧ a.index ≤ b.index := by
  simp [le]

theorem le_total (a b : Place) : (a.le b || b.le a) = true := by
  simp only [Bool.or_eq_true, le_iff]; omega

theorem le_trans {a b c : Place} (hab : a.le b = true) (hbc : b.le c = true) :
    a.le c = true := by
  simp only [le_iff] at *; omega

theorem le_antisymm {a b : Place} (hab : a.le b = true) (hba : b.le a = true) : a = b := by
  simp only [le_iff] at *
  cases a; cases b; simp only [Place.mk.injEq] at *; omega

end Place

end SharedMesh
