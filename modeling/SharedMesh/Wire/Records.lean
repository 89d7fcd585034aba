import SharedMesh.Scalar.Binary64
import SharedMesh.Wire.Layout

/-!
# Records

What moves between ranks besides plain numbers: a place (`PlaceRecord`), and a
weighted point with the place it came from (`PointRecord`). A place takes sixteen
bytes: eight for the index, four for the rank and four of padding, which are kept
as they are read.
-/

namespace SharedMesh

/-- A place in a message. Ranks take four bytes. -/
structure PlaceRecord where
  index : UInt64
  rank : UInt32
  padding : UInt32
deriving DecidableEq, Repr, Inhabited

namespace PlaceRecord

/-- The record of a place. -/
def ofPlace (p : Place) : PlaceRecord := ⟨UInt64.ofNat p.index, UInt32.ofNat p.rank, 0⟩

/-- The place in a record. -/
def toPlace (r : PlaceRecord) : Place := ⟨r.rank.toNat, r.index.toNat⟩

theorem toPlace_ofPlace {p : Place} (hrank : p.rank < UInt32.size)
    (hindex : p.index < UInt64.size) : (ofPlace p).toPlace = p := by
  rw [toPlace, ofPlace, UInt32.toNat_ofNat', UInt64.toNat_ofNat', Nat.mod_eq_of_lt hrank,
    Nat.mod_eq_of_lt hindex]

/-- The three numbers of a record, in the order in which they are written. -/
def parts (r : PlaceRecord) : UInt64 × UInt32 × UInt32 := (r.index, r.rank, r.padding)

/-- The record of three numbers. -/
def ofParts (t : UInt64 × UInt32 × UInt32) : PlaceRecord := ⟨t.1, t.2.1, t.2.2⟩

end PlaceRecord

/-- A point with its mass, and the place from which it set out. -/
structure PointRecord (α : Type) where
  position : Vec3 α
  mass : α
  origin : PlaceRecord
deriving DecidableEq, Repr

namespace PointRecord

variable {α : Type}

/-- The parts of a record, in the order in which they are written. -/
def parts (r : PointRecord α) : α × α × α × α × PlaceRecord :=
  (r.position.x, r.position.y, r.position.z, r.mass, r.origin)

/-- The record of its parts. -/
def ofParts (t : α × α × α × α × PlaceRecord) : PointRecord α :=
  ⟨⟨t.1, t.2.1, t.2.2.1⟩, t.2.2.2.1, t.2.2.2.2⟩

end PointRecord

section Instances

variable {κ : Type} [Alphabet κ]

instance : Layout κ PlaceRecord := Layout.via PlaceRecord.parts PlaceRecord.ofParts

instance [LawfulAlphabet κ] : LawfulLayout κ PlaceRecord := LawfulLayout.via fun _ => rfl

/-- A floating-point number is written as its bits. -/
instance : Layout κ Binary64 := Layout.via Binary64.bits Binary64.mk

instance [LawfulAlphabet κ] : LawfulLayout κ Binary64 := LawfulLayout.via fun _ => rfl

/-- Floating-point numbers as words, for what moves words only. -/
def Binary64.toWords (xs : List Binary64) : List UInt64 := xs.map Binary64.bits

/-- The floating-point numbers in some words. -/
def Binary64.ofWords (words : List UInt64) : List Binary64 := words.map Binary64.mk

variable {α : Type} [Layout κ α]

instance : Layout κ (PointRecord α) := Layout.via PointRecord.parts PointRecord.ofParts

instance [LawfulAlphabet κ] [LawfulLayout κ α] : LawfulLayout κ (PointRecord α) :=
  LawfulLayout.via fun _ => rfl

end Instances

end SharedMesh
