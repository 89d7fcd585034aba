import SharedMesh.Error
import SharedMesh.Record.Rows

/-!
# Layouts

Messages are lists of *cells*, drawn from an alphabet that has room for every byte;
when the library runs, the cells are bytes. A *layout* gives every value of a type
a fixed number of cells: `Layout.encode` writes the value down, `Layout.decode`
reads it back. Lists of values are written one after the other, so their length is
known from the number of cells, and the other way round (`Layout.decodeList`).

Numbers are written byte by byte, the lowest byte first.
-/

namespace SharedMesh

-- Powers are those of core, also beside Mathlib.
attribute [local instance (high)] instPowNat

/-- Cells that can hold bytes. -/
class Alphabet (κ : Type) where
  ofByte : UInt8 → κ
  toByte : κ → UInt8

instance : Alphabet UInt8 where
  ofByte := id
  toByte := id

/-- A fixed-size notation for the values of a type. -/
class Layout (κ T : Type) where
  /-- How many cells a value takes. -/
  size : Nat
  encode : T → List κ
  decode : List κ → T

/-- A layout is lawful if every value takes its cells and is read back. -/
class LawfulLayout (κ T : Type) [Layout κ T] : Prop where
  size_pos : 0 < Layout.size κ T
  length_encode (x : T) : (Layout.encode x : List κ).length = Layout.size κ T
  decode_encode (x : T) : Layout.decode (Layout.encode x : List κ) = x

/-- An alphabet is lawful if every byte is read back from its cell. -/
class LawfulAlphabet (κ : Type) [Alphabet κ] : Prop where
  toByte_ofByte (b : UInt8) : Alphabet.toByte (Alphabet.ofByte b : κ) = b

instance : LawfulAlphabet UInt8 where
  toByte_ofByte _ := rfl

/-! ## Numbers as bytes -/

/-- The lowest `count` bytes of a number, the lowest first. -/
def bytesOf : Nat → Nat → List UInt8
  | 0, _ => []
  | count + 1, n => UInt8.ofNat n :: bytesOf count (n / 256)

/-- The number with the given bytes, the lowest first. -/
def ofBytes : List UInt8 → Nat
  | [] => 0
  | b :: rest => b.toNat + 256 * ofBytes rest

@[simp] theorem length_bytesOf (count n : Nat) : (bytesOf count n).length = count := by
  induction count generalizing n with
  | zero => rfl
  | succ k ih => simp [bytesOf, ih]

/-- The bytes of a number give it back, up to what they cannot hold. -/
theorem ofBytes_bytesOf (count n : Nat) : ofBytes (bytesOf count n) = n % 256 ^ count := by
  induction count generalizing n with
  | zero => simp [bytesOf, ofBytes, Nat.mod_one]
  | succ k ih =>
    have h : 256 ^ (k + 1) = 256 * 256 ^ k := by rw [Nat.pow_succ, Nat.mul_comm]
    rw [bytesOf, ofBytes, ih, UInt8.toNat_ofNat', h, Nat.mod_mul]

section Instances

variable {κ : Type} [Alphabet κ]

/-- The cells of a number of `count` bytes. -/
def numberCells (count n : Nat) : List κ := (bytesOf count n).map Alphabet.ofByte

/-- The number in some cells. -/
def ofNumberCells (cells : List κ) : Nat := ofBytes (cells.map Alphabet.toByte)

instance : Layout κ UInt8 where
  size := 1
  encode x := numberCells 1 x.toNat
  decode cells := UInt8.ofNat (ofNumberCells cells)

instance : Layout κ UInt32 where
  size := 4
  encode x := numberCells 4 x.toNat
  decode cells := UInt32.ofNat (ofNumberCells cells)

instance : Layout κ UInt64 where
  size := 8
  encode x := numberCells 8 x.toNat
  decode cells := UInt64.ofNat (ofNumberCells cells)

@[simp] theorem length_numberCells (count n : Nat) :
    (numberCells count n : List κ).length = count := by
  simp [numberCells]

theorem ofNumberCells_numberCells [LawfulAlphabet κ] (count n : Nat) :
    ofNumberCells (numberCells count n : List κ) = n % 256 ^ count := by
  have h : (numberCells count n : List κ).map Alphabet.toByte = bytesOf count n := by
    simp [numberCells, Function.comp_def, LawfulAlphabet.toByte_ofByte]
  rw [ofNumberCells, h, ofBytes_bytesOf]

instance [LawfulAlphabet κ] : LawfulLayout κ UInt8 where
  size_pos := Nat.succ_pos _
  length_encode x := length_numberCells 1 x.toNat
  decode_encode x := by
    simp [Layout.encode, Layout.decode, ofNumberCells_numberCells]

instance [LawfulAlphabet κ] : LawfulLayout κ UInt32 where
  size_pos := Nat.succ_pos _
  length_encode x := length_numberCells 4 x.toNat
  decode_encode x := by
    simp [Layout.encode, Layout.decode, ofNumberCells_numberCells]

instance [LawfulAlphabet κ] : LawfulLayout κ UInt64 where
  size_pos := Nat.succ_pos _
  length_encode x := length_numberCells 8 x.toNat
  decode_encode x := by
    simp [Layout.encode, Layout.decode, ofNumberCells_numberCells]

end Instances

/-- A pair is written as its first part, then its second. -/
instance {κ S T : Type} [Layout κ S] [Layout κ T] : Layout κ (S × T) where
  size := Layout.size κ S + Layout.size κ T
  encode x := Layout.encode x.1 ++ Layout.encode x.2
  decode cells := (Layout.decode (cells.take (Layout.size κ S)),
    Layout.decode (cells.drop (Layout.size κ S)))

instance {κ S T : Type} [Layout κ S] [Layout κ T] [LawfulLayout κ S] [LawfulLayout κ T] :
    LawfulLayout κ (S × T) where
  size_pos := Nat.add_pos_left (LawfulLayout.size_pos (κ := κ) (T := S)) _
  length_encode x := by
    simp [Layout.encode, Layout.size, LawfulLayout.length_encode]
  decode_encode x := by
    have h : Layout.size κ S = (Layout.encode x.1 : List κ).length :=
      (LawfulLayout.length_encode x.1).symm
    simp only [Layout.encode, Layout.decode, h, List.take_left', List.drop_left',
      LawfulLayout.decode_encode]

/-- A type that can be taken apart into values with a layout is written as those. -/
@[reducible] def Layout.via {κ S T : Type} [Layout κ S] (parts : T → S) (whole : S → T) :
    Layout κ T where
  size := size κ S
  encode x := encode (parts x)
  decode cells := whole (decode cells)

theorem LawfulLayout.via {κ S T : Type} [Layout κ S] [LawfulLayout κ S] {parts : T → S}
    {whole : S → T} (h : ∀ x, whole (parts x) = x) :
    @LawfulLayout κ T (Layout.via parts whole) :=
  @LawfulLayout.mk κ T (Layout.via parts whole) (size_pos (κ := κ) (T := S))
    (fun x => length_encode (parts x))
    (fun x => (congrArg whole (decode_encode (κ := κ) (parts x))).trans (h x))

/-! ## Lists of values -/

namespace Layout

variable {κ T : Type} [Layout κ T]

/-- The cells of some values, one after the other. -/
def encodeList (xs : List T) : List κ := xs.flatMap encode

/-- The `count` values in a message of `neighbor`, which must have exactly their
    cells. -/
def decodeList (neighbor : Nat) (count : Nat) (cells : List κ) : Checked (List T) :=
  let expected := count * size κ T
  if cells.length ≠ expected then
    .error (.transport neighbor (.wrongLength expected cells.length))
  else .ok ((takeRows (size κ T) count cells).map decode)

variable [LawfulLayout κ T]

@[simp] theorem length_encodeList (xs : List T) :
    (encodeList xs : List κ).length = xs.length * size κ T := by
  have hw : ∀ record ∈ xs.map (encode : T → List κ), record.length = size κ T := by
    simp [LawfulLayout.length_encode]
  rw [encodeList, List.flatMap_def, length_flatten_of_width hw, List.length_map]

/-- Values that were written down are read back. -/
theorem decodeList_encodeList (neighbor : Nat) (xs : List T) :
    decodeList neighbor xs.length (encodeList xs : List κ) = .ok xs := by
  have hw : ∀ record ∈ xs.map (encode : T → List κ), record.length = size κ T := by
    simp [LawfulLayout.length_encode]
  have h := takeRows_flatten hw
  rw [List.length_map] at h
  rw [decodeList, if_neg (not_not_intro (length_encodeList xs)), encodeList, List.flatMap_def, h,
    List.map_map]
  simp [Function.comp_def, LawfulLayout.decode_encode]

end Layout

end SharedMesh
