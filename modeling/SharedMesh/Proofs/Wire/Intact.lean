import Mathlib.Algebra.GroupWithZero.Nat
import SharedMesh.Bisection.Cut

/-!
# Records arrive intact

Values that were written down are read back, as layouts are lawful. The layouts of the library
are also *tight*: they leave nothing out and have no cell to spare, so whatever cells are read,
the value read is written in just these cells (`TightLayout`). For a list of values this needs no
more than that the cells are as many as the values take (`Layout.encodeList_of_decodeList`).

So counts, places and weighted points travel intact (`records_intact`), bit for bit in both
directions: numbers with their lowest byte first, and the padding of places as it is.
-/

namespace SharedMesh

-- Powers are those of core, also beside Mathlib.
attribute [local instance (high)] instPowNat

/-! ## Numbers as bytes -/

theorem ofBytes_lt (bytes : List UInt8) : ofBytes bytes < 256 ^ bytes.length := by
  induction bytes with
  | nil => exact Nat.one_pos
  | cons b rest ih =>
    have hb : b.toNat < 256 := b.toNat_lt
    rw [ofBytes, List.length_cons, Nat.pow_succ]
    omega

/-- Bytes are those of their number. -/
theorem bytesOf_ofBytes (bytes : List UInt8) : bytesOf bytes.length (ofBytes bytes) = bytes := by
  induction bytes with
  | nil => rfl
  | cons b rest ih =>
    have hb : b.toNat < 256 := b.toNat_lt
    have hfirst : UInt8.ofNat (b.toNat + 256 * ofBytes rest) = b := by
      rw [← UInt8.toNat_inj, UInt8.toNat_ofNat']
      omega
    have hrest : (b.toNat + 256 * ofBytes rest) / 256 = ofBytes rest := by omega
    rw [List.length_cons, ofBytes, bytesOf, hfirst, hrest, ih]

/-- The lowest bytes of a number do not depend on what is above them. -/
theorem bytesOf_mod (count n : Nat) : bytesOf count (n % 256 ^ count) = bytesOf count n := by
  have h := bytesOf_ofBytes (bytesOf count n)
  rwa [length_bytesOf, ofBytes_bytesOf] at h

/-! ## Tight layouts -/

/-- An alphabet is tight if every cell is that of a byte. -/
class TightAlphabet (κ : Type) [Alphabet κ] : Prop where
  ofByte_toByte (c : κ) : Alphabet.ofByte (Alphabet.toByte c) = c

instance : TightAlphabet UInt8 where
  ofByte_toByte _ := rfl

/-- A layout is tight if a value is written in the cells from which it is read. -/
class TightLayout (κ T : Type) [Layout κ T] : Prop where
  encode_decode (cells : List κ) (h : cells.length = Layout.size κ T) :
    Layout.encode (Layout.decode cells : T) = cells

section Instances

variable {κ : Type} [Alphabet κ]

theorem ofNumberCells_lt (cells : List κ) : ofNumberCells cells < 256 ^ cells.length := by
  have h := ofBytes_lt (cells.map Alphabet.toByte)
  rwa [List.length_map] at h

variable [TightAlphabet κ]

/-- Cells are those of their number. -/
theorem numberCells_ofNumberCells (cells : List κ) :
    numberCells cells.length (ofNumberCells cells) = cells := by
  have h := bytesOf_ofBytes (cells.map Alphabet.toByte)
  rw [List.length_map] at h
  rw [numberCells, ofNumberCells, h, List.map_map]
  exact (List.map_congr_left fun c _ => TightAlphabet.ofByte_toByte c).trans (List.map_id _)

instance : TightLayout κ UInt32 where
  encode_decode cells h := by
    have hlt := ofNumberCells_lt cells
    have hcells := numberCells_ofNumberCells cells
    rw [h] at hlt hcells
    exact (congrArg (numberCells 4) (UInt32.toNat_ofNat_of_lt hlt)).trans hcells

instance : TightLayout κ UInt64 where
  encode_decode cells h := by
    have hlt := ofNumberCells_lt cells
    have hcells := numberCells_ofNumberCells cells
    rw [h] at hlt hcells
    exact (congrArg (numberCells 8) (UInt64.toNat_ofNat_of_lt hlt)).trans hcells

end Instances

instance {κ S T : Type} [Layout κ S] [Layout κ T] [TightLayout κ S] [TightLayout κ T] :
    TightLayout κ (S × T) where
  encode_decode cells h := by
    change cells.length = Layout.size κ S + Layout.size κ T at h
    have hfirst : (cells.take (Layout.size κ S)).length = Layout.size κ S :=
      List.length_take_of_le (by omega)
    have hsecond : (cells.drop (Layout.size κ S)).length = Layout.size κ T := by
      rw [List.length_drop]
      omega
    calc Layout.encode (Layout.decode cells : S × T)
        = Layout.encode (Layout.decode (cells.take (Layout.size κ S)) : S) ++
            Layout.encode (Layout.decode (cells.drop (Layout.size κ S)) : T) := rfl
      _ = cells.take (Layout.size κ S) ++ cells.drop (Layout.size κ S) := by
        rw [TightLayout.encode_decode _ hfirst, TightLayout.encode_decode _ hsecond]
      _ = cells := List.take_append_drop ..

theorem TightLayout.via {κ S T : Type} [Layout κ S] [TightLayout κ S] {parts : T → S}
    {whole : S → T} (h : ∀ x, parts (whole x) = x) :
    @TightLayout κ T (Layout.via parts whole) :=
  @TightLayout.mk κ T (Layout.via parts whole) fun cells hcells =>
    (congrArg Layout.encode (h _)).trans (encode_decode (T := S) cells hcells)

section Records

variable {κ : Type} [Alphabet κ] [TightAlphabet κ]

instance : TightLayout κ PlaceRecord := TightLayout.via fun _ => rfl

instance : TightLayout κ Binary64 := TightLayout.via fun _ => rfl

instance {α : Type} [Layout κ α] [TightLayout κ α] : TightLayout κ (PointRecord α) :=
  TightLayout.via fun _ => rfl

end Records

/-! ## Lists of values -/

namespace Layout

variable {κ T : Type} [Layout κ T] {neighbor count : Nat} {cells : List κ} {xs : List T}

theorem decodeList_eq_error (h : cells.length ≠ count * size κ T) :
    (decodeList neighbor count cells : Checked (List T)) =
      .error (.transport neighbor (.wrongLength (count * size κ T) cells.length)) :=
  if_pos h

theorem decodeList_eq_ok (h : cells.length = count * size κ T) :
    (decodeList neighbor count cells : Checked (List T)) =
      .ok ((takeRows (size κ T) count cells).map decode) :=
  if_neg (not_not_intro h)

theorem length_of_decodeList (h : decodeList neighbor count cells = .ok xs) :
    cells.length = count * size κ T := by
  refine Decidable.byContradiction fun hne => ?_
  cases (decodeList_eq_error hne).symm.trans h

/-- Values are written in the cells from which they are read. -/
theorem encodeList_of_decodeList [LawfulLayout κ T] [TightLayout κ T]
    (h : decodeList neighbor count cells = .ok xs) : encodeList xs = cells := by
  have hlength := length_of_decodeList h
  have hwidth : ∀ row ∈ takeRows (size κ T) count cells, row.length = size κ T := by
    have hpos : 0 < size κ T := LawfulLayout.size_pos
    have hrows := length_of_mem_rows hpos hlength
    rwa [rows, hlength, Nat.mul_div_cancel _ hpos] at hrows
  have hxs := (decodeList_eq_ok hlength).symm.trans h
  cases hxs
  rw [encodeList, List.flatMap_map, List.flatMap_def]
  have hrows : (takeRows (size κ T) count cells).map (fun row => encode (decode row : T)) =
      takeRows (size κ T) count cells :=
    (List.map_congr_left fun row hrow => TightLayout.encode_decode row (hwidth row hrow)).trans
      (List.map_id _)
  rw [hrows, flatten_takeRows _ _ _ hlength]

end Layout

/-! ## Counts, places and points -/

/-- The bytes of a place: its index, its rank, and the padding. -/
def placeBytes (p : Place) : List UInt8 := bytesOf 8 p.index ++ bytesOf 4 p.rank ++ bytesOf 4 0

/-- The bytes of a weighted point: its coordinates, its mass, and where it set out. -/
def pointBytes (p : Point Binary64) : List UInt8 :=
  [p.position.x, p.position.y, p.position.z, p.mass].flatMap (fun x => bytesOf 8 x.bits.toNat) ++
    placeBytes p.origin

theorem numberCells_eq (count n : Nat) : (numberCells count n : List UInt8) = bytesOf count n :=
  List.map_id _

theorem encode_ofNat64 (n : Nat) :
    (Layout.encode (UInt64.ofNat n) : List UInt8) = bytesOf 8 n := by
  calc (Layout.encode (UInt64.ofNat n) : List UInt8)
      = bytesOf 8 (UInt64.ofNat n).toNat := numberCells_eq ..
    _ = bytesOf 8 (n % 256 ^ 8) := congrArg (bytesOf 8) UInt64.toNat_ofNat'
    _ = bytesOf 8 n := bytesOf_mod 8 n

theorem encode_ofNat32 (n : Nat) :
    (Layout.encode (UInt32.ofNat n) : List UInt8) = bytesOf 4 n := by
  calc (Layout.encode (UInt32.ofNat n) : List UInt8)
      = bytesOf 4 (UInt32.ofNat n).toNat := numberCells_eq ..
    _ = bytesOf 4 (n % 256 ^ 4) := congrArg (bytesOf 4) UInt32.toNat_ofNat'
    _ = bytesOf 4 n := bytesOf_mod 4 n

theorem encode_ofPlace (p : Place) :
    (Layout.encode (PlaceRecord.ofPlace p) : List UInt8) = placeBytes p := by
  calc (Layout.encode (PlaceRecord.ofPlace p) : List UInt8)
      = Layout.encode (UInt64.ofNat p.index) ++ (Layout.encode (UInt32.ofNat p.rank) ++
          Layout.encode (0 : UInt32)) := rfl
    _ = bytesOf 8 p.index ++ (bytesOf 4 p.rank ++ bytesOf 4 0) := by
      rw [encode_ofNat64, encode_ofNat32]
      rfl
    _ = placeBytes p := (List.append_assoc ..).symm

theorem encode_toRecord (p : Point Binary64) :
    (Layout.encode p.toRecord : List UInt8) = pointBytes p := by
  have hnumber : ∀ x : Binary64, (Layout.encode x : List UInt8) = bytesOf 8 x.bits.toNat :=
    fun x => numberCells_eq ..
  calc (Layout.encode p.toRecord : List UInt8)
      = Layout.encode p.position.x ++ (Layout.encode p.position.y ++ (Layout.encode p.position.z ++
          (Layout.encode p.mass ++ Layout.encode (PlaceRecord.ofPlace p.origin)))) := rfl
    _ = pointBytes p := by
      simp only [hnumber, encode_ofPlace, pointBytes, List.flatMap_cons, List.flatMap_nil,
        List.append_assoc, List.append_nil]

/-- Values that are written as records travel intact. Each is written in its bytes, and is read
    back if it fits in a record. Whatever bytes are read, the records read are written in them. -/
structure Intact {T R : Type} [Layout UInt8 R] (write : T → R) (read : R → T) (fits : T → Prop)
    (bytes : T → List UInt8) (size : Nat) : Prop where
  encode_write : ∀ x, (Layout.encode (write x) : List UInt8) = bytes x
  length_bytes : ∀ x, (bytes x).length = size
  read_write : ∀ x, fits x → read (write x) = x
  decode_written : ∀ neighbor (xs : List T),
    Layout.decodeList neighbor xs.length (Layout.encodeList (xs.map write) : List UInt8) =
      .ok (xs.map write)
  /-- Just the bytes that are as many as the records take are read. -/
  decodes_iff : ∀ neighbor count (cells : List UInt8), count * size < 2 ^ 64 →
    ((∃ records : List R, Layout.decodeList neighbor count cells = .ok records) ↔
      cells.length = count * size)
  encode_decoded : ∀ neighbor count (cells : List UInt8) (records : List R),
    count * size < 2 ^ 64 → Layout.decodeList neighbor count cells = .ok records →
      records.length = count ∧ Layout.encodeList records = cells

/-- Records of a lawful and tight layout carry their values intact. -/
theorem intact_of_tight {T R : Type} [Layout UInt8 R] [LawfulLayout UInt8 R] [TightLayout UInt8 R]
    {write : T → R} {read : R → T} {fits : T → Prop} {bytes : T → List UInt8} {size : Nat}
    (hsize : Layout.size UInt8 R = size)
    (hbytes : ∀ x, (Layout.encode (write x) : List UInt8) = bytes x)
    (hread : ∀ x, fits x → read (write x) = x) : Intact write read fits bytes size := by
  subst hsize
  constructor
  case encode_write => exact hbytes
  case length_bytes =>
    intro x
    rw [← hbytes, LawfulLayout.length_encode]
  case read_write => exact hread
  case decode_written =>
    intro neighbor xs
    have h := Layout.decodeList_encodeList (κ := UInt8) neighbor (xs.map write)
    rwa [List.length_map] at h
  case decodes_iff =>
    intro neighbor count cells _
    exact ⟨fun ⟨_, h⟩ => Layout.length_of_decodeList h, fun h => ⟨_, Layout.decodeList_eq_ok h⟩⟩
  case encode_decoded =>
    intro neighbor count cells records _ h
    refine ⟨?_, Layout.encodeList_of_decodeList h⟩
    cases (Layout.decodeList_eq_ok (Layout.length_of_decodeList h)).symm.trans h
    rw [List.length_map, length_takeRows]

/-- Counts, places and weighted points travel intact, each in records of one size: counts that are
    words, and whatever has a rank of four bytes and an index that is a word. Floating-point numbers
    are kept bit for bit, undefined ones and signed zeros too. -/
theorem records_intact :
    Intact UInt64.ofNat UInt64.toNat (fun n => n < 2 ^ 64) (bytesOf 8) 8 ∧
    Intact PlaceRecord.ofPlace PlaceRecord.toPlace
      (fun p => p.rank < 2 ^ 32 ∧ p.index < 2 ^ 64) placeBytes 16 ∧
    Intact Point.toRecord Point.ofRecord
      (fun p : Point Binary64 => p.origin.rank < 2 ^ 32 ∧ p.origin.index < 2 ^ 64) pointBytes 48 ∧
    (∀ xs, Binary64.ofWords (Binary64.toWords xs) = xs ∧
      (Layout.encodeList (Binary64.toWords xs) : List UInt8) = Layout.encodeList xs) ∧
    ∀ words, Binary64.toWords (Binary64.ofWords words) = words := by
  refine ⟨?_, ?_, ?_, fun xs => ⟨?_, List.flatMap_map ..⟩, fun words => ?_⟩
  · exact intact_of_tight rfl encode_ofNat64 fun n hn => UInt64.toNat_ofNat_of_lt hn
  · exact intact_of_tight rfl encode_ofPlace fun p hp => PlaceRecord.toPlace_ofPlace hp.1 hp.2
  · exact intact_of_tight rfl encode_toRecord fun p hp => Point.ofRecord_toRecord hp.1 hp.2
  · rw [Binary64.ofWords, Binary64.toWords, List.map_map]
    exact List.map_id xs
  · rw [Binary64.ofWords, Binary64.toWords, List.map_map]
    exact List.map_id words

end SharedMesh
