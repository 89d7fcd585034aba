import SharedMesh.Scalar.Basic

/-!
# The axes of a symmetric tensor

A symmetric tensor has three axes at right angles; along each it only stretches.
`largestAxis` finds the one with the largest stretch.

* Two reflections make the tensor tridiagonal (`Tridiagonal.ofTensor`): the entry
  between the first and the third axis vanishes.
* Rounds of rotations drive the two entries beside the diagonal to zero
  (`Tridiagonal.settle`). An entry that is negligible beside its neighbours on the
  diagonal counts as zero, so the tensor falls apart into smaller blocks: a block of
  two is solved at once, and a block of three is turned by a shifted sweep.

The tensor is scaled to entries of at most one before, and the stretches are compared
in the first scale, where large ones may overflow and small ones may vanish: of equal
stretches the first axis counts. So the axis of a diagonal tensor is exactly a
coordinate axis.

An undefined entry compares with nothing. It is never negligible, but never stands out
either, so it parts a block from the end and joins it to the start; the rotations carry
it to every axis they touch.
-/

namespace SharedMesh

/-- The distance from one to the next machine number. -/
def machineStep : Float := 1.0 / 4503599627370496.0

/-- One with the sign of the number; undefined if the number is. -/
def unitSign (x : Float) : Float :=
  if x.isNaN then x else if x.toBits.toNat.testBit 63 then -1.0 else 1.0

/-- The absolute value of a number and its sign, by comparison with zero. -/
def signed (x : Float) : Float × Float :=
  if 0.0 ≤ x then (x, 1.0) else (-x, -1.0)

/-- The inner product of two pairs, summed from zero on. -/
def innerPair (u v x y : Float) : Float := 0.0 + u * x + v * y

/-! ## Reflections -/

/-- A reflection in the plane across a direction. It sends a column of two entries to its
    first axis. -/
structure Mirror where
  /-- The direction: of unit length, unless the reflection is idle. -/
  u : Float
  v : Float
  /-- The first entry that the column is sent to. -/
  image : Float
  /-- Whether the column is too short to give a direction. -/
  idle : Bool

namespace Mirror

/-- The reflection that sends a column to its first axis. -/
def ofColumn (x y : Float) : Mirror :=
  let square := innerPair x y x y
  let (size, sign) := signed x
  let length := sign * square.sqrt
  let factor := (square + size * square.sqrt) * 2.0
  let x := x + length
  if factor == 0.0 then ⟨x, y, length, true⟩
  else
    let u := x / factor.sqrt
    let v := y / factor.sqrt
    let norm := (innerPair u v u v).sqrt
    ⟨u / norm, v / norm, -length, false⟩

/-- A symmetric block of two, given by its lower triangle, after the reflection. -/
def reflectBlock (m : Mirror) (a b c : Float) : Float × Float × Float :=
  if m.idle then (a, b, c)
  else
    let p := 2.0 * m.u * a + 2.0 * (0.0 + b * m.v)
    let q := 2.0 * m.u * b + 2.0 * (0.0 + c * m.v)
    let twice := innerPair m.u m.v p q * 2.0
    (twice * m.u * m.u + (-p * m.u + (-m.u * p + a)),
      twice * m.u * m.v + (-p * m.v + (-m.u * q + b)),
      twice * m.v * m.v + (-q * m.v + (-m.v * q + c)))

/-- A column after the reflection, with the sign that makes the image positive. -/
def reflectColumn (m : Mirror) (x y : Float) : Float × Float :=
  let sign := unitSign m.image
  let factor := innerPair m.u m.v x y * (sign * -2.0)
  (factor * m.u + sign * x, factor * m.v + sign * y)

end Mirror

/-! ## Rotations -/

/-- A rotation in a plane, by its cosine and its sine. -/
structure Rotation where
  c : Float
  s : Float

namespace Rotation

/-- The rotation that sends a pair to its first axis, and where it is sent. -/
def clearing (x y : Float) : Rotation × Float :=
  let (size, sign) := signed x
  let norm := (size * size + y * y).sqrt
  (⟨size / norm, -y / (sign * norm)⟩, sign * norm)

/-- The rotation along a pair, if the pair has a length. -/
def along (x y : Float) : Option Rotation :=
  let (size, sign) := signed x
  let norm := (size * size + y * y).sqrt
  if machineStep < norm then some ⟨size / norm, y / (sign * norm)⟩ else none

/-- The rotation back. -/
def inverse (r : Rotation) : Rotation := ⟨r.c, -r.s⟩

/-- Two axes turned in their common plane. -/
def turn (r : Rotation) (v w : Vec3 Float) : Vec3 Float × Vec3 Float :=
  (⟨v.x * r.c + r.s * w.x, v.y * r.c + r.s * w.y, v.z * r.c + r.s * w.z⟩,
   ⟨-r.s * v.x + w.x * r.c, -r.s * v.y + w.y * r.c, -r.s * v.z + w.z * r.c⟩)

/-- A symmetric block of two after the rotation: its diagonal `p` and `q`, and the entry
    `m` beside it. -/
def turnBlock (r : Rotation) (p m q : Float) : Float × Float × Float :=
  let cc := r.c * r.c
  let ss := r.s * r.s
  let cs := r.c * r.s
  let b := cs * 2.0 * m
  (cc * p + ss * q - b, cs * (p - q) + m * (cc - ss), ss * p + cc * q + b)

end Rotation

/-! ## Tridiagonal tensors -/

/-- A tridiagonal symmetric tensor with the axes it is given along. -/
structure Tridiagonal where
  xx : Float
  xy : Float
  yy : Float
  yz : Float
  zz : Float
  first : Vec3 Float
  second : Vec3 Float
  third : Vec3 Float

/-- A block of a tridiagonal tensor that is left to be solved. -/
inductive Block
  | none
  | firstTwo
  | lastTwo
  | all

/-- Whether an entry beside the diagonal stands out against its neighbours on it. -/
def standsOut (p m q : Float) : Bool :=
  machineStep * (q.abs + p.abs) < m.abs

/-- Whether an entry beside the diagonal is nothing against its neighbours on it. -/
def isNegligible (p m q : Float) : Bool :=
  m == 0.0 || m.abs ≤ machineStep * (q.abs + p.abs)

namespace Tridiagonal

/-- The tridiagonal form of a tensor. -/
def ofTensor (a : Sym3 Float) : Tridiagonal :=
  let m := Mirror.ofColumn a.xy a.xz
  let (yy, yz, zz) := m.reflectBlock a.yy a.yz a.zz
  let n := Mirror.ofColumn yz 0.0
  let (zz, _, _) := n.reflectBlock zz 0.0 0.0
  let axis (x y z : Float) : Vec3 Float :=
    let (y, z) := m.reflectColumn y z
    ⟨x, y, z⟩
  { xx := a.xx, xy := m.image.abs, yy, yz := n.image.abs, zz
    first := axis 1.0 0.0 0.0
    second := axis 0.0 1.0 (n.reflectColumn 0.0 0.0).1
    third := axis 0.0 0.0 (n.reflectColumn 1.0 0.0).1 }

/-- The last block that is left within the first two axes. -/
def blockOfTwo (t : Tridiagonal) : Block :=
  if standsOut t.xx t.xy t.yy then .firstTwo else .none

/-- The last block that is left. -/
def block (t : Tridiagonal) : Block :=
  if standsOut t.yy t.yz t.zz then
    if isNegligible t.xx t.xy t.yy then .lastTwo else .all
  else t.blockOfTwo

/-- What a sweep shifts the diagonal by: the stretch of the last two axes that is closer
    to the last diagonal entry. -/
def shift (t : Tridiagonal) : Float :=
  let square := t.yz * t.yz
  if square == 0.0 then t.zz
  else
    let d := (t.yy - t.zz) * 0.5
    t.zz - square / (d + unitSign d * (d * d + square).sqrt)

/-- The first rotation of a sweep, and what it leaves between the first and the third
    axis. -/
def turnFirst (t : Tridiagonal) (x y : Float) : Tridiagonal × Float :=
  let r := (Rotation.clearing x y).1
  let (xx, xy, yy) := r.turnBlock t.xx t.xy t.yy
  let (first, second) := r.inverse.turn t.first t.second
  ({ t with xx, xy, yy, yz := t.yz * r.c, first, second }, -r.s * t.yz)

/-- The second rotation of a sweep, which clears what the first one left. -/
def turnLast (t : Tridiagonal) (left : Float) : Tridiagonal :=
  if left == 0.0 then t
  else
    let (r, norm) := Rotation.clearing t.xy left
    let (yy, yz, zz) := r.turnBlock t.yy t.yz t.zz
    let (second, third) := r.inverse.turn t.second t.third
    { t with xy := norm, yy, yz, zz, second, third }

/-- A sweep of rotations over all axes. -/
def sweep (t : Tridiagonal) : Tridiagonal :=
  let (turned, left) := t.turnFirst (t.xx - t.shift) t.xy
  turned.turnLast left

/-- The stretches of a symmetric block of two, the larger one first, and the rotation to
    its axes. -/
def solveBlock (p m q : Float) : Float × Float × Option Rotation :=
  let half := (p - q) * 0.5
  let spread := (m * m + half * half).sqrt
  let mean := (p + q) * 0.5
  (mean + spread, mean - spread, Rotation.along (mean + spread - q) m)

/-- The tensor after its first two axes have been solved. -/
def solveFirstTwo (t : Tridiagonal) : Tridiagonal :=
  let (xx, yy, r) := solveBlock t.xx t.xy t.yy
  let (first, second) := (r.map (·.turn t.first t.second)).getD (t.first, t.second)
  { t with xx, yy, first, second }

/-- The tensor after its last two axes have been solved. -/
def solveLastTwo (t : Tridiagonal) : Tridiagonal :=
  let (yy, zz, r) := solveBlock t.yy t.yz t.zz
  let (second, third) := (r.map (·.turn t.second t.third)).getD (t.second, t.third)
  { t with yy, zz, second, third }

/-- The last block that is left after a sweep. What is negligible then is not looked at
    again. -/
def blockAfterSweep (t : Tridiagonal) : Block :=
  if t.yz.abs ≤ machineStep * (t.yy.abs + t.zz.abs) then t.blockOfTwo else t.block

/-- Solves the block that is left, in at most so many rounds. A block of three takes
    sweeps until it falls apart; a block of two is the last one. -/
def settle : Nat → Block → Tridiagonal → Tridiagonal
  | 0, _, t => t
  | _ + 1, .none, t => t
  | _ + 1, .firstTwo, t => t.solveFirstTwo
  | _ + 1, .lastTwo, t => t.solveLastTwo
  | rounds + 1, .all, t => settle rounds t.sweep.blockAfterSweep t.sweep

/-- The axis with the largest stretch, the first of equal ones. The stretches are compared
    after scaling. -/
def largest (t : Tridiagonal) (scale : Float) : Vec3 Float :=
  let x := t.xx * scale
  let y := t.yy * scale
  let z := t.zz * scale
  let (value, axis) := if x < y then (y, t.second) else (x, t.first)
  if value < z then t.third else axis

end Tridiagonal

/-- The largest absolute value in a tensor, row by row. After an undefined entry the search
    begins anew, so only the entries behind the last one count; an undefined last entry is
    the result itself. -/
def largestEntry (a : Sym3 Float) : Float :=
  [a.xx, a.xy, a.xz, a.xy, a.yy, a.yz, a.xz, a.yz, a.zz].foldl
    (fun m x => if x.abs ≤ m then m else x.abs) 0.0

/-- A unit vector along which the tensor is largest. -/
def largestAxis (a : Sym3 Float) : Vec3 Float :=
  let scale := largestEntry a
  let unit : Sym3 Float :=
    if scale == 0.0 then a
    else ⟨a.xx / scale, a.xy / scale, a.xz / scale, a.yy / scale, a.yz / scale, a.zz / scale⟩
  let t := Tridiagonal.ofTensor unit
  (t.settle 1000 t.block).largest scale

end SharedMesh
