import SharedMesh.Place

/-!
# Errors

Everything that can go wrong on a rank, by cause. A `MeshError` says what was
found; its wording is `MeshError.message`, in one place. Every error is fatal for
the collective that raised it: the rank leaves, and the other ranks either meet
the same check or learn of it (`Subject` names the check they agree on).

A `Breach` stands apart: it is no verdict on the input but a step that has no
value at all, such as a division by zero, or an array too large to be addressed
(`checkRoom`).
-/

namespace SharedMesh

/-- What a length, an agreement or a slice is about. -/
inductive Subject
  | sendBuffers
  | reductionValues
  | reductionWidth
  | canonicalCodes
  | curveCoordinates
  | routeWidth
  | routeData
  | rootData
  | routeRanks
  | routeRoots
  | vertexTotal
  | derivedRecords
  | duplicateOwners
  | ownRanks
  | ownerReferences
  | bisectionCoordinates
  | slicedRecords
  | slicedCoordinates
  | sliceLayout
  | elements
  | vertices
  | named (text : String)
deriving DecidableEq, Repr

/-- The words for a subject. -/
def Subject.text : Subject → String
  | sendBuffers => "per-peer send buffers"
  | reductionValues => "reduction contribution"
  | reductionWidth => "reduction width"
  | canonicalCodes => "canonical codes"
  | curveCoordinates => "hilbert coordinates"
  | routeWidth => "exchange width"
  | routeData => "exchange payload"
  | rootData => "per-root data"
  | routeRanks => "exchange destinations"
  | routeRoots => "exchange roots"
  | vertexTotal => "global vertex total"
  | derivedRecords => "derived connectivity"
  | duplicateOwners => "duplicate ownership"
  | ownRanks => "own ranks"
  | ownerReferences => "owner self-reference"
  | bisectionCoordinates => "bisection coordinates"
  | slicedRecords => "sliced connectivity"
  | slicedCoordinates => "sliced coordinates"
  | sliceLayout => "slice layout"
  | elements => "elements"
  | vertices => "vertices"
  | named text => text

/-- What makes a connectivity unusable. -/
inductive ConnectivityFault
  /-- The array does not hold whole records of the degree. -/
  | brokenRecords (length degree : Nat)
  /-- The array does not hold whole elements of the degree. -/
  | brokenElements (length degree : Nat)
  /-- The array handed to the mesh builder does not hold whole elements. -/
  | brokenInput (length degree : Nat)
  /-- A record names a vertex that is not there. -/
  | missingVertex (vertex count : Nat)
  /-- An element handed to the mesh builder names a vertex that is not there. -/
  | missingCorner (vertex count : Nat)
  /-- A part of an element names one vertex twice. -/
  | repeatedVertex (vertex : Nat)
  /-- An entity that others name as their owner is owned elsewhere. -/
  | strayOwner (entity rank : Nat)
  /-- The offsets that group items under roots do not ascend from zero to their number. -/
  | brokenFan
deriving DecidableEq, Repr

/-- The words for a connectivity fault. -/
def ConnectivityFault.text : ConnectivityFault → String
  | brokenRecords length degree =>
    s!"array of length {length} does not hold records of degree {degree}"
  | brokenElements length degree =>
    s!"connectivity of length {length} is not a multiple of {degree}"
  | brokenInput length degree =>
    s!"element connectivity of length {length} is not a multiple of {degree}"
  | missingVertex vertex count => s!"vertex {vertex} out of range ({count} vertices)"
  | missingCorner vertex count => s!"element vertex {vertex} out of range ({count} vertices)"
  | repeatedVertex vertex => s!"element repeats vertex {vertex}"
  | strayOwner entity rank =>
    s!"entity {entity} on rank {rank} is named as owner but does not own itself"
  | brokenFan => "exchange pattern roots2items offsets are not a valid fan"

/-- What makes a geometry unusable; numbers are kept as written. -/
inductive GeometryFault
  | infiniteCoordinate (number : String)
  | weightlessPoint (number : String)
  | noCells
  | badSides
deriving DecidableEq, Repr

/-- The words for a geometry fault. -/
def GeometryFault.text : GeometryFault → String
  | infiniteCoordinate number => s!"non-finite coordinate {number}"
  | weightlessPoint number => s!"point mass {number} is not positive"
  | noCells => "nx must be positive"
  | badSides => "box sides must be finite and non-negative"

/-- What goes wrong with a message from a neighbour. -/
inductive TransportFault
  /-- The number of records announced never came. -/
  | noCount
  /-- The announced records never came. -/
  | noPayload
  /-- A message has another length than its records need. -/
  | wrongLength (expected actual : Nat)
  /-- An item was not told where it arrived. -/
  | noLanding
  /-- A neighbour sent another number of values than the route carries. -/
  | wrongCount (expected actual : Nat)
  /-- A neighbour contributed nothing to a reduction. -/
  | noContribution
deriving DecidableEq, Repr

/-- The words for a transport fault of a message from `neighbor`. -/
def TransportFault.text (neighbor : Nat) : TransportFault → String
  | noCount => s!"failed to receive size from rank {neighbor}"
  | noPayload => s!"failed to receive payload from rank {neighbor}"
  | wrongLength expected actual => s!"expected {expected} bytes, got {actual}"
  | noLanding => "missing landing slot for exchange item"
  | wrongCount expected actual => s!"exchange expected {expected} values, got {actual}"
  | noContribution => "empty reduction contribution"

/-- A step that has no value: nothing is reported, the rank stops. -/
inductive Breach
  | missingIndex
  | zeroDivision
  | wordOverflow
  | noRoom
deriving DecidableEq, Repr

/-- What stops a rank. -/
inductive MeshError
  | connectivity (fault : ConnectivityFault)
  /-- A record lists the vertex with number `global` twice. -/
  | degenerate (record global : Nat)
  | shape (what : Subject) (expected actual : Nat)
  | rankRange (rank size : Nat)
  | rootRange (rank index roots : Nat)
  | globalRange (global total : Nat)
  /-- Ranks hold different values of what must agree. -/
  | disagreement (what : Subject) (rank ours theirs : Nat)
  /-- The owner chosen for the copies met at `vertex` is none of them. -/
  | unresolved (vertex : Nat) (owner : Option Place)
  | slice (what : Subject) (expectedBegin expectedEnd actualBegin actualEnd : Nat)
  | dimension (dim : Nat)
  | geometry (fault : GeometryFault)
  | transport (neighbor : Nat) (fault : TransportFault)
  | breach (breach : Breach)
deriving DecidableEq, Repr

/-- An owner, or that there is none, as error messages show it. -/
def ownerText : Option Place → String
  | none => "None"
  | some p => s!"Some({p.text})"

/-- The message of an error. A breach has none. -/
def MeshError.message : MeshError → String
  | connectivity fault => s!"invalid connectivity: {fault.text}"
  | degenerate record global =>
    s!"degenerate record {record}: vertex global {global} appears more than once"
  | shape what expected actual =>
    s!"shape mismatch in {what.text}: expected {expected} values, got {actual}"
  | rankRange rank size => s!"rank {rank} out of range for communicator of size {size}"
  | rootRange rank index roots =>
    s!"root index {index} out of range on rank {rank} ({roots} roots)"
  | globalRange global total => s!"global number {global} out of range (total {total})"
  | disagreement what rank ours theirs =>
    s!"collective disagreement on {what.text}: rank {rank} has {theirs}, this rank has {ours}"
  | unresolved vertex owner =>
    s!"duplicate group served by vertex {vertex} resolved to {ownerText owner}, which is not a member"
  | slice what expectedBegin expectedEnd actualBegin actualEnd =>
    s!"slice mismatch for {what.text}: expected [{expectedBegin}, {expectedEnd}), got [{actualBegin}, {actualEnd})"
  | dimension dim => s!"unsupported dimension {dim}"
  | geometry fault => s!"invalid geometry: {fault.text}"
  | transport neighbor fault =>
    s!"communication with rank {neighbor} failed: {fault.text neighbor}"
  | breach _ => ""

/-- What a local step yields: its value, or why the rank stops. -/
abbrev Checked := Except MeshError

/-- The number, if it is a 64-bit word. Counts and global numbers are words. -/
def word (n : Nat) : Checked Nat :=
  if n < UInt64.size then .ok n else .error (.breach .wordOverflow)

/-- Checks that an array of `count` items of `width` bytes each can be addressed: it has
    fewer than `2 ^ 63` bytes. -/
def checkRoom (count width : Nat) : Checked Unit :=
  if count * width < UInt64.size / 2 then .ok () else .error (.breach .noRoom)

end SharedMesh
