import SharedMesh.Collective.Reduce

/-!
# Agreement

A rank that stops in the middle of a collective would leave the others waiting for its
messages. So a check that one rank may fail and another pass is made collective
(`allPass`): every rank learns which ranks failed, and all of them stop together. A
rank that failed reports its own error; the others name the first rank that failed.
-/

namespace SharedMesh

variable {κ α : Type} [Alphabet κ]

/-- One word of each rank, in the order of the ranks. -/
def gatherWords (seat : Seat) (value : Nat) : Proc κ (List Nat) := do
  let lists ← gather seat (Group.all seat) gatherTag [UInt64.ofNat value]
  Proc.ofChecked (lists.mapM fun values =>
    match values with
    | [] => .error (.breach .missingIndex)
    | first :: _ => .ok first.toNat)

/-- The value of a local check, if the check passed on all ranks. -/
def allPass (seat : Seat) (what : Subject) (check : Checked α) : Proc κ α := do
  let passed ← gatherWords seat check.toBool.toNat
  let value ← Proc.ofChecked check
  match passed.idxOf? 0 with
  | some rank => throw (.disagreement what rank 1 0)
  | none => return value

/-- Checks that all ranks hold the same value. -/
def agree (seat : Seat) (what : Subject) (value : Nat) : Proc κ Unit := do
  let values ← gatherWords seat value
  match values.zipIdx.find? fun (theirs, _) => theirs ≠ value with
  | some (theirs, rank) => throw (.disagreement what rank value theirs)
  | none => return ()

end SharedMesh
