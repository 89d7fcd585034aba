import SharedMesh.Error

/-!
# Programs of a rank

A rank computes on its own between messages, so all that the others can see of it
is a tree: it is done with a result, it sends a message and goes on, or it waits for
a message and goes on with what it gets. `Program` is that tree. A receive gets
nothing if no message can come any more.

A `Proc` is a program that may stop with an error instead of a result. Where a rank
sits, its `Seat`, is handed to a task as an argument.
-/

namespace SharedMesh

/-- What a rank does with the network, and with which result. -/
inductive Program (κ α : Type)
  | done (result : α)
  | send (peer : Nat) (tag : UInt16) (body : List κ) (next : Program κ α)
  /-- Receives at most `room` cells of the next message from `peer`. -/
  | recv (peer : Nat) (tag : UInt16) (room : Nat) (next : Option (List κ) → Program κ α)

namespace Program

variable {κ α β γ : Type}

/-- The first program, and then the one chosen by its result. -/
protected def bind : Program κ α → (α → Program κ β) → Program κ β
  | done result, f => f result
  | send peer tag body next, f => send peer tag body (next.bind f)
  | recv peer tag room next, f => recv peer tag room fun body => (next body).bind f

instance : Monad (Program κ) where
  pure := done
  bind := Program.bind

theorem bind_done (p : Program κ α) : p.bind done = p := by
  induction p with
  | done => rfl
  | send _ _ _ _ ih => rw [Program.bind, ih]
  | recv _ _ _ _ ih => rw [Program.bind]; exact congrArg _ (funext ih)

theorem bind_assoc (p : Program κ α) (f : α → Program κ β) (g : β → Program κ γ) :
    (p.bind f).bind g = p.bind fun a => (f a).bind g := by
  induction p with
  | done => rfl
  | send _ _ _ _ ih => simp only [Program.bind, ih]
  | recv _ _ _ _ ih => simp only [Program.bind, ih]

instance : LawfulMonad (Program κ) :=
  LawfulMonad.mk' (Program κ) (fun p => bind_done p) (fun _ _ => rfl) bind_assoc

/-- The result, if the program is done. -/
def result? : Program κ α → Option α
  | done result => some result
  | _ => none

/-- Sends messages to some peers, one after the other. -/
def sendEach (tag : UInt16) : List (Nat × List κ) → Program κ Unit
  | [] => done ()
  | (peer, body) :: rest => send peer tag body (sendEach tag rest)

/-- A program without a network: its messages vanish, and it receives nothing. -/
def alone : Program κ α → α
  | done result => result
  | send _ _ _ next => next.alone
  | recv _ _ _ next => (next none).alone

end Program

/-- Where a rank sits: its number, and how many ranks there are. A rank without a
    network is the only one. -/
structure Seat where
  rank : Nat
  size : Nat
  networked : Bool
deriving DecidableEq, Repr

/-- A seat in a world. -/
def Seat.of (rank size : Nat) : Seat := ⟨rank, size, true⟩

/-- Checks that the seats of a world can be listed. A seat takes three words. -/
def Seat.checkWorld (size : Nat) : Checked Unit := checkRoom size 24

/-- The seat of a rank without a network. -/
def Seat.serial : Seat := ⟨0, 1, false⟩

/-- A program that may stop with an error. -/
abbrev Proc (κ : Type) := ExceptT MeshError (Program κ)

namespace Proc

variable {κ α : Type}

/-- A program that cannot fail, as a task. -/
def ofProgram (p : Program κ α) : Proc κ α := ExceptT.lift p

/-- A local step as a task. -/
def ofChecked (value : Checked α) : Proc κ α := ExceptT.mk (Program.done value)

/-- The task as a program, with its result or its error. -/
def toProgram (t : Proc κ α) : Program κ (Checked α) := t.run

end Proc

end SharedMesh
