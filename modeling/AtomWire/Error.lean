/-!
# Failures of writing and reading
-/

namespace AtomWire

set_option autoImplicit false

/-- What can go wrong between a buffer and the values in it. -/
inductive WireError where
  /-- The buffer of a writer is full. -/
  | outOfSpace
  /-- A container is closed while none is open. -/
  | frameUnderflow
  /-- More containers are opened than a writer keeps track of. -/
  | frameOverflow
  /-- The innermost open container does not allow the operation. -/
  | frameMismatch
  /-- An atom runs past the end of its buffer. -/
  | truncatedBuffer
  /-- An atom is of another shape than the one asked for. -/
  | unexpectedType
  /-- The sizes inside a container contradict each other. -/
  | malformedContainer
  /-- A type id is not of the requested kind. -/
  | typeMismatch
deriving DecidableEq

namespace WireError

def name : WireError → String
  | outOfSpace => "OutOfSpace"
  | frameUnderflow => "FrameUnderflow"
  | frameOverflow => "FrameOverflow"
  | frameMismatch => "FrameMismatch"
  | truncatedBuffer => "TruncatedBuffer"
  | unexpectedType => "UnexpectedType"
  | malformedContainer => "MalformedContainer"
  | typeMismatch => "TypeMismatch"

def all : List WireError :=
  [outOfSpace, frameUnderflow, frameOverflow, frameMismatch, truncatedBuffer,
    unexpectedType, malformedContainer, typeMismatch]

def nameOfNumber (number : Nat) : String :=
  match all[number]? with
  | some e => e.name
  | none => "Unknown"

end WireError

/-- Fails with the error unless the condition holds. -/
def ensure (condition : Bool) (e : WireError) : Except WireError Unit :=
  if condition then .ok () else .error e

@[simp] theorem ensure_bind {α : Type} (condition : Bool) (e : WireError)
    (f : Unit → Except WireError α) :
    (ensure condition e >>= f) = if condition then f () else .error e := by
  cases condition <;> rfl

end AtomWire
